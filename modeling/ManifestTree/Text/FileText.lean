import ManifestTree.Text.Utf8

/-!
# The text of a file

A file holds UTF-8.  A carriage return, with the line feed that may follow it, ends a line just as
a line feed does, and all three are read as a line feed.
-/

namespace ManifestTree.Text

/-- Line feeds in the place of every line end. -/
def unifyLineEnds : List Char → List Char
  | [] => []
  | '\r' :: '\n' :: cs => '\n' :: unifyLineEnds cs
  | c :: cs => (if c = '\r' then '\n' else c) :: unifyLineEnds cs

/-- A text without carriage returns is read as it is. -/
theorem unifyLineEnds_eq_self {cs : List Char} (h : '\r' ∉ cs) : unifyLineEnds cs = cs := by
  fun_induction unifyLineEnds cs with
  | case1 => rfl
  | case2 cs ih => simp at h
  | case3 c cs hc ih =>
    simp only [List.mem_cons, not_or] at h
    rw [ih h.2, if_neg (Ne.symm h.1)]

/-- The text in the bytes of a file. -/
def ofFile (bytes : List UInt8) : Except Utf8.Fault (List Char) :=
  match Utf8.decode bytes with
  | .ok cs => .ok (unifyLineEnds cs)
  | .error f => .error f

end ManifestTree.Text
