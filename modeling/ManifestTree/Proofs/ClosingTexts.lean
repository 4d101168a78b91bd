import ManifestTree.Heredoc.ClosingLine
import Mathlib.Data.List.TakeWhile

/-!
# The parts of a closing line

A closing line is blanks, perhaps a margin sign and blanks, perhaps a chomp sign and blanks, the
terminator, blanks and perhaps a carriage return.  `closingText?` reads these parts off a line.  For
a terminator that could not itself be taken for blanks or a sign there is only one way to do so, and
`closingText?` finds it.
-/

namespace ManifestTree

open Text

/-- A sign with the blanks after it, or nothing. -/
def IsMarker (mark : CodePoint) (cs : Text) : Prop :=
  cs = [] ∨ ∃ blanks, cs = mark :: blanks ∧ ∀ c ∈ blanks, isBlank c

/-- What stands around the terminator in a closing line. -/
structure ClosingParts where
  /-- The blanks at the start. -/
  indent : Text
  /-- The sign for a margin, with the blanks after it. -/
  margin : Text
  /-- The sign for chomping, with the blanks after it. -/
  chomp : Text
  /-- The blanks after the terminator. -/
  trailing : Text
  /-- A carriage return at the end. -/
  lineEnd : Text
deriving DecidableEq, Repr

namespace ClosingParts

/-- The line reads as the parts with the terminator between them. -/
structure Reads (p : ClosingParts) (terminator line : Text) : Prop where
  line_eq : line = p.indent ++ (p.margin ++ (p.chomp ++ (terminator ++ (p.trailing ++ p.lineEnd))))
  indent : ∀ c ∈ p.indent, isBlank c
  margin : IsMarker '|' p.margin
  chomp : IsMarker '-' p.chomp
  trailing : ∀ c ∈ p.trailing, isBlank c
  lineEnd : p.lineEnd = [] ∨ p.lineEnd = [.char '\r']

/-- The parts as they are read off a line. -/
def closing (p : ClosingParts) (terminator : Text) : ClosingText where
  indent := p.indent.length
  trim := ⟨p.margin ≠ [], p.chomp ≠ []⟩
  markers := p.margin.length + p.chomp.length
  text := terminator

end ClosingParts

/-- The line closes a heredoc with the terminator. -/
def IsClosingLine (terminator line : Text) : Prop :=
  ∃ p : ClosingParts, p.Reads terminator line

/-- A terminator whose ends cannot be taken for blanks or a sign, and that no carriage return
breaks. -/
structure PlainTerminator (terminator : Text) : Prop where
  nonempty : terminator ≠ []
  first : ∀ c ∈ terminator.head?, isBlank c = false ∧ c ≠ '|' ∧ c ≠ '-'
  last : ∀ c ∈ terminator.getLast?, isBlank c = false
  noReturn : .char '\r' ∉ terminator

/-! ## What is read off a line -/

theorem isBlank_ne_return {c : CodePoint} (h : isBlank c) : c ≠ '\r' := by
  rintro rfl
  cases h

theorem IsMarker.noReturn {mark : CodePoint} {cs : Text} (h : IsMarker mark cs)
    (hmark : mark ≠ '\r') : .char '\r' ∉ cs := by
  rcases h with rfl | ⟨blanks, rfl, hblanks⟩
  · exact List.not_mem_nil
  · rw [List.mem_cons, not_or]
    exact ⟨hmark.symm, fun hmem => isBlank_ne_return (hblanks _ hmem) rfl⟩

section

variable {member : CodePoint → Bool} {run rest : Text}

/-- A run of characters ends where something else comes. -/
theorem takeWhile_run (hrun : ∀ c ∈ run, member c) (hrest : ∀ c ∈ rest.head?, member c = false) :
    (run ++ rest).takeWhile member = run := by
  rw [List.takeWhile_append_of_pos hrun]
  cases rest with
  | nil => simp
  | cons c rest => simp [hrest c rfl]

theorem dropWhile_run (hrun : ∀ c ∈ run, member c) (hrest : ∀ c ∈ rest.head?, member c = false) :
    (run ++ rest).dropWhile member = rest := by
  rw [List.dropWhile_append_of_pos hrun]
  cases rest with
  | nil => rfl
  | cons c rest => simp [hrest c rfl]

end

/-- Where neither a blank nor the sign comes next, a sign is measured with the blanks after it. -/
theorem markerLength_of_isMarker {mark : CodePoint} {cs rest : Text} (h : IsMarker mark cs)
    (hrest : ∀ c ∈ rest.head?, isBlank c = false ∧ c ≠ mark) :
    markerLength mark (cs ++ rest) = cs.length := by
  rcases h with rfl | ⟨blanks, rfl, hblanks⟩
  · cases rest with
    | nil => rfl
    | cons c rest => simp [markerLength, (hrest c rfl).2]
  · have htake := takeWhile_run hblanks fun c hc => (hrest c hc).1
    simp [markerLength, htake]

/-- What `markerLength` measures is a sign with the blanks after it, or nothing. -/
theorem markerLength_spec (mark : CodePoint) (cs : Text) :
    ∃ sign rest, cs = sign ++ rest ∧ IsMarker mark sign ∧ markerLength mark cs = sign.length := by
  cases cs with
  | nil => exact ⟨[], [], rfl, .inl rfl, rfl⟩
  | cons c cs =>
    by_cases hc : c = mark
    · refine ⟨mark :: cs.takeWhile isBlank, cs.dropWhile isBlank, ?_, .inr ⟨_, rfl, ?_⟩, ?_⟩
      · rw [hc, List.cons_append, List.takeWhile_append_dropWhile]
      · exact fun c hc => List.mem_takeWhile_imp hc
      · simp [markerLength, hc]
    · exact ⟨[], c :: cs, rfl, .inl rfl, by simp [markerLength, hc]⟩

theorem dropReturn_spec (line : Text) :
    ∃ end_, line = dropReturn line ++ end_ ∧ (end_ = [] ∨ end_ = [.char '\r']) := by
  unfold dropReturn
  split
  case isTrue h =>
    obtain ⟨ys, rfl⟩ := List.getLast?_eq_some_iff.mp h
    exact ⟨[.char '\r'], by simp, .inr rfl⟩
  case isFalse => exact ⟨[], by simp, .inl rfl⟩

/-- A carriage return is dropped where it ends the line. -/
theorem dropReturn_append {body lineEnd : Text} (hbody : .char '\r' ∉ body)
    (hend : lineEnd = [] ∨ lineEnd = [.char '\r']) : dropReturn (body ++ lineEnd) = body := by
  unfold dropReturn
  rcases hend with rfl | rfl
  · rw [List.append_nil, if_neg]
    exact fun h => hbody (List.mem_of_getLast? h)
  · rw [if_pos (by simp), List.dropLast_concat]

theorem trimEnd_spec (cs : Text) :
    ∃ trailing, cs = (cs.reverse.dropWhile isBlank).reverse ++ trailing ∧
      ∀ c ∈ trailing, isBlank c := by
  refine ⟨(cs.reverse.takeWhile isBlank).reverse, ?_, ?_⟩
  · rw [← List.reverse_append, List.takeWhile_append_dropWhile, List.reverse_reverse]
  · intro c hc
    exact List.mem_takeWhile_imp (List.mem_reverse.mp hc)

/-- They are cut up to the last character that is none. -/
theorem trimEnd_append {text trailing : Text} (htext : ∀ c ∈ text.getLast?, isBlank c = false)
    (ht : ∀ c ∈ trailing, isBlank c) :
    ((text ++ trailing).reverse.dropWhile isBlank).reverse = text := by
  rw [List.reverse_append, dropWhile_run (by simpa using ht) fun c hc => htext c (by simpa using hc),
    List.reverse_reverse]

/-! ## Both ways -/

theorem closingText?_reads {line : Text} {closing : ClosingText}
    (h : closingText? line = some closing) :
    ∃ p : ClosingParts, p.Reads closing.text line ∧ closing = p.closing closing.text := by
  unfold closingText? at h
  dsimp only at h
  split at h
  · cases h
  obtain ⟨lineEnd, hline, hend⟩ := dropReturn_spec line
  generalize dropReturn line = body at h hline
  obtain ⟨indent, afterIndent, rfl, hblanks, hindent⟩ : ∃ indent afterIndent,
      body = indent ++ afterIndent ∧ (∀ c ∈ indent, isBlank c) ∧
        (body.takeWhile isBlank).length = indent.length :=
    ⟨_, _, (List.takeWhile_append_dropWhile (p := isBlank)).symm,
      fun c hc => List.mem_takeWhile_imp hc, rfl⟩
  rw [hindent, List.drop_left] at h
  obtain ⟨margin, afterMargin, rfl, hmargin, hm⟩ := markerLength_spec '|' afterIndent
  rw [hm, List.drop_left] at h
  obtain ⟨chomp, afterChomp, rfl, hchomp, hn⟩ := markerLength_spec '-' afterMargin
  rw [hn, ← List.drop_drop, List.drop_left, List.drop_left] at h
  obtain ⟨trailing, htext, htrailing⟩ := trimEnd_spec afterChomp
  cases h
  refine ⟨⟨indent, margin, chomp, trailing, lineEnd⟩,
    ⟨?_, hblanks, hmargin, hchomp, htrailing, hend⟩, ?_⟩
  · rw [hline]
    conv => lhs; rw [htext]
    simp only [List.append_assoc]
  · simp [ClosingParts.closing]

/-- With a plain terminator a line is read as its parts. -/
theorem ClosingParts.Reads.closingText? {p : ClosingParts} {terminator line : Text}
    (h : p.Reads terminator line) (ht : PlainTerminator terminator) :
    closingText? line = some (p.closing terminator) := by
  have hterminator (rest : Text) :
      ∀ c ∈ (terminator ++ rest).head?, isBlank c = false ∧ c ≠ '|' ∧ c ≠ '-' := by
    obtain ⟨c, cs, rfl⟩ := List.exists_cons_of_ne_nil ht.nonempty
    exact ht.first
  have hafterMargin : ∀ c ∈ (p.chomp ++ (terminator ++ p.trailing)).head?,
      isBlank c = false ∧ c ≠ '|' := by
    rcases h.chomp with hnil | ⟨blanks, hdash, -⟩
    · rw [hnil]
      exact fun c hc => ⟨(hterminator _ c hc).1, (hterminator _ c hc).2.1⟩
    · rw [hdash]
      rintro c ⟨⟩
      exact ⟨rfl, by decide⟩
  have hafterIndent : ∀ c ∈ (p.margin ++ (p.chomp ++ (terminator ++ p.trailing))).head?,
      isBlank c = false := by
    rcases h.margin with hnil | ⟨blanks, hbar, -⟩
    · rw [hnil]
      exact fun c hc => (hafterMargin c hc).1
    · rw [hbar]
      rintro c ⟨⟩
      rfl
  have hreturn : .char '\r' ∉ p.indent ++
      (p.margin ++ (p.chomp ++ (terminator ++ p.trailing))) := by
    simp only [List.mem_append, not_or]
    exact ⟨fun hmem => isBlank_ne_return (h.indent _ hmem) rfl, h.margin.noReturn (by decide),
      h.chomp.noReturn (by decide), ht.noReturn,
      fun hmem => isBlank_ne_return (h.trailing _ hmem) rfl⟩
  have hline : dropReturn line =
      p.indent ++ (p.margin ++ (p.chomp ++ (terminator ++ p.trailing))) := by
    rw [← dropReturn_append hreturn h.lineEnd, h.line_eq]
    simp only [List.append_assoc]
  unfold ManifestTree.closingText?
  dsimp only
  rw [hline, if_neg (by simpa using hreturn), takeWhile_run h.indent hafterIndent,
    List.drop_left, markerLength_of_isMarker h.margin hafterMargin, ← List.drop_drop,
    List.drop_left,
    markerLength_of_isMarker h.chomp fun c hc =>
      ⟨(hterminator _ c hc).1, (hterminator _ c hc).2.2⟩,
    List.drop_left, trimEnd_append ht.last h.trailing]
  simp [ClosingParts.closing]

end ManifestTree
