import ManifestTree.Text.CodePoint

/-!
# The order of texts

Texts are ordered by code point and lists of texts by their first difference.  `lexLe` is the
dictionary order that both come from.
-/

namespace ManifestTree

/-- The dictionary order of lists: the first difference decides, and a start comes before what
it starts. -/
def lexLe {α : Type} [DecidableEq α] (le : α → α → Bool) : List α → List α → Bool
  | [], _ => true
  | _ :: _, [] => false
  | a :: as, b :: bs => if a = b then lexLe le as bs else le a b

theorem lexLe_total {α : Type} [DecidableEq α] {le : α → α → Bool}
    (h : ∀ a b, le a b || le b a) (as bs : List α) : lexLe le as bs || lexLe le bs as := by
  induction as generalizing bs with
  | nil => rfl
  | cons a as ih =>
    cases bs with
    | nil => rfl
    | cons b bs =>
      by_cases hab : a = b
      · simpa [lexLe, hab] using ih bs
      · simpa [lexLe, hab, Ne.symm hab] using h a b

namespace Text

/-- Texts by code point. -/
def le : Text → Text → Bool := lexLe fun a b => a.val ≤ b.val

theorem le_total (s t : Text) : le s t || le t s :=
  lexLe_total (fun a b => by simpa using Nat.le_total a.val b.val) s t

end Text

end ManifestTree
