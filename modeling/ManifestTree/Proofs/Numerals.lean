import ManifestTree.Number.Literal
import Mathlib.Data.List.TakeWhile

/-!
# Numerals

What the recogniser of numbers takes for an integer is a numeral: the hexadecimal digits after `0x`,
or decimal digits of any script among which no ASCII eight or nine follows a leading zero.  So a
numeral has a value unless a leading zero makes it octal and it holds an eight or a nine of another
script.  What it takes for a float has none as an integer.
-/

namespace ManifestTree

open Text

namespace Literal

/-- The text is how an integer is written. -/
inductive Numeral : Text → Prop
  | hexadecimal {x : CodePoint} {digits : Text} : x = 'x' ∨ x = 'X' →
      (∀ c ∈ digits, isHexDigit c) → Numeral (.char '0' :: x :: digits)
  | decimal {digits : Text} : digits ≠ [] → (∀ c ∈ digits, isDecimal c) →
      Lexeme.isIllegalOctal digits = false → Numeral digits

/-- The text begins with a zero and holds an eight or a nine that is no ASCII digit. -/
def ForeignOctal (text : Text) : Prop :=
  ∃ digits, text = .char '0' :: digits ∧
    ∃ c ∈ digits, ∃ v, decimalValue? c = some v ∧ 8 ≤ v ∧ c ≠ '8' ∧ c ≠ '9'

theorem decimalValue?_lt {c : CodePoint} {v : Nat} (h : decimalValue? c = some v) : v < 10 := by
  unfold decimalValue? at h
  split at h
  · split at h
    · rename_i hd
      cases h
      simp only [isAsciiDigit, Bool.and_eq_true, decide_eq_true_eq] at hd
      have h₁ : '0'.toNat ≤ c.val := hd.1
      have h₂ : c.val ≤ '9'.toNat := hd.2
      have h₀ : '0'.toNat = 48 := rfl
      have h₉ : '9'.toNat = 57 := rfl
      omega
    · cases h
  · obtain ⟨z, hz, rfl⟩ := Option.map_eq_some_iff.mp h
    have hz := List.find?_some hz
    simp only [Bool.and_eq_true, decide_eq_true_eq] at hz
    omega

/-- Digits in a base have a value unless one of them is no digit of that base. -/
theorem inBase?_eq_none {base : Nat} {digits : Text} (hd : ∀ c ∈ digits, isDecimal c)
    (h : inBase? base digits = none) : ∃ c ∈ digits, ∃ v, decimalValue? c = some v ∧ base ≤ v := by
  unfold inBase? at h
  generalize 0 = n at h
  induction digits generalizing n with
  | nil => cases h
  | cons c digits ih =>
    obtain ⟨v, hv⟩ := Option.isSome_iff_exists.mp (hd c List.mem_cons_self)
    rw [List.foldlM_cons] at h
    by_cases hlt : v < base
    · simp only [hv, Option.bind_eq_bind, Option.bind_some, if_pos hlt] at h
      obtain ⟨d, hd, hval⟩ := ih (fun d hm => hd d (List.mem_cons_of_mem _ hm)) _ h
      exact ⟨d, List.mem_cons_of_mem _ hd, hval⟩
    · exact ⟨c, List.mem_cons_self, v, hv, by omega⟩

/-- A numeral without a value is octal and holds an eight or a nine of another script. -/
theorem Numeral.foreignOctal {text : Text} (h : Numeral text) (hv : integer? text = none) :
    ForeignOctal text := by
  unfold integer? at hv
  split at hv
  case h_1 x rest =>
    split at hv
    · cases hv
    rename_i hx
    simp only [Bool.or_eq_true, decide_eq_true_eq] at hx
    cases h with
    | hexadecimal hx' => exact absurd hx' hx
    | decimal _ hd hoctal =>
      obtain ⟨c, hc, v, hval, hle⟩ :=
        inBase?_eq_none (fun c hc => hd c (List.mem_cons_of_mem _ hc)) hv
      have hascii : ¬ (c = '8' ∨ c = '9') := by
        intro h89
        have : (x :: rest).any (fun c => c = .char '8' || c = .char '9') = true :=
          List.any_eq_true.mpr ⟨c, hc, by simpa using h89⟩
        rw [Lexeme.isIllegalOctal, this] at hoctal
        cases hoctal
      exact ⟨x :: rest, rfl, c, hc, v, hval, hle, fun h => hascii (.inl h),
        fun h => hascii (.inr h)⟩
  case h_2 hother =>
    cases h with
    | hexadecimal => exact absurd rfl (hother _ _)
    | decimal _ hd _ =>
      obtain ⟨c, _, v, hval, hle⟩ := inBase?_eq_none hd hv
      exact absurd (decimalValue?_lt hval) (Nat.not_lt.mpr hle)

/-- A character that is no decimal digit leaves no value in any base. -/
theorem inBase?_eq_none_of_mem {base : Nat} {digits : Text} {c : CodePoint} (hc : c ∈ digits)
    (hd : decimalValue? c = none) : inBase? base digits = none := by
  unfold inBase?
  generalize 0 = n
  induction digits generalizing n with
  | nil => cases hc
  | cons d digits ih =>
    rw [List.foldlM_cons]
    rcases List.mem_cons.mp hc with rfl | hc
    · simp [hd]
    · cases hv : decimalValue? d with
      | none => simp
      | some v =>
        by_cases hlt : v < base
        · simpa [hlt] using ih hc _
        · simp [hlt]

/-- A text that begins with decimal digits and goes on with a mark is no integer. -/
theorem integer?_eq_none {digits rest : Text} {mark : CodePoint} (hne : digits ≠ [])
    (hdigits : ∀ c ∈ digits, isDecimal c) (hmark : mark = '.' ∨ mark = 'e' ∨ mark = 'E') :
    integer? (digits ++ mark :: rest) = none := by
  have hvalue : decimalValue? mark = none := by rcases hmark with rfl | rfl | rfl <;> rfl
  obtain ⟨c, digits, rfl⟩ := List.exists_cons_of_ne_nil hne
  have hmem : mark ∈ digits ++ mark :: rest := List.mem_append_right _ List.mem_cons_self
  unfold integer?
  split
  · rename_i x rest' heq
    have htail : digits ++ mark :: rest = x :: rest' := (List.cons.inj heq).2
    have hx : ¬ (x = 'x' ∨ x = 'X') := by
      cases digits with
      | nil =>
        cases htail
        rcases hmark with rfl | rfl | rfl <;> decide
      | cons d digits =>
        cases htail
        have hdecimal := hdigits x (List.mem_cons_of_mem _ List.mem_cons_self)
        rintro (rfl | rfl) <;> exact absurd hdecimal (by decide)
    rw [if_neg (by simpa using hx)]
    exact inBase?_eq_none_of_mem (htail ▸ hmem) hvalue
  · exact inBase?_eq_none_of_mem (List.mem_cons_of_mem _ hmem) hvalue

end Literal

namespace Lexeme

theorem decimal?_eq_none {c : CodePoint} {cs : Text} (h : decimal? (c :: cs) = none) :
    isDecimal c = false := by
  cases hc : isDecimal c with
  | false => rfl
  | true => simp [decimal?, hc] at h

/-- Where no number begins, no decimal digit stands. -/
theorem number?_eq_none {c : CodePoint} {cs : Text} (h : number? (c :: cs) = none) :
    isDecimal c = false := by
  unfold number? at h
  split at h
  · dsimp only at h
    split at h
    · cases h
    · rename_i heq _
      cases heq
      exact decimal?_eq_none h
  · exact decimal?_eq_none h

/-- A decimal number without a fraction and an exponent is its digits. -/
theorem decimal?_numeral {cs : Text} {n : Nat} {form : NumberForm}
    (h : decimal? cs = some (n, form)) (hform : form ≠ .float)
    (hoctal : ¬ (form = .integer ∧ isIllegalOctal (cs.take n) = true)) :
    Literal.Numeral (cs.take n) := by
  unfold decimal? at h
  dsimp only at h
  split at h
  · cases h
  rename_i hpos
  simp only [Option.some.injEq, Prod.mk.injEq] at h
  obtain ⟨rfl, rfl⟩ := h
  split at hform
  case isFalse => exact absurd rfl hform
  case isTrue hzero =>
    have htake : cs.take (cs.takeWhile isDecimal).length = cs.takeWhile isDecimal :=
      (List.prefix_iff_eq_take.mp (List.takeWhile_prefix _)).symm
    rw [if_pos hzero] at hoctal
    rw [Nat.add_assoc, hzero, Nat.add_zero, htake] at hoctal ⊢
    refine .decimal (fun he => hpos (by rw [he]; rfl)) (fun c hc => List.mem_takeWhile_imp hc) ?_
    exact Bool.eq_false_iff.mpr fun ho => hoctal ⟨rfl, ho⟩

/-- A number that is no float is a numeral, if it is no illegal octal number. -/
theorem number?_numeral {cs : Text} {n : Nat} {form : NumberForm}
    (h : number? cs = some (n, form)) (hform : form ≠ .float)
    (hoctal : ¬ (form = .integer ∧ isIllegalOctal (cs.take n) = true)) :
    Literal.Numeral (cs.take n) := by
  unfold number? at h
  split at h
  · dsimp only at h
    split at h
    · rename_i x rest hx
      cases h
      simp only [Bool.and_eq_true, Bool.or_eq_true, decide_eq_true_eq] at hx
      rw [List.take_succ_cons, List.take_succ_cons,
        (List.prefix_iff_eq_take.mp (List.takeWhile_prefix _)).symm]
      exact .hexadecimal hx.1 fun c hc => List.mem_takeWhile_imp hc
    · exact decimal?_numeral h hform hoctal
  · exact decimal?_numeral h hform hoctal

/-- What a fraction or an exponent begins with. -/
theorem exists_mark {cs : Text}
    (h : fractionLength cs + exponentLength (cs.drop (fractionLength cs)) ≠ 0) :
    ∃ mark rest, cs = mark :: rest ∧ (mark = '.' ∨ mark = 'e' ∨ mark = 'E') := by
  by_cases hf : fractionLength cs = 0
  · rw [hf, List.drop_zero, Nat.zero_add] at h
    unfold exponentLength at h
    split at h
    · rename_i c rest
      split at h
      · rename_i hc
        exact ⟨c, rest, rfl, .inr (by simpa using hc)⟩
      · exact absurd rfl h
    · exact absurd rfl h
  · unfold fractionLength at hf
    split at hf
    · exact ⟨'.', _, rfl, .inl rfl⟩
    · exact absurd rfl hf

theorem decimal?_float {cs : Text} {n : Nat} (h : decimal? cs = some (n, .float)) :
    Literal.integer? (cs.take n) = none := by
  unfold decimal? at h
  dsimp only at h
  split at h
  · cases h
  rename_i hpos
  simp only [Option.some.injEq, Prod.mk.injEq] at h
  obtain ⟨rfl, hform⟩ := h
  split at hform
  · cases hform
  rename_i hmore
  -- After the digits comes the mark that makes it a float.
  have htake : cs.take (cs.takeWhile isDecimal).length = cs.takeWhile isDecimal :=
    (List.prefix_iff_eq_take.mp (List.takeWhile_prefix _)).symm
  have hdigits : ∀ c ∈ cs.takeWhile isDecimal, isDecimal c := fun c hc =>
    List.mem_takeWhile_imp hc
  rw [Nat.add_assoc, List.take_add, htake]
  rw [← List.drop_drop] at hmore ⊢
  obtain ⟨mark, rest, hrest, hmark⟩ := exists_mark hmore
  obtain ⟨k, hk⟩ := Nat.exists_eq_succ_of_ne_zero hmore
  rw [hk, hrest, Nat.succ_eq_add_one, List.take_succ_cons]
  exact Literal.integer?_eq_none (fun hnil => hpos (by rw [hnil]; rfl)) hdigits hmark

theorem number?_float {cs : Text} {n : Nat} (h : number? cs = some (n, .float)) :
    Literal.integer? (cs.take n) = none := by
  unfold number? at h
  split at h
  · dsimp only at h
    split at h
    · cases h
    · exact decimal?_float h
  · exact decimal?_float h

end Lexeme

end ManifestTree
