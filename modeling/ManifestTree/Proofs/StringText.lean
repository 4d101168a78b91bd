import ManifestTree.Json.Printer
import ManifestTree.Json.Reader
import Mathlib.Algebra.GroupWithZero.Nat
import Mathlib.Data.List.Chain

/-!
# Strings in JSON read back

Every code point is written by an escape or as itself, and one step of the reader takes it back.
The one exception is a high surrogate in front of a low one: their escapes read back as a single
code point.  Text in which no such pair occurs therefore reads back unchanged.
-/

namespace ManifestTree

namespace CodePoint

/-- The first half of a pair. -/
def IsHigh (c : CodePoint) : Prop := 0xD800 ≤ c.val ∧ c.val < 0xDC00

/-- The second half of a pair. -/
def IsLow (c : CodePoint) : Prop := 0xDC00 ≤ c.val ∧ c.val < 0xE000

instance : DecidablePred IsHigh := fun _ => inferInstanceAs (Decidable (_ ∧ _))

instance : DecidablePred IsLow := fun _ => inferInstanceAs (Decidable (_ ∧ _))

end CodePoint

/-- No high surrogate is directly followed by a low one. -/
def Text.Unpaired (t : Text) : Prop := t.IsChain fun a b => ¬ (a.IsHigh ∧ b.IsLow)

instance : DecidablePred Text.Unpaired := fun t =>
  inferInstanceAs (Decidable (List.IsChain _ t))

namespace Json

open Text

/-! ## Hexadecimal digits -/

theorem hexDigit_mod (n : Nat) : hexDigit (n % 16) = hexDigit n := by
  unfold hexDigit
  rw [Nat.mod_mod]

theorem isHexDigit_hexDigit (n : Nat) : isHexDigit (hexDigit n) = true := by
  have h : ∀ d < 16, isHexDigit (hexDigit d) = true := by decide
  rw [← hexDigit_mod]
  exact h _ (Nat.mod_lt _ (by decide))

theorem hexValue_hexDigit (n : Nat) : Lexeme.hexValue (hexDigit n) = n % 16 := by
  have h : ∀ d < 16, Lexeme.hexValue (hexDigit d) = d := by decide
  rw [← hexDigit_mod]
  exact h _ (Nat.mod_lt _ (by decide))

theorem length_hexDigits (w n : Nat) : (hexDigits w n).length = w := by
  induction w generalizing n with
  | zero => rfl
  | succ w ih => rw [hexDigits, List.length_append, ih, List.length_singleton]

theorem all_hexDigits (w n : Nat) : (hexDigits w n).all (isHexDigit ·) = true := by
  induction w generalizing n with
  | zero => rfl
  | succ w ih =>
    rw [hexDigits, List.all_append, ih, List.all_cons, List.all_nil, isHexDigit_hexDigit]
    rfl

theorem hexNumber_hexDigits (w n : Nat) :
    Lexeme.hexNumber (ofChars (hexDigits w n)) = n % 16 ^ w := by
  induction w generalizing n with
  | zero => rw [Nat.pow_zero, Nat.mod_one]; rfl
  | succ w ih =>
    unfold Lexeme.hexNumber at ih ⊢
    rw [hexDigits, ofChars_append, List.foldl_append, ih, ofChars_cons, ofChars_nil,
      List.foldl_cons, List.foldl_nil, hexValue_hexDigit,
      Nat.pow_succ', Nat.mod_mul, Nat.add_comm]

theorem fourHex?_hexDigits {n : Nat} (h : n < 0x10000) (rest : List Char) :
    fourHex? (hexDigits 4 n ++ rest) = some n := by
  have htake : (hexDigits 4 n ++ rest).take 4 = hexDigits 4 n :=
    List.take_left' (length_hexDigits 4 n)
  have hmod : n % 16 ^ 4 = n := Nat.mod_eq_of_lt h
  unfold fourHex?
  dsimp only
  rw [htake, length_hexDigits, all_hexDigits, hexNumber_hexDigits, hmod]
  rfl

theorem drop_hexDigits (n : Nat) (rest : List Char) : (hexDigits 4 n ++ rest).drop 4 = rest :=
  List.drop_left' (length_hexDigits 4 n)

/-! ## Steps of the reader -/

section Steps

variable (fuel : Nat) (cs : List Char)

theorem stringRest?_letter {e x : Char} (he : e ≠ 'u') (hx : letterEscape? e = some x) :
    stringRest? (fuel + 1) ('\\' :: e :: cs)
      = (stringRest? fuel cs).map fun p => (CodePoint.char x :: p.1, p.2) := by
  rw [stringRest?]
  · rw [hx]
    cases stringRest? fuel cs <;> rfl
  · exact he

/-- A character that stands for itself. -/
theorem stringRest?_plain {c : Char} (hquote : c ≠ '\x22') (hslash : c ≠ '\\')
    (hspace : 0x20 ≤ c.toNat) :
    stringRest? (fuel + 1) (c :: cs)
      = (stringRest? fuel cs).map fun p => (CodePoint.char c :: p.1, p.2) := by
  have hread : (c = '\\' || c.toNat < 0x20) = false := by
    rw [Bool.or_eq_false_iff, decide_eq_false_iff_not, decide_eq_false_iff_not]
    exact ⟨hslash, by omega⟩
  rw [stringRest?]
  · rw [hread]
    cases stringRest? fuel cs <;> rfl
  · exact hquote
  · exact fun _ heq _ => hslash heq
  · exact fun _ _ heq _ => hslash heq

/-- The escape of a unit that no low surrogate completes. -/
theorem stringRest?_unit {c : CodePoint} (hc : c.val < 0x10000)
    (hlone : c.IsHigh → lowEscape? cs = none) :
    stringRest? (fuel + 1) (unitEscape c.val ++ cs)
      = (stringRest? fuel cs).map fun p => (c :: p.1, p.2) := by
  have hlow : (if 0xD800 ≤ c.val && c.val < 0xDC00 then lowEscape? cs else none) = none := by
    split_ifs with h
    · rw [Bool.and_eq_true, decide_eq_true_eq, decide_eq_true_eq] at h
      exact hlone h
    · rfl
  unfold unitEscape
  rw [List.cons_append, List.cons_append, stringRest?, fourHex?_hexDigits hc, drop_hexDigits]
  simp only [Option.bind_eq_bind, Option.bind_some, hlow, CodePoint.ofNat?_val]
  cases stringRest? fuel cs <;> rfl

theorem lowEscape?_unit {n : Nat} (hn : n < 0x10000) :
    lowEscape? (unitEscape n ++ cs) = if 0xDC00 ≤ n && n < 0xE000 then some n else none := by
  unfold unitEscape
  rw [List.cons_append, List.cons_append, lowEscape?, fourHex?_hexDigits hn]
  rfl

theorem stringRest?_pair {high low : Nat} (hhigh : 0xD800 ≤ high ∧ high < 0xDC00)
    (hlow : 0xDC00 ≤ low ∧ low < 0xE000) {c : CodePoint} (hc : c.val = pairNumber high low) :
    stringRest? (fuel + 1) (unitEscape high ++ (unitEscape low ++ cs))
      = (stringRest? fuel cs).map fun p => (c :: p.1, p.2) := by
  have hfirst : (0xD800 ≤ high && high < 0xDC00) = true := by
    rw [Bool.and_eq_true, decide_eq_true_eq, decide_eq_true_eq]
    exact hhigh
  have hsecond : (0xDC00 ≤ low && low < 0xE000) = true := by
    rw [Bool.and_eq_true, decide_eq_true_eq, decide_eq_true_eq]
    exact hlow
  have hpoint : CodePoint.ofNat? (pairNumber high low) = some c := by
    rw [← hc]
    exact CodePoint.ofNat?_val c
  have hread := lowEscape?_unit cs (show low < 0x10000 by omega)
  rw [hsecond, if_pos rfl] at hread
  have hdrop : (unitEscape low ++ cs).drop 6 = cs := by
    unfold unitEscape
    rw [List.cons_append, List.cons_append, List.drop_succ_cons, List.drop_succ_cons,
      drop_hexDigits]
  rw [show unitEscape high ++ (unitEscape low ++ cs)
    = '\\' :: 'u' :: (hexDigits 4 high ++ (unitEscape low ++ cs)) from rfl, stringRest?,
    fourHex?_hexDigits (by omega), drop_hexDigits]
  simp only [Option.bind_eq_bind, Option.bind_some, hfirst, ↓reduceIte, hread, hpoint, hdrop]
  cases stringRest? fuel cs <;> rfl

end Steps

/-! ## Code points -/

/-- The number of a code point beyond U+FFFF from its pair. -/
theorem pairNumber_eq {n : Nat} (h : 0x10000 ≤ n) :
    n = pairNumber (0xD800 + (n - 0x10000) / 0x400) (0xDC00 + (n - 0x10000) % 0x400) := by
  unfold pairNumber
  omega

theorem toNat_ofNat {n : Nat} (h : n < 0xD800) : (Char.ofNat n).toNat = n := by
  have hvalid : n.isValidChar := .inl h
  unfold Char.ofNat
  rw [dif_pos hvalid]
  rfl

/-- The ways in which a code point is written. -/
inductive Escape (c : CodePoint) : List Char → Prop where
  /-- By a letter that stands for it. -/
  | letter {e x : Char} (he : e ≠ 'u') (hx : letterEscape? e = some x) (hc : c.val = x.toNat) :
    Escape c ['\\', e]
  /-- As itself. -/
  | plain {d : Char} (hd : d.toNat = c.val) (hspace : 0x20 ≤ d.toNat) (hquote : d ≠ '\x22')
      (hslash : d ≠ '\\') (hend : d.toNat < 0x7f) : Escape c [d]
  /-- By its number. -/
  | unit (h : c.val < 0x10000) : Escape c (unitEscape c.val)
  /-- By the numbers of a pair. -/
  | pair {high low : Nat} (hhigh : 0xD800 ≤ high ∧ high < 0xDC00)
      (hlow : 0xDC00 ≤ low ∧ low < 0xE000) (hc : c.val = pairNumber high low) :
    Escape c (unitEscape high ++ unitEscape low)

theorem escape_escapedPoint (c : CodePoint) : Escape c (escapedPoint c) := by
  unfold escapedPoint
  split_ifs with hquote hslash hline hreturn htab hback hfeed hplain hunit
  · exact .letter (x := '\x22') (by decide) rfl hquote
  · exact .letter (x := '\\') (by decide) rfl hslash
  · exact .letter (x := '\n') (by decide) rfl hline
  · exact .letter (x := '\r') (by decide) rfl hreturn
  · exact .letter (x := '\t') (by decide) rfl htab
  · exact .letter (x := '\x08') (by decide) rfl hback
  · exact .letter (x := '\x0c') (by decide) rfl hfeed
  · rw [Bool.and_eq_true, decide_eq_true_eq, decide_eq_true_eq] at hplain
    have hnumber : (Char.ofNat c.val).toNat = c.val := toNat_ofNat (by omega)
    have hne : ∀ d : Char, c.val ≠ d.toNat → Char.ofNat c.val ≠ d := by
      rintro d hd rfl
      exact hd hnumber.symm
    exact .plain hnumber (by omega) (hne _ hquote) (hne _ hslash) (by omega)
  · exact .unit hunit
  · have hlt := c.val_lt
    exact .pair (by omega) (by omega) (pairNumber_eq (by omega))

/-- The reader takes back one code point, unless it is a high surrogate that the next escape
completes. -/
theorem stringRest?_escapedPoint (fuel : Nat) (c : CodePoint) (cs : List Char)
    (hlone : c.IsHigh → lowEscape? cs = none) :
    stringRest? (fuel + 1) (escapedPoint c ++ cs)
      = (stringRest? fuel cs).map fun p => (c :: p.1, p.2) := by
  have h := escape_escapedPoint c
  generalize escapedPoint c = written at h
  cases h with
  | @letter e x he hx hc =>
    obtain rfl : CodePoint.char x = c := CodePoint.ext_val hc.symm
    exact stringRest?_letter fuel cs he hx
  | @plain d hd hspace hquote hslash _ =>
    obtain rfl : CodePoint.char d = c := CodePoint.ext_val hd
    exact stringRest?_plain fuel cs hquote hslash hspace
  | unit h => exact stringRest?_unit fuel cs h hlone
  | pair hhigh hlow hc =>
    rw [List.append_assoc]
    exact stringRest?_pair fuel cs hhigh hlow hc

theorem lowEscape?_cons {c : Char} (h : c ≠ '\\') (cs : List Char) :
    lowEscape? (c :: cs) = none := by
  unfold lowEscape?
  split
  · rename_i heq
    cases heq
    exact absurd rfl h
  · rfl

/-- No escape of a code point other than a low surrogate completes a pair. -/
theorem lowEscape?_escapedPoint {c : CodePoint} (hc : ¬ c.IsLow) (cs : List Char) :
    lowEscape? (escapedPoint c ++ cs) = none := by
  have h := escape_escapedPoint c
  generalize escapedPoint c = written at h
  cases h with
  | @letter e _ he _ _ =>
    show lowEscape? ('\\' :: e :: cs) = none
    unfold lowEscape?
    split
    · rename_i heq
      cases heq
      exact absurd rfl he
    · rfl
  | plain _ _ _ hslash _ => exact lowEscape?_cons hslash cs
  | unit h =>
    rw [lowEscape?_unit cs h, if_neg]
    rw [Bool.and_eq_true, decide_eq_true_eq, decide_eq_true_eq]
    exact hc
  | pair hhigh _ _ =>
    rw [List.append_assoc, lowEscape?_unit _ (by omega), if_neg]
    rw [Bool.and_eq_true, decide_eq_true_eq, decide_eq_true_eq]
    omega

/-! ## Texts -/

/-- A string reads back up to its closing quote. -/
theorem stringRest?_escaped {t : Text} (ht : t.Unpaired) (rest : List Char) {fuel : Nat}
    (hfuel : t.length < fuel) :
    stringRest? fuel (t.flatMap escapedPoint ++ '\x22' :: rest) = some (t, rest) := by
  induction t generalizing fuel with
  | nil =>
    obtain ⟨fuel, rfl⟩ : ∃ k, fuel = k + 1 := ⟨fuel - 1, by omega⟩
    rfl
  | cons c t ih =>
    rw [List.length_cons] at hfuel
    obtain ⟨fuel, rfl⟩ : ∃ k, fuel = k + 1 := ⟨fuel - 1, by omega⟩
    have hlone : c.IsHigh → lowEscape? (t.flatMap escapedPoint ++ '\x22' :: rest) = none := by
      intro hhigh
      cases t with
      | nil => rfl
      | cons d t =>
        rw [List.flatMap_cons, List.append_assoc]
        apply lowEscape?_escapedPoint
        exact fun hlow => (List.isChain_cons_cons.mp ht).1 ⟨hhigh, hlow⟩
    rw [List.flatMap_cons, List.append_assoc, stringRest?_escapedPoint fuel c _ hlone,
      ih ht.tail (by omega)]
    rfl

theorem escapedPoint_length_pos (c : CodePoint) : 0 < (escapedPoint c).length := by
  have h := escape_escapedPoint c
  generalize escapedPoint c = written at h
  cases h <;> exact Nat.succ_pos _

theorem length_le_escaped (t : Text) : t.length ≤ (t.flatMap escapedPoint).length := by
  induction t with
  | nil => exact Nat.le_refl 0
  | cons c t ih =>
    have hpos := escapedPoint_length_pos c
    rw [List.flatMap_cons, List.length_append, List.length_cons]
    omega

theorem quotedText?_stringText {t : Text} (ht : t.Unpaired) (rest : List Char) :
    quotedText? (stringText t ++ rest) = some (t, rest) := by
  have hlength := length_le_escaped t
  unfold stringText
  rw [List.cons_append, List.cons_append, List.append_assoc]
  unfold quotedText?
  apply stringRest?_escaped ht
  rw [List.length_append]
  omega

/-! ## Printable text -/

/-- A character from the space to the tilde. -/
def Printable (c : Char) : Prop := 0x20 ≤ c.toNat ∧ c.toNat ≤ 0x7e

instance : DecidablePred Printable := fun c =>
  inferInstanceAs (Decidable (0x20 ≤ c.toNat ∧ c.toNat ≤ 0x7e))

/-- Nothing but printable ASCII. -/
def AllPrintable (cs : List Char) : Prop := ∀ c ∈ cs, Printable c

instance : DecidablePred AllPrintable := fun cs => List.decidableBAll Printable cs

theorem AllPrintable.append {a b : List Char} (ha : AllPrintable a) (hb : AllPrintable b) :
    AllPrintable (a ++ b) :=
  List.forall_mem_append.mpr ⟨ha, hb⟩

theorem AllPrintable.cons {c : Char} {cs : List Char} (hc : Printable c) (hcs : AllPrintable cs) :
    AllPrintable (c :: cs) :=
  List.forall_mem_cons.mpr ⟨hc, hcs⟩

theorem hexDigits_printable (w n : Nat) : AllPrintable (hexDigits w n) := by
  have h : ∀ d < 16, Printable (hexDigit d) := by decide
  induction w generalizing n with
  | zero => exact fun c hc => absurd hc List.not_mem_nil
  | succ w ih =>
    rw [hexDigits, ← hexDigit_mod]
    refine (ih _).append ?_
    exact List.forall_mem_singleton.mpr (h _ (Nat.mod_lt _ (by decide)))

theorem unitEscape_printable (n : Nat) : AllPrintable (unitEscape n) :=
  .cons (by decide) (.cons (by decide) (hexDigits_printable 4 n))

theorem letterEscape?_printable {e x : Char} (h : letterEscape? e = some x) : Printable e := by
  unfold letterEscape? at h
  split at h
  · decide
  · decide
  · decide
  · decide
  · decide
  · decide
  · decide
  · decide
  · cases h

theorem escapedPoint_printable (c : CodePoint) : AllPrintable (escapedPoint c) := by
  have h := escape_escapedPoint c
  generalize escapedPoint c = written at h
  cases h with
  | letter _ hx _ =>
    exact .cons (by decide) (List.forall_mem_singleton.mpr (letterEscape?_printable hx))
  | plain _ hspace _ _ hend =>
    exact List.forall_mem_singleton.mpr ⟨hspace, by omega⟩
  | unit _ => exact unitEscape_printable _
  | pair _ _ _ => exact (unitEscape_printable _).append (unitEscape_printable _)

theorem stringText_printable (t : Text) : AllPrintable (stringText t) := by
  have hpoints : AllPrintable (t.flatMap escapedPoint) := by
    intro c hc
    obtain ⟨p, -, hmem⟩ := List.mem_flatMap.mp hc
    exact escapedPoint_printable p c hmem
  exact .cons (by decide) (hpoints.append (List.forall_mem_singleton.mpr (by decide)))

end Json

end ManifestTree
