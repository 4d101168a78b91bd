import ManifestTree.Json.Printer
import ManifestTree.Json.Reader
import ManifestTree.Proofs.ShortestDecimal

/-!
# Numbers in JSON read back

An integer is written in decimal digits, a double by the layout of its shortest decimal.  The
reader puts whole part, fraction and exponent together again: the digits may be grouped in another
way than they were, but the value of the decimal is the same, so the number is.
-/

namespace ManifestTree.Json

open Text

/-! ## Digits -/

/-- Nothing but ASCII digits. -/
def AllDigits (cs : List Char) : Prop := ∀ c ∈ cs, isAsciiDigit c = true

theorem AllDigits.append {a b : List Char} (ha : AllDigits a) (hb : AllDigits b) :
    AllDigits (a ++ b) :=
  List.forall_mem_append.mpr ⟨ha, hb⟩

theorem toDigits_allDigits (n : ℕ) : AllDigits (Nat.toDigits 10 n) := by
  intro c hc
  have h : c.isDigit = true := Nat.isDigit_of_mem_toDigits (by norm_num) le_rfl hc
  unfold Char.isDigit at h
  unfold isAsciiDigit
  rw [Bool.and_eq_true, decide_eq_true_eq, decide_eq_true_eq] at h ⊢
  exact h

theorem zeros_allDigits (n : ℕ) : AllDigits (Decimal.zeros n) := by
  intro c hc
  rw [List.eq_of_mem_replicate hc]
  rfl

theorem isAsciiDigit_iff {c : CodePoint} : isAsciiDigit c = true ↔ 48 ≤ c.val ∧ c.val ≤ 57 := by
  unfold isAsciiDigit
  rw [Bool.and_eq_true, decide_eq_true_eq, decide_eq_true_eq]
  exact Iff.rfl

theorem decimalValue?_digit {c : CodePoint} (h : isAsciiDigit c = true) :
    decimalValue? c = some (c.val - 48) := by
  have hrange := isAsciiDigit_iff.mp h
  unfold decimalValue?
  rw [if_pos (by omega), if_pos h]

theorem foldlM_digits {cs : List Char} (h : AllDigits cs) (n : ℕ) :
    (ofChars cs).foldlM (fun n c => (decimalValue? c).bind fun v =>
      if v < 10 then some (n * 10 + v) else none) n = some (Nat.ofDigitChars 10 cs n) := by
  induction cs generalizing n with
  | nil => rw [Nat.ofDigitChars_nil]; rfl
  | cons c cs ih =>
    have hc := h c List.mem_cons_self
    have hrange := isAsciiDigit_iff.mp hc
    rw [ofChars_cons, List.foldlM_cons, decimalValue?_digit hc, Nat.ofDigitChars_cons,
      Option.bind_eq_bind,
      Option.bind_some, if_pos (by omega), Option.bind_some, Nat.mul_comm]
    exact ih (fun x hx => h x (List.mem_cons_of_mem c hx)) _

theorem inBase?_digits {cs : List Char} (h : AllDigits cs) :
    Literal.inBase? 10 (ofChars cs) = some (Nat.ofDigitChars 10 cs 0) :=
  foldlM_digits h 0

/-! ## What follows a value -/

/-- What follows a value in compact text: nothing, a comma or a closing bracket. -/
def Ends (rest : List Char) : Prop := ∀ c ∈ rest.head?, c = ',' ∨ c = ']' ∨ c = '\x7d'

theorem ends_nil : Ends [] := fun c hc => by cases hc

/-- The text does not go on with a digit of any script. -/
def NoDigit (rest : List Char) : Prop := ∀ c ∈ rest.head?, isDecimal c = false

theorem isDecimal_of_isAsciiDigit {c : CodePoint} (h : isAsciiDigit c = true) :
    isDecimal c = true := by
  unfold isDecimal
  rw [decimalValue?_digit h]
  rfl

theorem Ends.noDigit {rest : List Char} (h : Ends rest) : NoDigit rest := by
  intro c hc
  rcases h c hc with rfl | rfl | rfl <;> rfl

theorem noDigit_cons {c : Char} (cs : List Char) (h : isDecimal c = false) : NoDigit (c :: cs) := by
  intro d hd
  cases hd
  exact h

theorem takeWhile_digits {p : CodePoint → Bool} (hp : ∀ c, isAsciiDigit c = true → p c = true)
    (hp' : ∀ c, isDecimal c = false → p c = false) {cs rest : List Char} (h : AllDigits cs)
    (hrest : NoDigit rest) : (cs ++ rest).takeWhile (fun c : Char => p c) = cs := by
  rw [List.takeWhile_append_of_pos fun (c : Char) hc => hp c (h c hc)]
  have hnone : rest.takeWhile (fun c : Char => p c) = [] := by
    cases rest with
    | nil => rfl
    | cons c rest =>
      rw [List.takeWhile_cons_of_neg]
      rw [hp' c (hrest c rfl)]
      exact Bool.false_ne_true
  rw [hnone, List.append_nil]

theorem leadingDigits_append {cs rest : List Char} (h : AllDigits cs) (hrest : NoDigit rest) :
    leadingDigits (cs ++ rest) = cs := by
  apply takeWhile_digits (fun _ hc => hc) _ h hrest
  intro c hc
  rw [Bool.eq_false_iff]
  intro hdigit
  rw [isDecimal_of_isAsciiDigit hdigit] at hc
  cases hc

theorem digitRun_append {cs rest : List Char} (h : AllDigits cs) (hrest : NoDigit rest) :
    Literal.digitRun (ofChars (cs ++ rest)) =
      (Nat.ofDigitChars 10 cs 0, cs.length, ofChars rest) := by
  have htake : (ofChars (cs ++ rest)).takeWhile isDecimal = ofChars cs := by
    unfold ofChars
    rw [List.takeWhile_map]
    exact congrArg (List.map CodePoint.char) (takeWhile_digits (fun _ => isDecimal_of_isAsciiDigit)
      (fun _ hc => hc) h hrest)
  unfold Literal.digitRun
  rw [htake]
  dsimp only
  rw [inBase?_digits h, ofChars_append, List.drop_left, length_ofChars]
  rfl

/-! ## Whole parts -/

/-- The digits of a whole number, without zeros in front. -/
structure IsWhole (cs : List Char) : Prop where
  /-- Only digits. -/
  digits : AllDigits cs
  /-- At least one of them. -/
  nonempty : cs ≠ []
  /-- A zero stands alone. -/
  zero : cs.head? = some '0' → cs = ['0']

theorem head?_toDigits {n : ℕ} (h : 0 < n) : (Nat.toDigits 10 n).head? ≠ some '0' := by
  induction n using Nat.strongRecOn with
  | _ n ih =>
    by_cases hsmall : n < 10
    · rw [Nat.toDigits_of_lt_base hsmall, List.head?_cons]
      intro hzero
      have hnumber := congrArg Char.toNat (Option.some.inj hzero)
      rw [Nat.toNat_digitChar_of_lt_ten hsmall] at hnumber
      exact h.ne' (Nat.add_left_cancel hnumber)
    · rw [Nat.toDigits_of_base_le (by norm_num) (by omega), List.head?_append]
      have hrec := ih (n / 10) (by omega) (by omega)
      have hsome : (Nat.toDigits 10 (n / 10)).head?.isSome := by
        rw [List.isSome_head?]
        exact Nat.toDigits_ne_nil
      obtain ⟨c, hc⟩ := Option.isSome_iff_exists.mp hsome
      rw [hc] at hrec ⊢
      exact hrec

theorem toDigits_isWhole (n : ℕ) : IsWhole (Nat.toDigits 10 n) := by
  refine ⟨toDigits_allDigits n, Nat.toDigits_ne_nil, ?_⟩
  intro hhead
  by_cases hn : 0 < n
  · exact absurd hhead (head?_toDigits hn)
  · obtain rfl : n = 0 := by omega
    rfl

theorem wholePart?_append {whole rest : List Char} (h : IsWhole whole) (hrest : NoDigit rest) :
    wholePart? (whole ++ rest) = some whole := by
  unfold wholePart?
  rw [leadingDigits_append h.digits hrest]
  cases whole with
  | nil => exact absurd rfl h.nonempty
  | cons c cs =>
    by_cases hc : c = '0'
    · subst hc
      rw [h.zero rfl]
      rfl
    · simp [hc]

/-! ## Numbers without their sign -/

/-- The fraction of a number in its text, if there is one. -/
def pointText (fraction : List Char) : List Char :=
  if fraction = [] then [] else '.' :: fraction

theorem unsigned?_whole (negative : Bool) {whole rest : List Char} (hwhole : IsWhole whole)
    (hrest : Ends rest) :
    unsigned? negative (whole ++ rest) = some (.integer (if negative then
      -(Nat.ofDigitChars 10 whole 0 : ℕ) else (Nat.ofDigitChars 10 whole 0 : ℕ)), rest) := by
  unfold unsigned?
  rw [wholePart?_append hwhole hrest.noDigit]
  simp only [Option.bind_eq_bind, Option.bind_some, List.drop_left, inBase?_digits hwhole.digits]
  cases rest with
  | nil => rfl
  | cons c rest =>
    rcases hrest c rfl with rfl | rfl | rfl <;> rfl

theorem unsigned?_fraction (negative : Bool) {whole fraction rest : List Char}
    (hwhole : IsWhole whole) (hfraction : AllDigits fraction) (hsome : fraction ≠ [])
    (hrest : Ends rest) :
    unsigned? negative (whole ++ '.' :: fraction ++ rest) = some (.real (Binary64.ofDecimal negative
      (Nat.ofDigitChars 10 (whole ++ fraction) 0) (0 - (fraction.length : ℤ))), rest) := by
  unfold unsigned?
  rw [List.append_assoc, List.cons_append, wholePart?_append hwhole (noDigit_cons _ rfl)]
  simp only [Option.bind_eq_bind, Option.bind_some, List.drop_left,
    leadingDigits_append hfraction hrest.noDigit, List.isEmpty_iff, hsome, ↓reduceIte,
    List.drop_succ_cons, inBase?_digits (hwhole.digits.append hfraction)]
  cases rest with
  | nil => simp [hsome]
  | cons c rest =>
    rcases hrest c rfl with rfl | rfl | rfl <;> simp [hsome]

/-- The text of an exponent: a letter, a sign and digits. -/
def markedText (negative : Bool) (digits : List Char) : List Char :=
  'e' :: (if negative then '-' else '+') :: digits

theorem exponent_markedText (negative : Bool) {digits rest : List Char} (h : AllDigits digits)
    (hrest : Ends rest) :
    Literal.exponent (ofChars (markedText negative digits ++ rest))
      = if negative then -(Nat.ofDigitChars 10 digits 0 : ℤ) else Nat.ofDigitChars 10 digits 0 := by
  have hrun := digitRun_append h hrest.noDigit
  cases negative
  · show ((Literal.digitRun (ofChars (digits ++ rest))).1 : ℤ) = _
    rw [hrun]
    rfl
  · show -((Literal.digitRun (ofChars (digits ++ rest))).1 : ℤ) = _
    rw [hrun]
    rfl

theorem unsigned?_exponent (negative down : Bool) {whole fraction digits rest : List Char}
    (hwhole : IsWhole whole) (hfraction : AllDigits fraction) (hdigits : AllDigits digits)
    (hsome : digits ≠ []) (hrest : Ends rest) :
    unsigned? negative (whole ++ pointText fraction ++ markedText down digits ++ rest)
      = some (.real (Binary64.ofDecimal negative (Nat.ofDigitChars 10 (whole ++ fraction) 0)
          (Literal.exponent (ofChars (markedText down digits ++ rest)) - (fraction.length : ℤ))),
              rest) := by
  obtain ⟨sign, hsign, hmark⟩ : ∃ sign : Char, (∀ cs, Lexeme.signLength (.char sign :: cs) = 1) ∧
      markedText down digits = 'e' :: sign :: digits := by
    cases down
    · exact ⟨'+', fun _ => rfl, rfl⟩
    · exact ⟨'-', fun _ => rfl, rfl⟩
  have hnodigit : NoDigit (pointText fraction ++ (markedText down digits ++ rest)) := by
    unfold pointText
    split_ifs
    · rw [hmark]
      exact noDigit_cons _ rfl
    · exact noDigit_cons _ rfl
  unfold unsigned?
  rw [List.append_assoc, List.append_assoc, wholePart?_append hwhole hnodigit]
  have hlead := leadingDigits_append hdigits hrest.noDigit
  have hlength : (1 : ℕ) + 1 + digits.length = digits.length + 2 := by omega
  by_cases hfree : fraction = []
  · subst hfree
    have hnumber := inBase?_digits hwhole.digits
    simp [pointText, hmark, hsign, hlead, hsome, hlength, hnumber]
  · have hpoint : leadingDigits (fraction ++ (markedText down digits ++ rest)) = fraction :=
      leadingDigits_append hfraction (by rw [hmark]; exact noDigit_cons _ rfl)
    rw [hmark, List.cons_append, List.cons_append] at hpoint
    have hnumber := inBase?_digits (hwhole.digits.append hfraction)
    rw [ofChars_append] at hnumber
    simp [pointText, hfree, hmark, hsign, hpoint, hlead, hsome, hlength, hnumber]

/-! ## Doubles -/

theorem IsWhole.take {cs : List Char} (h : IsWhole cs) {k : ℕ} (hk : 0 < k) :
    IsWhole (cs.take k) := by
  refine ⟨fun c hc => h.digits c (List.mem_of_mem_take hc), ?_, ?_⟩
  · rw [ne_eq, List.take_eq_nil_iff]
    exact fun hnil => hnil.elim hk.ne' h.nonempty
  · intro hhead
    rw [List.head?_take, if_neg hk.ne'] at hhead
    rw [h.zero hhead]
    exact List.take_of_length_le hk

theorem IsWhole.append {a b : List Char} (ha : IsWhole a) (hhead : a.head? ≠ some '0')
    (hb : AllDigits b) : IsWhole (a ++ b) := by
  refine ⟨ha.digits.append hb, List.append_ne_nil_of_left_ne_nil ha.nonempty b, ?_⟩
  intro hzero
  rw [List.head?_append_of_ne_nil _ ha.nonempty] at hzero
  exact absurd hzero hhead

theorem ofDigitChars_zeros (k : ℕ) (ds : List Char) :
    Nat.ofDigitChars 10 (Decimal.zeros k ++ ds) 0 = Nat.ofDigitChars 10 ds 0 := by
  rw [Nat.ofDigitChars_append]
  unfold Decimal.zeros
  rw [Nat.ofDigitChars_replicate_zero, Nat.mul_zero]

/-- An exponent is written with its sign and reads back. -/
theorem exponent_exponentText (width : ℕ) (e : ℤ) {rest : List Char} (hrest : Ends rest) :
    ∃ down digits, AllDigits digits ∧ digits ≠ [] ∧
      Decimal.exponentText width e = markedText down digits ∧
      Literal.exponent (ofChars (markedText down digits ++ rest)) = e := by
  have hdigits := (zeros_allDigits (width - (Nat.toDigits 10 e.natAbs).length)).append
    (toDigits_allDigits e.natAbs)
  refine ⟨decide (e < 0), _, hdigits, ?_, ?_, ?_⟩
  · exact List.append_ne_nil_of_right_ne_nil _ Nat.toDigits_ne_nil
  · unfold Decimal.exponentText markedText
    simp only [decide_eq_true_eq, List.cons_append]
  · rw [exponent_markedText _ hdigits hrest, ofDigitChars_zeros, Nat.ofDigitChars_ten_toDigits]
    simp only [decide_eq_true_eq]
    split_ifs <;> omega

/-- The number that whole part, fraction and exponent stand for. -/
def partsValue (whole fraction : List Char) (e : ℤ) : ℚ :=
  (Nat.ofDigitChars 10 (whole ++ fraction) 0 : ℕ) * 10 ^ (e - (fraction.length : ℤ))

/-- Digits divided at a point. -/
theorem partsValue_split (ds : List Char) (k : ℕ) (e : ℤ) :
    partsValue (ds.take k) (ds.drop k) e
      = (Nat.ofDigitChars 10 ds 0 : ℕ) * 10 ^ (e - ((ds.length - k : ℕ) : ℤ)) := by
  unfold partsValue
  rw [List.take_append_drop, List.length_drop]

/-- Digits behind the zeros after the point. -/
theorem partsValue_zeros (ds : List Char) (k : ℕ) :
    partsValue ['0'] (Decimal.zeros k ++ ds) 0
      = (Nat.ofDigitChars 10 ds 0 : ℕ) * 10 ^ (-((k : ℤ) + ds.length)) := by
  have hnumber : Nat.ofDigitChars 10 (['0'] ++ (Decimal.zeros k ++ ds)) 0
      = Nat.ofDigitChars 10 ds 0 := by
    show Nat.ofDigitChars 10 (Decimal.zeros 1 ++ (Decimal.zeros k ++ ds)) 0 = _
    rw [ofDigitChars_zeros, ofDigitChars_zeros]
  have hlength : (Decimal.zeros k ++ ds).length = k + ds.length := by
    rw [List.length_append]
    unfold Decimal.zeros
    rw [List.length_replicate]
  unfold partsValue
  rw [hnumber, hlength, Nat.cast_add, zero_sub]

/-- Digits with zeros up to the point and one zero after it. -/
theorem partsValue_padded (ds : List Char) (k : ℕ) :
    partsValue (ds ++ Decimal.zeros k) ['0'] 0
      = (Nat.ofDigitChars 10 ds 0 : ℕ) * 10 ^ (k : ℤ) := by
  have hnumber : Nat.ofDigitChars 10 (ds ++ Decimal.zeros k ++ ['0']) 0
      = 10 ^ (k + 1) * Nat.ofDigitChars 10 ds 0 := by
    have hzeros : Decimal.zeros k ++ ['0'] = List.replicate (k + 1) '0' :=
      List.replicate_succ'.symm
    rw [List.append_assoc, hzeros, Nat.ofDigitChars_append, Nat.ofDigitChars_replicate_zero]
  unfold partsValue
  rw [hnumber, zpow_natCast]
  push_cast
  rw [pow_succ, List.length_singleton, show (0 : ℤ) - (1 : ℕ) = -1 by norm_num, zpow_neg_one]
  ring

/-- The text of a decimal has a fraction, an exponent or both, and its parts have the value of the
decimal. -/
theorem layout_parts (l : Decimal.Layout) {d : Decimal} (hd : 0 < d.digits) :
    ∃ whole fraction, IsWhole whole ∧ AllDigits fraction ∧
      ((fraction ≠ [] ∧ d.layout l = whole ++ '.' :: fraction ∧
          partsValue whole fraction 0 = d.value) ∨
        ∃ e, d.layout l = whole ++ pointText fraction ++ Decimal.exponentText l.exponentWidth e ∧
          partsValue whole fraction e = d.value) := by
  have hpos := Decimal.strip_digits_pos 400 hd
  rw [← Decimal.strip_value 400 d]
  unfold Decimal.layout Decimal.value
  dsimp only
  generalize Decimal.strip 400 d = s at *
  have hwhole := toDigits_isWhole s.digits
  have hhead := head?_toDigits hpos
  have hnumber : Nat.ofDigitChars 10 (Nat.toDigits 10 s.digits) 0 = s.digits :=
    Nat.ofDigitChars_ten_toDigits
  have hlength : 0 < (Nat.toDigits 10 s.digits).length := Nat.length_toDigits_pos
  generalize Nat.toDigits 10 s.digits = ds at *
  have hdrop : ∀ k, AllDigits (ds.drop k) := fun k c hc => hwhole.digits c (List.mem_of_mem_drop hc)
  obtain ⟨first, hfirst⟩ : ∃ first : ℤ, s.exponent + ds.length - 1 = first := ⟨_, rfl⟩
  rw [hfirst]
  by_cases hfar : first < l.leastPower ∨ l.endPower ≤ first
  · refine ⟨ds.take 1, ds.drop 1, hwhole.take one_pos, hdrop 1, .inr ⟨first, ?_, ?_⟩⟩
    · rw [if_pos (by simpa using hfar)]
      unfold pointText
      have hiff : ds.length = 1 ↔ ds.drop 1 = [] := by
        rw [List.drop_eq_nil_iff]
        omega
      simp only [hiff]
    · rw [partsValue_split, hnumber]
      congr 2
      omega
  rw [if_neg (by simpa using hfar)]
  by_cases hbelow : first < 0
  · refine ⟨['0'], Decimal.zeros (-first - 1).toNat ++ ds, toDigits_isWhole 0,
      (zeros_allDigits _).append hwhole.digits, .inl ⟨?_, ?_, ?_⟩⟩
    · exact List.append_ne_nil_of_right_ne_nil _ hwhole.nonempty
    · rw [if_pos hbelow]
      rfl
    · rw [partsValue_zeros, hnumber]
      congr 2
      omega
  rw [if_neg hbelow]
  by_cases hshort : ds.length ≤ first.toNat + 1
  · refine ⟨ds ++ Decimal.zeros (first.toNat + 1 - ds.length), ['0'],
      hwhole.append hhead (zeros_allDigits _), zeros_allDigits 1, .inl ⟨?_, ?_, ?_⟩⟩
    · exact List.cons_ne_nil _ _
    · rw [if_pos hshort]
    · rw [partsValue_padded, hnumber]
      congr 2
      omega
  · refine ⟨ds.take (first.toNat + 1), ds.drop (first.toNat + 1), hwhole.take (by omega), hdrop _,
      .inl ⟨?_, ?_, ?_⟩⟩
    · rw [ne_eq, List.drop_eq_nil_iff]
      exact hshort
    · rw [if_neg hshort]
    · rw [partsValue_split, hnumber]
      congr 2
      omega

/-- A decimal in any layout reads back as the number of its value. -/
theorem unsigned?_layout (negative : Bool) (l : Decimal.Layout) {d : Decimal} (hd : 0 < d.digits)
    {rest : List Char} (hrest : Ends rest) :
    unsigned? negative (d.layout l ++ rest)
      = some (.real (Binary64.ofDecimal negative d.digits d.exponent), rest) := by
  obtain ⟨whole, fraction, hwhole, hfraction, ⟨hsome, htext, hvalue⟩ | ⟨e, htext, hvalue⟩⟩ :=
    layout_parts l hd
  · rw [htext, unsigned?_fraction negative hwhole hfraction hsome hrest,
      Binary64.ofDecimal_congr negative hvalue]
  · obtain ⟨down, digits, hdigits, hsome, hmarked, hexponent⟩ :=
      exponent_exponentText l.exponentWidth e hrest
    rw [htext, hmarked, unsigned?_exponent negative down hwhole hfraction hdigits hsome hrest,
      hexponent, Binary64.ofDecimal_congr negative hvalue]

/-! ## Signed numbers -/

/-- The text of a number without its sign starts with a digit. -/
theorem IsWhole.head {whole : List Char} (h : IsWhole whole) :
    ∃ c cs, whole = c :: cs ∧ isAsciiDigit c = true := by
  cases whole with
  | nil => exact absurd rfl h.nonempty
  | cons c cs => exact ⟨c, cs, rfl, h.digits c List.mem_cons_self⟩

theorem layout_head (l : Decimal.Layout) {d : Decimal} (hd : 0 < d.digits) :
    ∃ c cs, d.layout l = c :: cs ∧ isAsciiDigit c = true := by
  obtain ⟨whole, fraction, hwhole, -, h⟩ := layout_parts l hd
  obtain ⟨c, cs, rfl, hc⟩ := hwhole.head
  obtain ⟨-, htext, -⟩ | ⟨e, htext, -⟩ := h
  · exact ⟨c, _, htext, hc⟩
  · exact ⟨c, _, htext, hc⟩

theorem expectWord?_append (word : String) (rest : List Char) :
    expectWord? word (word.toList ++ rest) = some rest := by
  unfold expectWord?
  rw [if_pos (List.isPrefixOf_iff_prefix.mpr (List.prefix_append _ _)), ← String.length_toList,
    List.drop_left]

theorem expectWord?_cons {word : String} {w c : Char} {ws cs : List Char}
    (hword : word.toList = w :: ws) (h : w ≠ c) : expectWord? word (c :: cs) = none := by
  unfold expectWord?
  rw [hword]
  refine if_neg ?_
  rw [List.isPrefixOf_cons_cons, beq_eq_false_iff_ne.mpr h]
  exact Bool.false_ne_true

/-- No word of the format starts with a digit or a sign. -/
theorem scalar?_number {c : Char} (cs : List Char) (h : isAsciiDigit c = true ∨ c = '-') :
    scalar? (c :: cs) = number? (c :: cs) := by
  have hletter : ∀ w : Char, isAsciiDigit w = false → w ≠ '-' → w ≠ c := by
    rintro w hw hsign rfl
    rcases h with h | h
    · rw [hw] at h
      cases h
    · exact hsign h
  have hnone : ∀ (word : String) (w : Char) ws, word.toList = w :: ws → isAsciiDigit w = false →
      w ≠ '-' →
      expectWord? word (c :: cs) = none := fun _ w _ hword hw hsign =>
    expectWord?_cons hword (hletter w hw hsign)
  unfold scalar?
  rw [hnone "null" 'n' _ rfl rfl (by decide), hnone "true" 't' _ rfl rfl (by decide),
    hnone "false" 'f' _ rfl rfl (by decide), hnone "NaN" 'N' _ rfl rfl (by decide),
    hnone "Infinity" 'I' _ rfl rfl (by decide)]

theorem number?_digit {c : Char} (cs : List Char) (h : isAsciiDigit c = true) :
    number? (c :: cs) = unsigned? false (c :: cs) := by
  have hc : c ≠ '-' := by
    rintro rfl
    cases h
  unfold number?
  split
  · rename_i heq
    cases heq
    exact absurd rfl hc
  · rfl

theorem number?_negative {c : Char} (cs : List Char) (h : isAsciiDigit c = true) :
    number? ('-' :: c :: cs) = unsigned? true (c :: cs) := by
  have hc : 'I' ≠ c := by
    rintro rfl
    cases h
  have hnone : expectWord? "Infinity" (c :: cs) = none := expectWord?_cons rfl hc
  unfold number?
  split
  · rename_i heq
    cases heq
    rw [hnone]
  · rename_i hother
    exact absurd rfl (hother _)

theorem scalar?_signed (negative : Bool) {text : List Char}
    (h : ∃ c cs, text = c :: cs ∧ isAsciiDigit c = true) :
    scalar? ((if negative then ['-'] else []) ++ text) = unsigned? negative text := by
  obtain ⟨c, cs, rfl, hc⟩ := h
  cases negative
  · show scalar? (c :: cs) = _
    rw [scalar?_number cs (.inl hc), number?_digit cs hc]
  · show scalar? ('-' :: c :: cs) = _
    rw [scalar?_number _ (.inr rfl), number?_negative cs hc]

theorem scalar?_integerText (i : ℤ) {rest : List Char} (hrest : Ends rest) :
    scalar? (integerText i ++ rest) = some (.integer i, rest) := by
  have hwhole := toDigits_isWhole i.natAbs
  have hhead : ∃ c cs, Nat.toDigits 10 i.natAbs ++ rest = c :: cs ∧ isAsciiDigit c = true := by
    obtain ⟨c, cs, htext, hc⟩ := hwhole.head
    rw [htext]
    exact ⟨c, cs ++ rest, rfl, hc⟩
  unfold integerText
  rw [List.append_assoc, show (if i < 0 then ['-'] else []) = if decide (i < 0) then ['-'] else []
    by simp only [decide_eq_true_eq], scalar?_signed _ hhead, unsigned?_whole _ hwhole hrest,
    Nat.ofDigitChars_ten_toDigits]
  simp only [decide_eq_true_eq]
  congr 3
  split_ifs <;> omega

theorem ofDecimal_sign {digits index : ℕ} {exponent : ℤ} (hdigits : 0 < digits)
    (h : Binary64.ofDecimal false digits exponent = .finite false index) (negative : Bool) :
    Binary64.ofDecimal negative digits exponent = .finite negative index := by
  rw [Binary64.ofDecimal_eq hdigits] at h ⊢
  unfold Binary64.ofFraction at h ⊢
  dsimp only at h ⊢
  split_ifs at h ⊢ with hlimit
  cases h
  rfl

theorem scalar?_infinity (rest : List Char) :
    scalar? ("Infinity".toList ++ rest) = some (.real (.infinite false), rest) := by
  have hnone : ∀ (word : String) (w : Char) ws, word.toList = w :: ws → w ≠ 'I' →
      expectWord? word ("Infinity".toList ++ rest) = none := fun _ _ _ hword hw =>
    expectWord?_cons hword hw
  unfold scalar?
  rw [hnone "null" 'n' _ rfl (by decide), hnone "true" 't' _ rfl (by decide),
    hnone "false" 'f' _ rfl (by decide), hnone "NaN" 'N' _ rfl (by decide), expectWord?_append]

theorem scalar?_negativeInfinity (rest : List Char) :
    scalar? ('-' :: ("Infinity".toList ++ rest)) = some (.real (.infinite true), rest) := by
  have hsome := expectWord?_append "Infinity" rest
  rw [scalar?_number _ (.inr rfl)]
  unfold number?
  split
  · rename_i heq
    cases heq
    rw [hsome]
  · rename_i hother
    exact absurd rfl (hother _)

theorem scalar?_zero (negative : Bool) {rest : List Char} (hrest : Ends rest) :
    scalar? ((if negative then ['-'] else []) ++ ('0' :: '.' :: '0' :: rest))
      = some (.real (.finite negative 0), rest) := by
  have hunsigned := unsigned?_fraction negative (toDigits_isWhole 0) (zeros_allDigits 1)
    (List.cons_ne_nil _ _) hrest
  rw [scalar?_signed negative ⟨'0', _, rfl, rfl⟩]
  exact hunsigned

theorem scalar?_shortest (negative : Bool) {index : ℕ} (hpos : 0 < index)
    (hindex : index < Binary64.indexLimit) {rest : List Char} (hrest : Ends rest) :
    scalar? ((if negative then ['-'] else []) ++
        ((Decimal.shortest index).layout realLayout ++ rest))
      = some (.real (.finite negative index), rest) := by
  obtain ⟨hdigits, hreads⟩ := Decimal.shortest_reads hpos hindex
  have hhead : ∃ c cs, (Decimal.shortest index).layout realLayout ++ rest = c :: cs ∧
      isAsciiDigit c = true := by
    obtain ⟨c, cs, htext, hc⟩ := layout_head realLayout hdigits
    rw [htext]
    exact ⟨c, cs ++ rest, rfl, hc⟩
  rw [scalar?_signed negative hhead, unsigned?_layout negative realLayout hdigits hrest]
  unfold Decimal.toBinary64 at hreads
  rw [ofDecimal_sign hdigits hreads]

/-- A double that is a number reads back. -/
theorem scalar?_realText {r : Binary64} (hr : r.IsNumber) {rest : List Char} (hrest : Ends rest) :
    scalar? (realText r ++ rest) = some (.real r, rest) := by
  cases r with
  | finite negative index =>
    unfold realText
    rw [List.append_assoc]
    by_cases hzero : index = 0
    · rw [if_pos hzero, hzero]
      exact scalar?_zero negative hrest
    · rw [if_neg hzero]
      exact scalar?_shortest negative (Nat.pos_of_ne_zero hzero) hr hrest
  | infinite negative =>
    unfold realText
    rw [List.append_assoc]
    cases negative
    · exact scalar?_infinity rest
    · exact scalar?_negativeInfinity rest
  | nan => exact hr.elim

end ManifestTree.Json
