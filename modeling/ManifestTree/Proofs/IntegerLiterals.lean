import ManifestTree.Proofs.ParseFailures
import ManifestTree.Proofs.ToldLeaves
import Mathlib.Data.Nat.Digits.Defs

/-!
# Integer literals have their positional values

The scanner decides which literals are integers, and later the value of a literal is read from its
text alone.  On ASCII texts the two agree: every integer that the scanner finds has digits of its
base only, and the value that these digits have by their places.  Nothing but integers is ever read
as one.
-/

namespace ManifestTree

open Text

namespace Literal

/-! ## Positional values -/

/-- The base that an integer is written in: sixteen after `0x`, eight after another leading zero, and
ten otherwise. -/
def base (text : Text) : Nat :=
  if text.take 2 = [.char '0', .char 'x'] ∨ text.take 2 = [.char '0', .char 'X'] then 16
  else if 1 < text.length ∧ text.head? = some (.char '0') then 8
  else 10

/-- The digits of an integer, without `0x`. -/
def digits (text : Text) : Text := if base text = 16 then text.drop 2 else text

/-- The value of a digit, in either case. -/
def digitValue (c : CodePoint) : Nat :=
  c.toChar?.elim 16 fun d =>
    ['0', '1', '2', '3', '4', '5', '6', '7', '8', '9', 'a', 'b', 'c', 'd', 'e', 'f'].idxOf d.toLower

/-- The value of some digits by their places in a base, the last of which counts ones. -/
def positional (b : Nat) (ds : Text) : Nat := Nat.ofDigits b (ds.map digitValue).reverse

theorem positional_concat (b : Nat) (ds : Text) (c : CodePoint) :
    positional b (ds ++ [c]) = positional b ds * b + digitValue c := by
  rw [positional, List.map_append, List.reverse_append]
  show Nat.ofDigits b (digitValue c :: (ds.map digitValue).reverse) = _
  rw [Nat.ofDigits_cons, positional, Nat.mul_comm, Nat.add_comm]

/-! ## Digits of ASCII -/

theorem hexValue_eq {c : CodePoint} (hc : c.val < 128) (hd : isHexDigit c) :
    Lexeme.hexValue c = digitValue c ∧ digitValue c < 16 := by
  have hall : ∀ n < 128, ∀ d ∈ CodePoint.ofNat? n, isHexDigit d →
      Lexeme.hexValue d = digitValue d ∧ digitValue d < 16 := by decide
  exact hall c.val hc c (CodePoint.ofNat?_val c) hd

theorem decimalValue?_eq {c : CodePoint} (hc : c.val < 128) (hd : isDecimal c) :
    decimalValue? c = some (digitValue c) ∧ digitValue c < 10 ∧
      (8 ≤ digitValue c → c = '8' ∨ c = '9') := by
  have hall : ∀ n < 128, ∀ d ∈ CodePoint.ofNat? n, isDecimal d →
      decimalValue? d = some (digitValue d) ∧ digitValue d < 10 ∧
        (8 ≤ digitValue d → d = '8' ∨ d = '9') := by decide
  exact hall c.val hc c (CodePoint.ofNat?_val c) hd

theorem hexNumber_positional {ds : Text} (h : ∀ c ∈ ds, Lexeme.hexValue c = digitValue c) :
    Lexeme.hexNumber ds = positional 16 ds := by
  induction ds using List.reverseRecOn with
  | nil => rfl
  | append_singleton ds c ih =>
    obtain ⟨hds, hc⟩ := List.forall_mem_append.mp h
    have hstep : Lexeme.hexNumber (ds ++ [c]) = 16 * Lexeme.hexNumber ds + Lexeme.hexValue c := by
      rw [Lexeme.hexNumber, List.foldl_append]
      rfl
    rw [hstep, ih hds, hc c (List.mem_singleton_self c), positional_concat, Nat.mul_comm]

theorem inBase?_positional {b : Nat} {ds : Text}
    (h : ∀ c ∈ ds, decimalValue? c = some (digitValue c) ∧ digitValue c < b) :
    inBase? b ds = some (positional b ds) := by
  induction ds using List.reverseRecOn with
  | nil => rfl
  | append_singleton ds c ih =>
    obtain ⟨hds, hc⟩ := List.forall_mem_append.mp h
    obtain ⟨hvalue, hlt⟩ := hc c (List.mem_singleton_self c)
    have hprefix := ih hds
    rw [inBase?] at hprefix ⊢
    rw [List.foldlM_append, hprefix, positional_concat]
    simp [hvalue, hlt]

/-! ## Numerals of ASCII -/

theorem base_octal {x : CodePoint} (hx : ¬ (x = 'x' ∨ x = 'X')) (cs : Text) :
    base (.char '0' :: x :: cs) = 8 := by
  rw [not_or] at hx
  simp [base, hx.1, hx.2]

theorem base_decimal {text : Text} (h : ∀ x cs, text ≠ .char '0' :: x :: cs) : base text = 10 := by
  match text with
  | [] => rfl
  | [c] => simp [base]
  | c :: d :: cs =>
    have hc : c ≠ '0' := by
      rintro rfl
      exact h d cs rfl
    simp [base, hc]

/-- The digits of an integer that is not hexadecimal are all its characters. -/
theorem digits_eq {text : Text} (h : base text ≠ 16) : digits text = text := if_neg h

/-- A hexadecimal numeral has hexadecimal digits, and their value. -/
theorem hexadecimal_positional {x : CodePoint} {ds : Text} (hx : x = 'x' ∨ x = 'X')
    (hds : ∀ c ∈ ds, isHexDigit c) (hascii : ∀ c ∈ ds, c.val < 128) :
    (∀ c ∈ digits (.char '0' :: x :: ds), digitValue c < base (.char '0' :: x :: ds)) ∧
      integer? (.char '0' :: x :: ds) =
        some (positional (base (.char '0' :: x :: ds)) (digits (.char '0' :: x :: ds))) := by
  have hbase : base (.char '0' :: x :: ds) = 16 := by rcases hx with rfl | rfl <;> rfl
  have hdigits : digits (.char '0' :: x :: ds) = ds := if_pos hbase
  have hvalues := fun c hc => hexValue_eq (hascii c hc) (hds c hc)
  rw [hbase, hdigits]
  refine ⟨fun c hc => (hvalues c hc).2, ?_⟩
  rw [integer?, if_pos (by simpa using hx), hexNumber_positional fun c hc => (hvalues c hc).1]

/-- A numeral of decimal digits is octal after a leading zero, where it has no eight or nine. -/
theorem decimal_positional {text : Text} (hds : ∀ c ∈ text, isDecimal c)
    (hoctal : Lexeme.isIllegalOctal text = false) (hascii : ∀ c ∈ text, c.val < 128) :
    (∀ c ∈ digits text, digitValue c < base text) ∧
      integer? text = some (positional (base text) (digits text)) := by
  have hvalues := fun c hc => decimalValue?_eq (hascii c hc) (hds c hc)
  unfold integer?
  split
  · rename_i x rest
    have hx : ¬ (x = 'x' ∨ x = 'X') := by
      have hdecimal := hds x (List.mem_cons_of_mem _ List.mem_cons_self)
      rintro (rfl | rfl) <;> exact absurd hdecimal (by decide)
    have hlt : ∀ c ∈ .char '0' :: x :: rest, digitValue c < 8 := by
      refine List.forall_mem_cons.mpr ⟨by decide, fun c hc => ?_⟩
      by_contra hle
      have h89 := (hvalues c (List.mem_cons_of_mem _ hc)).2.2 (Nat.le_of_not_lt hle)
      have hany : Lexeme.isIllegalOctal (.char '0' :: x :: rest) = true :=
        List.any_eq_true.mpr ⟨c, hc, by simpa using h89⟩
      rw [hoctal] at hany
      cases hany
    have hbase := base_octal hx rest
    rw [digits_eq (by rw [hbase]; decide), hbase, if_neg (by simpa using hx)]
    refine ⟨hlt, ?_⟩
    -- The leading zero adds nothing.
    have hzero : inBase? 8 (x :: rest) = inBase? 8 (.char '0' :: x :: rest) := rfl
    rw [hzero, inBase?_positional fun c hc => ⟨(hvalues c hc).1, hlt c hc⟩]
  · rename_i hother
    have hbase : base text = 10 := base_decimal fun x cs => hother x cs
    have hlt := fun c hc => (hvalues c hc).2.1
    rw [digits_eq (by rw [hbase]; decide), hbase]
    exact ⟨hlt, inBase?_positional fun c hc => ⟨(hvalues c hc).1, hlt c hc⟩⟩

/-- An ASCII numeral has digits of its base only, and their positional value. -/
theorem Numeral.positional {text : Text} (h : Numeral text)
    (hascii : ∀ c ∈ text, c.val < 128) :
    (∀ c ∈ digits text, digitValue c < base text) ∧
      integer? text = some (positional (base text) (digits text)) := by
  cases h with
  | hexadecimal hx hds =>
    exact hexadecimal_positional hx hds fun c hc =>
      hascii c (List.mem_cons_of_mem _ (List.mem_cons_of_mem _ hc))
  | decimal _ hds hoctal => exact decimal_positional hds hoctal hascii

end Literal

/-! ## Sources -/

/-- The tokens of a source fail for want of a value only at an integer with a character outside of
ASCII. -/
theorem Node.parse_octalDigit {source text : Text} {tokens comments : List Token}
    (hscan : Token.scan source = .ok (tokens, comments))
    (h : Node.parse source = .error (.octalDigit text)) :
    ∃ t ∈ tokens.flatMap Token.deepTokens, t.kind = .integer ∧ t.text = text ∧
      ∃ c ∈ text, 128 ≤ c.val := by
  have htokens : Parse.tokens tokens = .error (.octalDigit text) := by
    obtain h | ⟨⟨_, _⟩, hok, hrest⟩ := bind_eq_error.mp h
    · rw [hscan] at h
      cases h
    · cases hscan.symm.trans hok
      obtain hrest | ⟨_, _, hrest⟩ := bind_eq_error.mp hrest
      · exact hrest
      · cases hrest
  have hnumbered : ∀ t ∈ tokens, t.Numbered fun cs =>
      ∃ u ∈ tokens.flatMap Token.deepTokens, u.kind = .integer ∧ u.text = cs :=
    fun t ht u hu hk => ⟨u, List.mem_flatMap.mpr ⟨t, ht, hu⟩, hk, rfl⟩
  obtain ⟨⟨t, ht, hk, rfl⟩, hnone⟩ := Parse.tokens_error_of_numbered hscan hnumbered htokens
  refine ⟨t, ht, hk, rfl, ?_⟩
  by_contra hascii
  have hnumeral := ((Token.scan_spelled hscan t ht).1 hk).1
  have hvalue := (hnumeral.positional fun c hc =>
    Nat.lt_of_not_le fun hle => hascii ⟨c, hc, hle⟩).2
  rw [hnone] at hvalue
  cases hvalue

/-- Every integer that the scanner finds in a source, at any depth, has digits of its base only if
it is ASCII text, and their positional value.  Nothing else is read as an integer: a float has no
value as one, every integer of a parsed tree is the value of an integer token at its place, a parse
fails for want of a value only at an integer token that is not ASCII, and where the scan fails the
parse fails with it. -/
theorem Node.parse_integers (source : Text) :
    (∀ f, Token.scan source = .error f →
      Node.parse source = .error f ∧ ∀ text, f ≠ .octalDigit text) ∧
    ∀ tokens comments, Token.scan source = .ok (tokens, comments) →
      (∀ t ∈ tokens.flatMap Token.deepTokens, t.kind = .integer →
        (∀ c ∈ t.text, c.val < 128) →
        (∀ c ∈ Literal.digits t.text, Literal.digitValue c < Literal.base t.text) ∧
        Literal.integer? t.text =
          some (Literal.positional (Literal.base t.text) (Literal.digits t.text))) ∧
      (∀ t ∈ tokens.flatMap Token.deepTokens, t.kind = .float →
        Literal.integer? t.text = none) ∧
      (∀ text, Node.parse source = .error (.octalDigit text) →
        ∃ t ∈ tokens.flatMap Token.deepTokens, t.kind = .integer ∧ t.text = text ∧
          ∃ c ∈ text, 128 ≤ c.val) ∧
      ∀ tree, Node.parse source = .ok tree → ∀ m ∈ tree.preorder, ∀ i, m.shape = .integer i →
        ∃ t ∈ tokens.flatMap Token.deepTokens, t.kind = .integer ∧ t.span = m.span ∧
          ∃ v : Nat, Literal.integer? t.text = some v ∧ i = v := by
  refine ⟨fun f hf => ⟨bind_eq_error.mpr (.inl hf), fun text heq => ?_⟩,
    fun tokens comments hscan => ⟨fun t ht hk hascii => ?_, fun t ht hk => ?_,
      fun text h => Node.parse_octalDigit hscan h, fun tree h m hm i hshape => ?_⟩⟩
  · have hscans := Token.scan_scans source
    rw [hf, heq] at hscans
    exact hscans
  · exact ((Token.scan_spelled hscan t ht).1 hk).1.positional hascii
  · have hspells := (Token.scan_spelled hscan t ht).2
    rw [hk] at hspells
    exact hspells
  · obtain ⟨tokens', comments', statements, hparsed⟩ := Node.parse_parsed h
    cases hscan.symm.trans hparsed.scan
    have hkind : m.kind = .integer := by rw [Node.kind, hshape]; rfl
    have htold := hparsed.toldBelow m hm (by rw [hkind]; rfl)
    cases htold with
    | token t ht htells =>
      obtain ⟨hk, v, hv, rfl⟩ := htells.integer hkind
      cases hshape
      exact ⟨t, Token.flatMap_deepTokens_subset (List.dropLast_subset tokens) ht, hk, rfl, v, hv,
        rfl⟩
    | fragment f _ _ hnode =>
      rw [hnode, Node.kind_ofName] at hkind
      cases hkind

/-- Integers in each base, one of them in a string, and a float among them. -/
theorem Node.parse_integers_bases : ∃ tokens comments,
    Token.scan (Text.ofString "[0x1F, 017, 90, 1.5, \"$\x7b42\x7d\"]") = .ok (tokens, comments) ∧
    ((tokens.flatMap Token.deepTokens).filter fun t => t.kind = .integer).map Token.text =
      ["0x1F", "017", "90", "42"].map Text.ofString ∧
    (["0x1F", "017", "90", "42"].map fun s =>
      Literal.positional (Literal.base (Text.ofString s)) (Literal.digits (Text.ofString s))) =
          [31, 15, 90, 42] ∧
    ∀ t ∈ tokens.flatMap Token.deepTokens, t.kind = .integer → (∀ c ∈ t.text, c.val < 128) →
      (∀ c ∈ Literal.digits t.text, Literal.digitValue c < Literal.base t.text) ∧
      Literal.integer? t.text =
        some (Literal.positional (Literal.base t.text) (Literal.digits t.text)) := by
  have hrun : (Token.scan (Text.ofString "[0x1F, 017, 90, 1.5, \"$\x7b42\x7d\"]")).toOption.map
      (fun p => ((p.1.flatMap Token.deepTokens).filter fun t => t.kind = .integer).map
        Token.text) = some (["0x1F", "017", "90", "42"].map Text.ofString) := by cbv
  obtain ⟨⟨tokens, comments⟩, hscan, htexts⟩ := exists_ok_of_map hrun
  exact ⟨tokens, comments, hscan, htexts, by decide,
    ((Node.parse_integers _).2 tokens comments hscan).1⟩

end ManifestTree
