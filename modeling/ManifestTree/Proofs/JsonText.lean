import ManifestTree.Proofs.NumberText
import ManifestTree.Proofs.StringText

/-!
# JSON values read back

Compact text has no white space, so each value ends where a comma, a bracket or the text's end
begins.  By induction over the value the reader answers it from its text, if its strings are
unpaired, its doubles are numbers and no object has two members of one name.
-/

namespace ManifestTree.Json

open Text

/-! ## Values that read back -/

mutual

/-- What the text of a value keeps. -/
def Readable : Json → Prop
  | .real r => r.IsNumber
  | .string t => t.Unpaired
  | .array items => ReadableItems items
  | .object members => ReadableMembers members ∧ (members.map Prod.fst).Nodup
  | _ => True

/-- The items of an array read back. -/
def ReadableItems : List Json → Prop
  | [] => True
  | j :: js => j.Readable ∧ ReadableItems js

/-- The members of an object read back. -/
def ReadableMembers : List (Text × Json) → Prop
  | [] => True
  | (name, j) :: ms => name.Unpaired ∧ j.Readable ∧ ReadableMembers ms

end

theorem readableItems_iff {js : List Json} : ReadableItems js ↔ ∀ j ∈ js, j.Readable := by
  induction js with
  | nil => simp [ReadableItems]
  | cons j js ih => rw [ReadableItems, ih, List.forall_mem_cons]

theorem readableMembers_iff {ms : List (Text × Json)} :
    ReadableMembers ms ↔ ∀ m ∈ ms, m.1.Unpaired ∧ m.2.Readable := by
  induction ms with
  | nil => simp [ReadableMembers]
  | cons m ms ih => rw [ReadableMembers, ih, List.forall_mem_cons, and_assoc]

/-- A value that is written in one piece and without quotes. -/
def Plain : Json → Prop
  | .string _ | .array _ | .object _ => False
  | _ => True

/-! ## How texts start -/

/-- A character that no white space and no bracket is. -/
def Opens (c : Char) : Prop :=
  isGap c = false ∧ c ≠ '[' ∧ c ≠ ']' ∧ c ≠ '\x7b' ∧ c ≠ '\x22'

theorem opens_digit {c : Char} (h : isAsciiDigit c = true) : Opens c := by
  have hne : ∀ d : Char, isAsciiDigit d = false → c ≠ d := by
    rintro d hd rfl
    rw [hd] at h
    cases h
  refine ⟨?_, hne _ rfl, hne _ rfl, hne _ rfl, hne _ rfl⟩
  unfold isGap
  simp [hne ' ' rfl, hne '\t' rfl, hne '\n' rfl, hne '\r' rfl]

theorem opens_signed (negative : Bool) {text : List Char}
    (h : ∃ c cs, text = c :: cs ∧ isAsciiDigit c = true) :
    ∃ c cs, (if negative then ['-'] else []) ++ text = c :: cs ∧ Opens c := by
  obtain ⟨c, cs, rfl, hc⟩ := h
  cases negative
  · exact ⟨c, cs, rfl, opens_digit hc⟩
  · exact ⟨'-', c :: cs, rfl, by unfold Opens; decide⟩

theorem integerText_head (i : ℤ) : ∃ c cs, integerText i = c :: cs ∧ Opens c := by
  have h := opens_signed (decide (i < 0)) (toDigits_isWhole i.natAbs).head
  simp only [decide_eq_true_eq] at h
  exact h

theorem realText_head {r : Binary64} (hr : r.IsNumber) :
    ∃ c cs, realText r = c :: cs ∧ Opens c := by
  cases r with
  | finite negative index =>
    apply opens_signed negative
    by_cases hzero : index = 0
    · rw [if_pos hzero]
      exact ⟨'0', _, rfl, rfl⟩
    · rw [if_neg hzero]
      exact layout_head realLayout (Decimal.shortest_reads (Nat.pos_of_ne_zero hzero) hr).1
  | infinite negative =>
    cases negative
    · exact ⟨'I', _, rfl, by unfold Opens; decide⟩
    · exact ⟨'-', _, rfl, by unfold Opens; decide⟩
  | nan => exact hr.elim

theorem scalarText_head {j : Json} (hplain : j.Plain) (hj : j.Readable) :
    ∃ c cs, j.scalarText = c :: cs ∧ Opens c := by
  cases j with
  | null => exact ⟨'n', _, rfl, by unfold Opens; decide⟩
  | bool b =>
    cases b
    · exact ⟨'f', _, rfl, by unfold Opens; decide⟩
    · exact ⟨'t', _, rfl, by unfold Opens; decide⟩
  | integer i => exact integerText_head i
  | real r => exact realText_head hj
  | string t => exact hplain.elim
  | array js => exact hplain.elim
  | object ms => exact hplain.elim

theorem scalar?_scalarText {j : Json} (hplain : j.Plain) (hj : j.Readable) {rest : List Char}
    (hrest : Ends rest) : scalar? (j.scalarText ++ rest) = some (j, rest) := by
  cases j with
  | null =>
    show scalar? ("null".toList ++ rest) = _
    unfold scalar?
    rw [expectWord?_append]
  | bool b =>
    cases b
    · show scalar? ("false".toList ++ rest) = _
      have hnull : expectWord? "null" ("false".toList ++ rest) = none :=
        expectWord?_cons rfl (by decide)
      have htrue : expectWord? "true" ("false".toList ++ rest) = none :=
        expectWord?_cons rfl (by decide)
      unfold scalar?
      rw [hnull, htrue, expectWord?_append]
    · show scalar? ("true".toList ++ rest) = _
      have hnull : expectWord? "null" ("true".toList ++ rest) = none :=
        expectWord?_cons rfl (by decide)
      unfold scalar?
      rw [hnull, expectWord?_append]
  | integer i => exact scalar?_integerText i hrest
  | real r => exact scalar?_realText hj hrest
  | string t => exact hplain.elim
  | array js => exact hplain.elim
  | object ms => exact hplain.elim

theorem compact_plain {j : Json} (hplain : j.Plain) : j.compact = j.scalarText := by
  cases j with
  | array js => exact hplain.elim
  | object ms => exact hplain.elim
  | _ => rfl

/-- The text of a value is not empty, and starts neither with white space nor with a closing
bracket. -/
theorem compact_head {j : Json} (hj : j.Readable) :
    ∃ c cs, j.compact = c :: cs ∧ isGap c = false ∧ c ≠ ']' := by
  by_cases hplain : j.Plain
  · obtain ⟨c, cs, htext, hc⟩ := scalarText_head hplain hj
    exact ⟨c, cs, (compact_plain hplain).trans htext, hc.1, hc.2.2.1⟩
  · cases j with
    | string t => exact ⟨'\x22', _, rfl, rfl, by decide⟩
    | array js => exact ⟨'[', _, rfl, rfl, by decide⟩
    | object ms => exact ⟨'\x7b', _, rfl, rfl, by decide⟩
    | _ => exact absurd trivial hplain

theorem skipGap_cons {c : Char} (h : isGap c = false) (cs : List Char) :
    skipGap (c :: cs) = c :: cs := by
  unfold skipGap
  rw [List.dropWhile_cons_of_neg]
  rw [h]
  exact Bool.false_ne_true

theorem skipGap_compact {j : Json} (hj : j.Readable) (rest : List Char) :
    skipGap (j.compact ++ rest) = j.compact ++ rest := by
  obtain ⟨c, cs, htext, hc, -⟩ := compact_head hj
  rw [htext]
  exact skipGap_cons hc _

/-! ## The reader -/

theorem value?_plain (fuel : ℕ) {c : Char} (hc : Opens c) (cs : List Char) :
    value? (fuel + 1) (c :: cs) = scalar? (c :: cs) := by
  obtain ⟨-, hopen, -, hbrace, hquote⟩ := hc
  unfold value?
  split
  · rename_i heq
    cases heq
    exact absurd rfl hopen
  · rename_i heq
    cases heq
    exact absurd rfl hbrace
  · rename_i heq
    cases heq
    exact absurd rfl hquote
  · rfl

/-- A new member goes to the end. -/
theorem setMember_append {name : Text} (value : Json) {ms : List (Text × Json)}
    (h : name ∉ ms.map Prod.fst) : setMember name value ms = ms ++ [(name, value)] := by
  induction ms with
  | nil => rfl
  | cons m ms ih =>
    rw [List.map_cons, List.mem_cons, not_or] at h
    unfold setMember
    rw [if_neg (Ne.symm h.1), ih h.2]
    rfl

theorem value?_compact_plain {j : Json} (hplain : j.Plain) (hj : j.Readable) {rest : List Char}
    (hrest : Ends rest) {fuel : ℕ} (hfuel : 2 * j.compact.length ≤ fuel) :
    value? fuel (j.compact ++ rest) = some (j, rest) := by
  have hread := scalar?_scalarText hplain hj hrest
  rw [compact_plain hplain] at hfuel ⊢
  obtain ⟨c, cs, htext, hc⟩ := scalarText_head hplain hj
  rw [htext] at hread hfuel ⊢
  rw [List.length_cons] at hfuel
  obtain ⟨fuel, rfl⟩ : ∃ k, fuel = k + 1 := ⟨fuel - 1, by omega⟩
  rw [List.cons_append, value?_plain fuel hc]
  exact hread

theorem value?_string {t : Text} (ht : t.Unpaired) (rest : List Char) (fuel : ℕ) :
    value? (fuel + 1) (stringText t ++ rest) = some (.string t, rest) := by
  have hread := quotedText?_stringText ht rest
  unfold stringText at hread ⊢
  rw [List.cons_append, List.cons_append] at hread ⊢
  rw [value?, hread]
  rfl

theorem value?_array {fuel : ℕ} {js : List Json} {c : Char} {cs rest : List Char}
    (hgap : isGap c = false) (hc : c ≠ ']') (h : items? fuel (c :: cs) = some (js, rest)) :
    value? (fuel + 1) ('[' :: c :: cs) = some (.array js, rest) := by
  rw [value?, skipGap_cons hgap]
  split
  · rename_i heq
    cases heq
    exact absurd rfl hc
  · rw [h]
    rfl

theorem value?_object {fuel : ℕ} {ms : List (Text × Json)} {cs rest : List Char}
    (h : members? fuel [] ('\x22' :: cs) = some (ms, rest)) :
    value? (fuel + 1) ('\x7b' :: '\x22' :: cs) = some (.object ms, rest) := by
  rw [value?, skipGap_cons rfl]
  split
  · rename_i heq
    cases heq
  · rw [h]
    rfl

theorem items?_last {fuel : ℕ} {j : Json} {cs rest : List Char}
    (h : value? fuel cs = some (j, ']' :: rest)) :
    items? (fuel + 1) cs = some ([j], rest) := by
  rw [items?, h]
  rfl

theorem items?_more {fuel : ℕ} {j : Json} {js : List Json} {cs more rest : List Char}
    (h : value? fuel cs = some (j, ',' :: more)) (hmore : skipGap more = more)
    (hjs : items? fuel more = some (js, rest)) :
    items? (fuel + 1) cs = some (j :: js, rest) := by
  rw [items?, h]
  simp only [Option.bind_eq_bind, Option.bind_some, skipGap_cons (show isGap ',' = false from rfl),
    hmore, hjs]
  rfl

theorem members?_last {fuel : ℕ} {before : List (Text × Json)} {name : Text} {j : Json}
    {cs more rest : List Char} (hname : quotedText? cs = some (name, ':' :: more))
    (hmore : skipGap more = more) (hj : value? fuel more = some (j, '\x7d' :: rest)) :
    members? (fuel + 1) before cs = some (setMember name j before, rest) := by
  rw [members?, hname]
  simp only [Option.bind_eq_bind, Option.bind_some, skipGap_cons (show isGap ':' = false from rfl),
    hmore, hj, skipGap_cons (show isGap '\x7d' = false from rfl)]
  rfl

theorem members?_more {fuel : ℕ} {before : List (Text × Json)} {name : Text} {j : Json}
    {cs more last : List Char} (hname : quotedText? cs = some (name, ':' :: more))
    (hmore : skipGap more = more) (hj : value? fuel more = some (j, ',' :: last))
    (hlast : skipGap last = last) :
    members? (fuel + 1) before cs = members? fuel (setMember name j before) last := by
  rw [members?, hname]
  simp only [Option.bind_eq_bind, Option.bind_some, skipGap_cons (show isGap ':' = false from rfl),
    hmore, hj, skipGap_cons (show isGap ',' = false from rfl), hlast]

theorem compactItems_cons (j k : Json) (js : List Json) :
    compactItems (j :: k :: js) = j.compact ++ ',' :: compactItems (k :: js) := rfl

theorem compactMembers_cons (name : Text) (j : Json) (m : Text × Json) (ms : List (Text × Json)) :
    compactMembers ((name, j) :: m :: ms)
      = stringText name ++ ':' :: j.compact ++ ',' :: compactMembers (m :: ms) := rfl

theorem compactItems_head {js : List Json} (hne : js ≠ []) (hjs : ReadableItems js) :
    ∃ c cs, compactItems js = c :: cs ∧ isGap c = false ∧ c ≠ ']' := by
  cases js with
  | nil => exact absurd rfl hne
  | cons j js =>
    obtain ⟨c, cs, htext, hc⟩ := compact_head hjs.1
    cases js with
    | nil => exact ⟨c, cs, htext, hc⟩
    | cons k js =>
      refine ⟨c, cs ++ ',' :: compactItems (k :: js), ?_, hc⟩
      rw [compactItems_cons, htext]
      rfl

theorem compactMembers_head {ms : List (Text × Json)} (hne : ms ≠ []) :
    ∃ cs, compactMembers ms = '\x22' :: cs := by
  match ms with
  | [] => exact absurd rfl hne
  | [(_, _)] => exact ⟨_, rfl⟩
  | (_, _) :: _ :: _ => exact ⟨_, rfl⟩

theorem skipGap_compactItems {js : List Json} (hne : js ≠ []) (hjs : ReadableItems js)
    (rest : List Char) : skipGap (compactItems js ++ rest) = compactItems js ++ rest := by
  obtain ⟨c, cs, htext, hc, -⟩ := compactItems_head hne hjs
  rw [htext]
  exact skipGap_cons hc _

theorem skipGap_compactMembers {ms : List (Text × Json)} (hne : ms ≠ []) (rest : List Char) :
    skipGap (compactMembers ms ++ rest) = compactMembers ms ++ rest := by
  obtain ⟨cs, htext⟩ := compactMembers_head hne
  rw [htext]
  exact skipGap_cons rfl _

/-- A name is new behind members that have other names. -/
theorem name_notMem {name : Text} {j : Json} {before ms : List (Text × Json)}
    (h : ((before ++ (name, j) :: ms).map Prod.fst).Nodup) : name ∉ before.map Prod.fst := by
  rw [List.map_append, List.map_cons] at h
  exact fun hmem => (List.nodup_append.mp h).2.2 name hmem name List.mem_cons_self rfl

mutual

theorem value?_compact : ∀ (j : Json), j.Readable → ∀ {rest : List Char}, Ends rest →
    ∀ {fuel : ℕ}, 2 * j.compact.length ≤ fuel → value? fuel (j.compact ++ rest) = some (j, rest)
  | .null, hj, _, hrest, _, hfuel =>
    value?_compact_plain (show Plain .null from trivial) hj hrest hfuel
  | .bool b, hj, _, hrest, _, hfuel =>
    value?_compact_plain (show Plain (.bool b) from trivial) hj hrest hfuel
  | .integer i, hj, _, hrest, _, hfuel =>
    value?_compact_plain (show Plain (.integer i) from trivial) hj hrest hfuel
  | .real r, hj, _, hrest, _, hfuel =>
    value?_compact_plain (show Plain (.real r) from trivial) hj hrest hfuel
  | .string t, hj, rest, _, fuel, hfuel => by
    obtain ⟨fuel, rfl⟩ : ∃ k, fuel = k + 1 := by
      have hpos : 0 < (compact (.string t)).length := Nat.succ_pos _
      exact ⟨fuel - 1, by omega⟩
    exact value?_string hj rest fuel
  | .array [], _, rest, _, fuel, hfuel => by
    obtain ⟨fuel, rfl⟩ : ∃ k, fuel = k + 1 := by
      have hpos : 0 < (compact (.array [])).length := Nat.succ_pos _
      exact ⟨fuel - 1, by omega⟩
    rfl
  | .array (j :: js), hj, rest, _, fuel, hfuel => by
    rw [compact, List.length_append, List.length_cons, List.length_singleton] at hfuel
    obtain ⟨fuel, rfl⟩ : ∃ k, fuel = k + 1 := ⟨fuel - 1, by omega⟩
    have hread := items?_compact (j :: js) (List.cons_ne_nil _ _) hj rest fuel (by omega)
    obtain ⟨c, cs, htext, hgap, hc⟩ := compactItems_head (List.cons_ne_nil j js) hj
    rw [htext, List.cons_append] at hread
    rw [compact, htext, List.cons_append, List.cons_append, List.cons_append, List.cons_append,
      List.append_assoc]
    exact value?_array hgap hc hread
  | .object [], _, rest, _, fuel, hfuel => by
    obtain ⟨fuel, rfl⟩ : ∃ k, fuel = k + 1 := by
      have hpos : 0 < (compact (.object [])).length := Nat.succ_pos _
      exact ⟨fuel - 1, by omega⟩
    rfl
  | .object (m :: ms), hj, rest, _, fuel, hfuel => by
    rw [compact, List.length_append, List.length_cons, List.length_singleton] at hfuel
    obtain ⟨fuel, rfl⟩ : ∃ k, fuel = k + 1 := ⟨fuel - 1, by omega⟩
    have hread := members?_compact (m :: ms) (List.cons_ne_nil _ _) hj.1 [] hj.2 rest
      fuel (by omega)
    obtain ⟨cs, htext⟩ := compactMembers_head (List.cons_ne_nil m ms)
    rw [htext, List.cons_append] at hread
    rw [compact, htext, List.cons_append, List.cons_append, List.cons_append, List.cons_append,
      List.append_assoc]
    exact value?_object hread

/-- The reader answers the items of an array from their text. -/
theorem items?_compact : ∀ (js : List Json), js ≠ [] → ReadableItems js → ∀ (rest : List Char)
    (fuel : ℕ), 2 * (compactItems js).length < fuel →
    items? fuel (compactItems js ++ ']' :: rest) = some (js, rest)
  | [], hne, _, _, _, _ => absurd rfl hne
  | [j], _, hjs, rest, fuel, hfuel => by
    rw [compactItems] at hfuel ⊢
    obtain ⟨fuel, rfl⟩ : ∃ k, fuel = k + 1 := ⟨fuel - 1, by omega⟩
    have hends : Ends (']' :: rest) := fun c hc => by cases hc; exact .inr (.inl rfl)
    exact items?_last (value?_compact j hjs.1 hends (by omega))
  | j :: k :: js, _, hjs, rest, fuel, hfuel => by
    rw [compactItems_cons, List.length_append, List.length_cons] at hfuel
    obtain ⟨fuel, rfl⟩ : ∃ k, fuel = k + 1 := ⟨fuel - 1, by omega⟩
    have hends : Ends (',' :: (compactItems (k :: js) ++ ']' :: rest)) := fun c hc => by
      cases hc
      exact .inl rfl
    have hread := items?_compact (k :: js) (List.cons_ne_nil _ _) hjs.2 rest fuel (by omega)
    rw [compactItems_cons, List.append_assoc, List.cons_append]
    exact items?_more (value?_compact j hjs.1 hends (by omega))
      (skipGap_compactItems (List.cons_ne_nil _ _) hjs.2 _) hread

/-- The reader answers the members of an object from their text. -/
theorem members?_compact : ∀ (ms : List (Text × Json)), ms ≠ [] → ReadableMembers ms →
    ∀ (before : List (Text × Json)), ((before ++ ms).map Prod.fst).Nodup → ∀ (rest : List Char)
    (fuel : ℕ), 2 * (compactMembers ms).length < fuel →
    members? fuel before (compactMembers ms ++ '\x7d' :: rest) = some (before ++ ms, rest)
  | [], hne, _, _, _, _, _, _ => absurd rfl hne
  | [(name, j)], _, hms, before, hnames, rest, fuel, hfuel => by
    rw [compactMembers, List.length_append, List.length_cons] at hfuel
    obtain ⟨fuel, rfl⟩ : ∃ k, fuel = k + 1 := ⟨fuel - 1, by omega⟩
    have hends : Ends ('\x7d' :: rest) := fun c hc => by cases hc; exact .inr (.inr rfl)
    rw [compactMembers, List.append_assoc, List.cons_append,
      members?_last (quotedText?_stringText hms.1 _) (skipGap_compact hms.2.1 _)
        (value?_compact j hms.2.1 hends (by omega)),
      setMember_append j (name_notMem hnames)]
  | (name, j) :: m :: ms, _, hms, before, hnames, rest, fuel, hfuel => by
    rw [compactMembers_cons, List.length_append, List.length_cons, List.length_append,
      List.length_cons] at hfuel
    obtain ⟨fuel, rfl⟩ : ∃ k, fuel = k + 1 := ⟨fuel - 1, by omega⟩
    have hends : Ends (',' :: (compactMembers (m :: ms) ++ '\x7d' :: rest)) := fun c hc => by
      cases hc
      exact .inl rfl
    have hassoc : before ++ (name, j) :: m :: ms = before ++ [(name, j)] ++ m :: ms := by
      rw [List.append_assoc]
      rfl
    have hread := members?_compact (m :: ms) (List.cons_ne_nil _ _) hms.2.2
      (before ++ [(name, j)]) (hassoc ▸ hnames) rest fuel (by omega)
    rw [compactMembers_cons, List.append_assoc, List.cons_append, List.append_assoc,
      List.cons_append,
      members?_more (quotedText?_stringText hms.1 _) (skipGap_compact hms.2.1 _)
        (value?_compact j hms.2.1 hends (by omega))
        (skipGap_compactMembers (List.cons_ne_nil _ _) _),
      setMember_append j (name_notMem hnames), hread, hassoc]

end

/-- A value reads back from its compact text. -/
theorem read_compact {j : Json} (hj : j.Readable) : read j.compact = some j := by
  have hskip := skipGap_compact hj []
  have hread : value? (2 * j.compact.length + 1) (j.compact ++ []) = some (j, []) :=
    value?_compact j hj ends_nil (by omega)
  rw [List.append_nil] at hskip hread
  unfold read
  rw [hskip, hread]
  rfl

/-! ## Printable text -/

theorem AllDigits.printable {cs : List Char} (h : AllDigits cs) : AllPrintable cs := by
  intro c hc
  have hrange : 48 ≤ c.toNat ∧ c.toNat ≤ 57 := isAsciiDigit_iff.mp (h c hc)
  exact ⟨by omega, by omega⟩

theorem sign_printable (negative : Bool) : AllPrintable (if negative then ['-'] else []) := by
  cases negative <;> decide

theorem integerText_printable (i : ℤ) : AllPrintable (integerText i) := by
  have hsign := sign_printable (decide (i < 0))
  simp only [decide_eq_true_eq] at hsign
  exact hsign.append (toDigits_allDigits _).printable

theorem exponentText_printable (width : ℕ) (e : ℤ) :
    AllPrintable (Decimal.exponentText width e) := by
  refine .cons (by decide) (.cons ?_ ?_)
  · split_ifs <;> decide
  · exact ((zeros_allDigits _).append (toDigits_allDigits _)).printable

theorem layout_printable (l : Decimal.Layout) (d : Decimal) : AllPrintable (d.layout l) := by
  unfold Decimal.layout
  dsimp only
  generalize Decimal.strip 400 d = s
  have hdigits := toDigits_allDigits s.digits
  generalize Nat.toDigits 10 s.digits = ds at *
  have htake : ∀ k, AllPrintable (ds.take k) := fun k =>
    AllDigits.printable fun c hc => hdigits c (List.mem_of_mem_take hc)
  have hdrop : ∀ k, AllPrintable (ds.drop k) := fun k =>
    AllDigits.printable fun c hc => hdigits c (List.mem_of_mem_drop hc)
  split
  · refine ((htake 1).append ?_).append (exponentText_printable _ _)
    split
    · exact fun c hc => absurd hc List.not_mem_nil
    · exact .cons (by decide) (hdrop 1)
  · split
    · exact .cons (by decide) (.cons (by decide)
        ((zeros_allDigits _).printable.append hdigits.printable))
    · split
      · exact (hdigits.printable.append (zeros_allDigits _).printable).append
          (by decide)
      · exact (htake _).append (.cons (by decide) (hdrop _))

theorem realText_printable (r : Binary64) : AllPrintable (realText r) := by
  cases r with
  | finite negative index =>
    refine (sign_printable negative).append ?_
    split
    · decide
    · exact layout_printable _ _
  | infinite negative =>
    exact (sign_printable negative).append (by decide)
  | nan =>
    show AllPrintable "NaN".toList
    decide

theorem scalarText_printable (j : Json) : AllPrintable j.scalarText := by
  cases j with
  | null =>
    show AllPrintable "null".toList
    decide
  | bool b =>
    show AllPrintable (if b then "true".toList else "false".toList)
    cases b <;> decide
  | integer i => exact integerText_printable i
  | real r => exact realText_printable r
  | string t => exact stringText_printable t
  | array js => exact fun c hc => absurd hc List.not_mem_nil
  | object ms => exact fun c hc => absurd hc List.not_mem_nil

mutual

theorem compact_printable : ∀ j : Json, AllPrintable j.compact
  | .null => scalarText_printable .null
  | .bool b => scalarText_printable (.bool b)
  | .integer i => scalarText_printable (.integer i)
  | .real r => scalarText_printable (.real r)
  | .string t => scalarText_printable (.string t)
  | .array js =>
    (AllPrintable.cons (by decide) (compactItems_printable js)).append
      (List.forall_mem_singleton.mpr (by decide))
  | .object ms =>
    (AllPrintable.cons (by decide) (compactMembers_printable ms)).append
      (List.forall_mem_singleton.mpr (by decide))

theorem compactItems_printable : ∀ js : List Json, AllPrintable (compactItems js)
  | [] => fun c hc => absurd hc List.not_mem_nil
  | [j] => compact_printable j
  | j :: k :: js =>
    (compact_printable j).append (.cons (by decide) (compactItems_printable (k :: js)))

theorem compactMembers_printable : ∀ ms : List (Text × Json), AllPrintable (compactMembers ms)
  | [] => fun c hc => absurd hc List.not_mem_nil
  | [(name, j)] => (stringText_printable name).append (.cons (by decide) (compact_printable j))
  | (name, j) :: m :: ms =>
    ((stringText_printable name).append (.cons (by decide) (compact_printable j))).append
      (.cons (by decide) (compactMembers_printable (m :: ms)))

end

end ManifestTree.Json
