import ManifestTree.Proofs.ScanLayout

/-!
# What comes after a token

A recogniser of a token looks at characters past the token.  What it finds it would find if the text
ended there, and what it misses it would miss.  Nor does it find anything else where a space or a
line end comes next: `LooksLocally` says so of a recogniser, and `Cuts` relates what may come after a
token in one text to what may come instead in another.  A regular expression alone may run over a
space, so what it misses has to be said for it.
-/

namespace ManifestTree

open Text

/-- The text ends, or a space or a line end comes next. -/
def Separated (t : Text) : Prop := ∀ c ∈ t.head?, c = ' ' ∨ c = '\n'

/-- The second text is the first one up to a place where it ends or has a space or a line end. -/
def Cuts (t t' : Text) : Prop :=
  ∃ common v v', t = common ++ v ∧ t' = common ++ v' ∧ Separated v'

theorem separated_nil : Separated [] := nofun

theorem separated_of_line {t : Text} (h : t = [] ∨ t.head? = some (.char '\n')) : Separated t := by
  rcases h with rfl | h
  · exact separated_nil
  · intro c hc
    rw [h, Option.mem_some] at hc
    exact .inr hc.symm

theorem Cuts.of_separated {t t' : Text} (h : Separated t') : Cuts t t' :=
  ⟨[], t, t', rfl, rfl, h⟩

theorem Cuts.refl (t : Text) : Cuts t t :=
  ⟨t, [], [], (List.append_nil t).symm, (List.append_nil t).symm, separated_nil⟩

/-- The next character is the same, or it is a space or a line end. -/
theorem Cuts.head? {t t' : Text} (h : Cuts t t') :
    t'.head? = t.head? ∨ Separated t' := by
  obtain ⟨common, v, v', rfl, rfl, hv⟩ := h
  cases common with
  | nil => exact .inr hv
  | cons c cs => exact .inl rfl

/-- A recogniser takes characters of the text.  It finds what it finds where the text ends earlier,
unless that is too early; it misses then what it misses; and before a space or a line end it finds
what it finds at the end of a text. -/
structure LooksLocally {α : Type} (f : Text → Option α) (taken : α → Nat) : Prop where
  within : ∀ {a x}, f a = some x → taken x ≤ a.length
  found : ∀ {a t x}, f (a ++ t) = some x → taken x ≤ a.length → f a = some x
  missed : ∀ {a t}, f (a ++ t) = none → f a = none
  kept : ∀ {a t}, Separated t → f (a ++ t) = f a

namespace LooksLocally

variable {α : Type} {f : Text → Option α} {taken : α → Nat} {a t t' : Text}

/-- A token is found if something else comes after it. -/
theorem found_cut (h : LooksLocally f taken) (hc : Cuts t t') {x : α}
    (hx : f (a ++ t) = some x) (hle : taken x ≤ a.length) : f (a ++ t') = some x := by
  obtain ⟨common, v, v', rfl, rfl, hv⟩ := hc
  rw [← List.append_assoc] at hx ⊢
  rw [h.kept hv]
  exact h.found hx (by rw [List.length_append]; omega)

/-- No token is found if something else comes next. -/
theorem missed_cut (h : LooksLocally f taken) (hc : Cuts t t') (hx : f (a ++ t) = none) :
    f (a ++ t') = none := by
  obtain ⟨common, v, v', rfl, rfl, hv⟩ := hc
  rw [← List.append_assoc] at hx ⊢
  rw [h.kept hv]
  exact h.missed hx

end LooksLocally

/-- What a recogniser that takes so many characters finds ends where it does whatever comes after
it. -/
def EndsLocally {α : Type} (f : Text → Option α) (taken : α → Nat) : Prop :=
  ∀ a t x, f (a ++ t) = some x ∧ taken x ≤ a.length ↔ f a = some x

namespace EndsLocally

variable {α : Type} {f : Text → Option α} {taken : α → Nat} {a t : Text}

theorem found_any (h : EndsLocally f taken) {x : α} (hx : f (a ++ t) = some x)
    (hle : taken x ≤ a.length) (t' : Text) : f (a ++ t') = some x :=
  ((h a t' x).mpr ((h a t x).mp ⟨hx, hle⟩)).1

theorem within (h : EndsLocally f taken) {x : α} (hx : f a = some x) : taken x ≤ a.length :=
  ((h a [] x).mpr hx).2

theorem missed (h : EndsLocally f taken) (hx : f (a ++ t) = none) : f a = none := by
  cases ha : f a with
  | none => rfl
  | some x =>
    rw [((h a t x).mpr ha).1] at hx
    cases hx

/-- What a recogniser finds is told by the characters that it takes. -/
theorem of_takes {Takes : Text → α → Prop}
    (h : ∀ cs x, f cs = some x ↔ ∃ w, w <+: cs ∧ Takes w x)
    (hlen : ∀ w x, Takes w x → taken x = w.length) : EndsLocally f taken := by
  intro a t x
  rw [h, h]
  constructor
  · rintro ⟨⟨w, hw, hx⟩, hle⟩
    exact ⟨w, List.prefix_of_prefix_length_le hw (List.prefix_append a t) (hlen w x hx ▸ hle), hx⟩
  · rintro ⟨w, hw, hx⟩
    exact ⟨⟨w, hw.trans (List.prefix_append a t), hx⟩, (hlen w x hx).trans_le hw.length_le⟩

end EndsLocally

variable {a t : Text}

/-! ## Runs of characters -/

/-- A run of characters that ends before the end of a text is the same if more text comes. -/
theorem takeWhile_append_of_length_le {p : CodePoint → Bool} (a t : Text)
    (h : ((a ++ t).takeWhile p).length ≤ a.length) : (a ++ t).takeWhile p = a.takeWhile p := by
  rw [List.takeWhile_append] at h ⊢
  split
  · rename_i hall
    rw [if_pos hall, List.length_append] at h
    have hnone : t.takeWhile p = [] := List.length_eq_zero_iff.mp (by omega)
    rw [hnone, List.append_nil]
    exact (List.takeWhile_prefix p).eq_of_length hall |>.symm
  · rfl

/-- If more text comes, a run of characters is not shorter. -/
theorem length_takeWhile_le {p : CodePoint → Bool} (a t : Text) :
    (a.takeWhile p).length ≤ ((a ++ t).takeWhile p).length := by
  rw [List.takeWhile_append]
  split
  · rename_i hall
    rw [List.length_append]
    omega
  · exact Nat.le_refl _

/-- A run of characters of a class without the space and the line end ends before them. -/
theorem takeWhile_separated {p : CodePoint → Bool} (hspace : p ' ' = false) (hline : p '\n' = false)
    (ht : Separated t) : (a ++ t).takeWhile p = a.takeWhile p := by
  have hnone : t.takeWhile p = [] := by
    cases t with
    | nil => rfl
    | cons c cs =>
      rcases ht c rfl with rfl | rfl
      · rw [List.takeWhile_cons, hspace]
        rfl
      · rw [List.takeWhile_cons, hline]
        rfl
  rw [List.takeWhile_append, hnone, List.append_nil]
  split
  · rename_i hall
    exact ((List.takeWhile_prefix p).eq_of_length hall).symm
  · rfl

theorem takeWhile_local {p : CodePoint → Bool} (hspace : p ' ' = false) (hline : p '\n' = false)
    (a t : Text) (h : ((a ++ t).takeWhile p).length ≤ a.length ∨ Separated t) :
    (a ++ t).takeWhile p = a.takeWhile p := by
  rcases h with hle | ht
  · exact takeWhile_append_of_length_le _ _ hle
  · exact takeWhile_separated hspace hline ht

/-- How many characters of a shape come next is seen from a text that holds them all, and from one
after which a space or a line end comes. -/
def MeasuresLocally (f : Text → Nat) : Prop :=
  ∀ a t, f (a ++ t) ≤ a.length ∨ Separated t → f (a ++ t) = f a

namespace Lexeme

/-! ## Names -/

/-- More text completes no double colon with a character after it, unless the colon is the last
character or the last but one. -/
theorem colons_append {c : CodePoint} {cs : Text} (t : Text)
    (h : ∀ d ds, c = ':' → cs = .char ':' :: d :: ds → False) :
    (∀ d ds, c = ':' → cs ++ t = .char ':' :: d :: ds → False) ∨ (c = ':' ∧ cs.length ≤ 1) := by
  by_cases hshort : cs.length ≤ 1
  · by_cases hc : c = ':'
    · exact .inr ⟨hc, hshort⟩
    · exact .inl fun _ _ h => absurd h hc
  · refine .inl fun d ds hc hcs => ?_
    match cs, hshort with
    | x :: y :: ys, _ =>
      obtain ⟨rfl, -⟩ := List.cons.inj hcs
      exact h y ys hc rfl

/-- Before a space or a line end a text of one character at most has no colon and a character of a
class without these. -/
theorem colons_separated {member : CodePoint → Bool} (hspace : member ' ' = false)
    (hline : member '\n' = false) {cs : Text} (hlen : cs.length ≤ 1) (ht : Separated t)
    {d : CodePoint} {ds : Text} (h : cs ++ t = .char ':' :: d :: ds) : member d = false := by
  match cs, hlen with
  | [], _ =>
    rw [List.nil_append] at h
    exact absurd (ht ':' (by rw [h]; rfl)) (by decide)
  | [x], _ =>
    obtain ⟨-, h⟩ := List.cons.inj h
    have h : t = d :: ds := h
    rcases ht d (by rw [h]; rfl) with rfl | rfl
    · exact hspace
    · exact hline

/-- What a colon begins is nothing, or a segment after another colon. -/
theorem scopedTail_colon (starts : CodePoint → Bool) (cs : Text) :
    scopedTail starts (.char ':' :: cs) = 0 ∨
      (3 ≤ scopedTail starts (.char ':' :: cs) ∧
        ∃ d ds, cs = .char ':' :: d :: ds ∧ starts d = true) := by
  by_cases hpair : ∃ d ds, cs = .char ':' :: d :: ds
  · obtain ⟨d, ds, rfl⟩ := hpair
    rw [scopedTail.eq_1]
    split
    · rename_i hd
      exact .inr ⟨Nat.le_add_left _ _, d, ds, rfl, hd⟩
    · exact .inl rfl
  · rw [scopedTail.eq_2 _ _ _ fun d ds _ h => hpair ⟨d, ds, h⟩]
    exact .inl rfl

theorem scopedTail_local {starts : CodePoint → Bool} (hspace : starts ' ' = false)
    (hline : starts '\n' = false) : MeasuresLocally (scopedTail starts) := by
  intro a t h
  induction a using scopedTail.induct starts with
  | case1 c cs hc ih =>
    simp only [List.cons_append, scopedTail, if_pos hc, List.length_cons] at h ⊢
    rw [ih (h.imp_left fun h => by omega)]
  | case2 c cs hc => simp only [List.cons_append, scopedTail, if_neg hc]
  | case3 c cs hno hc ih =>
    rcases colons_append t hno with hmore | ⟨rfl, -⟩
    · rw [List.cons_append, scopedTail.eq_2 _ _ _ hmore, if_pos hc] at h ⊢
      rw [scopedTail.eq_2 _ _ _ hno, if_pos hc, ih (h.imp_left fun h => Nat.le_of_succ_le_succ h)]
    · exact absurd hc (by decide)
  | case4 c cs hno hc =>
    rcases colons_append t hno with hmore | ⟨rfl, hlen⟩
    · rw [List.cons_append, scopedTail.eq_2 _ _ _ hmore, scopedTail.eq_2 _ _ _ hno, if_neg hc,
        if_neg hc]
    · rw [scopedTail.eq_2 _ _ _ hno, if_neg hc]
      -- With more text a colon near the end takes three characters at least, or none.
      rcases scopedTail_colon starts (cs ++ t) with hnone | ⟨hthree, d, ds, hds, hd⟩
      · exact hnone
      rcases h with hle | ht
      · rw [List.cons_append, List.length_cons] at hle
        omega
      · rw [colons_separated hspace hline hlen ht hds] at hd
        cases hd
  | case5 =>
    rcases h with hle | ht
    · exact Nat.le_zero.mp hle
    · rw [List.nil_append]
      match t, ht with
      | [], _ => rfl
      | c :: cs, ht =>
        rcases ht c rfl with rfl | rfl
        · exact scopedTail.eq_2 _ _ _ (by rintro _ _ ⟨⟩)
        · exact scopedTail.eq_2 _ _ _ (by rintro _ _ ⟨⟩)

theorem scopedTail_le (starts : CodePoint → Bool) (a : Text) : scopedTail starts a ≤ a.length := by
  induction a using scopedTail.induct starts with
  | case1 c cs hc ih =>
    rw [scopedTail.eq_1, if_pos hc]
    simp only [List.length_cons]
    omega
  | case2 c cs hc =>
    rw [scopedTail.eq_1, if_neg hc]
    exact Nat.zero_le _
  | case3 c cs hno hc ih =>
    rw [scopedTail.eq_2 _ _ _ hno, if_pos hc]
    exact Nat.succ_le_succ ih
  | case4 c cs hno hc =>
    rw [scopedTail.eq_2 _ _ _ hno, if_neg hc]
    exact Nat.zero_le _
  | case5 => exact Nat.le_refl _

theorem scopedLength?_le {first starts : CodePoint → Bool} {a : Text} {n : Nat}
    (h : scopedLength? first starts a = some n) : n ≤ a.length := by
  unfold scopedLength? at h
  split at h
  · rename_i c cs
    have := scopedTail_le starts cs
    split at h
    · cases h
      simp only [List.length_cons]
      omega
    · cases h
  · rename_i c cs _
    have := scopedTail_le starts cs
    split at h
    · cases h
      exact Nat.succ_le_succ this
    · cases h
  · cases h

/-- What a colon begins is no scoped name, unless another colon and a letter follow. -/
theorem scopedLength?_colon {first : CodePoint → Bool} (starts : CodePoint → Bool)
    (hcolon : first ':' = false)
    (cs : Text) : scopedLength? first starts (.char ':' :: cs) = none ∨
      ∃ n d ds, scopedLength? first starts (.char ':' :: cs) = some n ∧ 3 ≤ n ∧
        cs = .char ':' :: d :: ds ∧
        first d = true := by
  by_cases hpair : ∃ d ds, cs = .char ':' :: d :: ds
  · obtain ⟨d, ds, rfl⟩ := hpair
    rw [scopedLength?.eq_1]
    split
    · rename_i hd
      exact .inr ⟨_, d, ds, rfl, Nat.le_add_left _ _, rfl, hd⟩
    · exact .inl rfl
  · rw [scopedLength?.eq_2 _ _ _ _ fun d ds _ h => hpair ⟨d, ds, h⟩, hcolon]
    exact .inl rfl

theorem scopedLength?_local {first starts : CodePoint → Bool} (hf : first ' ' = false)
    (hf' : first '\n' = false) (hcolon : first ':' = false) (hs : starts ' ' = false)
    (hs' : starts '\n' = false) : LooksLocally (scopedLength? first starts) id := by
  have htail := scopedTail_local hs hs'
  -- A segment that is first in both texts.
  have segment (d : CodePoint) (cs t : Text) (k : Nat) :
      (∀ n, (if first d = true then some (scopedTail starts (cs ++ t) + k) else none) = some n →
          n ≤ cs.length + k →
          (if first d = true then some (scopedTail starts cs + k) else none) = some n) ∧
        ((if first d = true then some (scopedTail starts (cs ++ t) + k) else none) = none →
          (if first d = true then some (scopedTail starts cs + k) else none) = none) ∧
        (Separated t → (if first d = true then some (scopedTail starts (cs ++ t) + k) else none) =
          if first d = true then some (scopedTail starts cs + k) else none) := by
    by_cases hd : first d = true
    · simp only [if_pos hd, Option.some.injEq, reduceCtorEq, false_imp_iff, true_and]
      refine ⟨?_, fun ht => by rw [htail _ _ (.inr ht)]⟩
      rintro n rfl hle
      rw [htail cs t (.inl (Nat.le_of_add_le_add_right hle))]
    · rw [if_neg hd, if_neg hd]
      exact ⟨fun n h _ => h, fun h => h, fun _ => rfl⟩
  refine ⟨scopedLength?_le, ?_, ?_, ?_⟩
  · intro a t n h hle
    cases a with
    | nil => exact absurd hle (Nat.not_le.mpr (ScanState.scopedLength?_pos h))
    | cons c cs =>
      by_cases hpair : ∃ d ds, c = ':' ∧ cs = .char ':' :: d :: ds
      · obtain ⟨d, ds, rfl, rfl⟩ := hpair
        exact (segment d ds t 3).1 n h hle
      have hno : ∀ d ds, c = ':' → cs = .char ':' :: d :: ds → False :=
        fun d ds hc hcs => hpair ⟨d, ds, hc, hcs⟩
      rcases colons_append t hno with hmore | ⟨rfl, hlen⟩
      · rw [List.cons_append, scopedLength?.eq_2 _ _ _ _ hmore] at h
        rw [scopedLength?.eq_2 _ _ _ _ hno]
        exact (segment c cs t 1).1 n h hle
      · rcases scopedLength?_colon starts hcolon (cs ++ t) with hnone | ⟨m, d, ds, hm, hthree, -, -⟩
        · rw [List.cons_append, hnone] at h
          cases h
        · rw [List.cons_append, hm] at h
          cases h
          have hle : n ≤ cs.length + 1 := hle
          omega
  · intro a t h
    cases a with
    | nil => rfl
    | cons c cs =>
      by_cases hpair : ∃ d ds, c = ':' ∧ cs = .char ':' :: d :: ds
      · obtain ⟨d, ds, rfl, rfl⟩ := hpair
        exact (segment d ds t 3).2.1 h
      have hno : ∀ d ds, c = ':' → cs = .char ':' :: d :: ds → False :=
        fun d ds hc hcs => hpair ⟨d, ds, hc, hcs⟩
      rw [scopedLength?.eq_2 _ _ _ _ hno]
      rcases colons_append t hno with hmore | ⟨rfl, -⟩
      · rw [List.cons_append, scopedLength?.eq_2 _ _ _ _ hmore] at h
        exact (segment c cs t 1).2.1 h
      · rw [hcolon]
        rfl
  · intro a t ht
    cases a with
    | nil =>
      match t, ht with
      | [], _ => rfl
      | c :: cs, ht =>
        rcases ht c rfl with rfl | rfl
        · rw [List.nil_append, scopedLength?.eq_2 _ _ _ _ (by rintro _ _ ⟨⟩), hf]
          rfl
        · rw [List.nil_append, scopedLength?.eq_2 _ _ _ _ (by rintro _ _ ⟨⟩), hf']
          rfl
    | cons c cs =>
      by_cases hpair : ∃ d ds, c = ':' ∧ cs = .char ':' :: d :: ds
      · obtain ⟨d, ds, rfl, rfl⟩ := hpair
        exact (segment d ds t 3).2.2 ht
      have hno : ∀ d ds, c = ':' → cs = .char ':' :: d :: ds → False :=
        fun d ds hc hcs => hpair ⟨d, ds, hc, hcs⟩
      rcases colons_append t hno with hmore | ⟨rfl, hlen⟩
      · rw [List.cons_append, scopedLength?.eq_2 _ _ _ _ hmore, scopedLength?.eq_2 _ _ _ _ hno]
        exact (segment c cs t 1).2.2 ht
      · rw [scopedLength?.eq_2 _ _ _ _ hno, hcolon]
        rcases scopedLength?_colon starts hcolon (cs ++ t) with hnone | ⟨m, d, ds, -, -, hds, hd⟩
        · exact hnone
        · rw [colons_separated hf hf' hlen ht hds] at hd
          cases hd

theorem nameLength?_local : LooksLocally nameLength? id :=
  scopedLength?_local rfl rfl rfl rfl rfl

theorem referenceLength?_local : LooksLocally referenceLength? id :=
  scopedLength?_local rfl rfl rfl rfl rfl

/-- A variable begins with a dollar sign. -/
theorem variableLength?_cons {c : CodePoint} (hc : c ≠ '$') (cs : Text) :
    variableLength? (c :: cs) = none := by
  unfold variableLength?
  split
  · rename_i h
    exact absurd (List.cons.inj h).1 hc
  · rfl

theorem variableLength?_local : LooksLocally variableLength? id := by
  have hname : LooksLocally (scopedLength? isWord isWord) id :=
    scopedLength?_local (by decide) (by decide) (by decide) (by decide) (by decide)
  have hdollar (cs : Text) :
      variableLength? (.char '$' :: cs) = (scopedLength? isWord isWord cs).map (· + 1) := rfl
  constructor
  · intro a n h
    cases a with
    | nil => cases h
    | cons c cs =>
      by_cases hc : c = '$'
      · subst hc
        obtain ⟨m, hm, rfl⟩ := Option.map_eq_some_iff.mp h
        exact Nat.succ_le_succ (hname.within hm)
      · rw [variableLength?_cons hc] at h
        cases h
  · intro a t n h hle
    cases a with
    | nil => exact absurd hle (Nat.not_le.mpr (variableLength?_pos h))
    | cons c cs =>
      rw [List.cons_append] at h
      by_cases hc : c = '$'
      · subst hc
        obtain ⟨m, hm, rfl⟩ := Option.map_eq_some_iff.mp h
        rw [hdollar, hname.found hm (Nat.le_of_succ_le_succ hle)]
        rfl
      · rw [variableLength?_cons hc] at h
        cases h
  · intro a t h
    cases a with
    | nil => rfl
    | cons c cs =>
      rw [List.cons_append] at h
      by_cases hc : c = '$'
      · subst hc
        rw [hdollar, Option.map_eq_none_iff] at h
        rw [hdollar, hname.missed h]
        rfl
      · exact variableLength?_cons hc cs
  · intro a t ht
    cases a with
    | nil =>
      cases t with
      | nil => rfl
      | cons c cs => exact variableLength?_cons (by rcases ht c rfl with rfl | rfl <;> decide) cs
    | cons c cs =>
      by_cases hc : c = '$'
      · subst hc
        rw [List.cons_append, hdollar, hdollar, hname.kept ht]
      · rw [List.cons_append, variableLength?_cons hc, variableLength?_cons hc]

/-! ## Numbers -/

theorem isDecimal_local (a t : Text)
    (h : ((a ++ t).takeWhile isDecimal).length ≤ a.length ∨ Separated t) :
    (a ++ t).takeWhile isDecimal = a.takeWhile isDecimal :=
  takeWhile_local (by decide) (by decide) a t h

/-- The head of a text goes on in the same way, or it is empty. -/
theorem fractionLength_local : MeasuresLocally fractionLength := by
  intro a t h
  cases a with
  | nil =>
    rcases h with hle | ht
    · exact Nat.le_zero.mp hle
    · cases t with
      | nil => rfl
      | cons c cs => rcases ht c rfl with rfl | rfl <;> rfl
  | cons c cs =>
    by_cases hc : c = '.'
    · subst hc
      have hdigits : ((cs ++ t).takeWhile isDecimal).length ≤ cs.length ∨ Separated t := by
        refine h.imp_left fun hle => ?_
        simp only [List.cons_append, fractionLength, List.length_cons] at hle
        split at hle <;> omega
      simp only [List.cons_append, fractionLength, isDecimal_local cs t hdigits]
    · simp [fractionLength, hc]

theorem fractionLength_le (a : Text) : fractionLength a ≤ a.length := by
  cases a with
  | nil => exact Nat.le_refl _
  | cons c cs =>
    by_cases hc : c = '.'
    · subst hc
      have hdigits := (List.takeWhile_sublist (l := cs) isDecimal).length_le
      simp only [fractionLength, List.length_cons]
      split <;> omega
    · simp [fractionLength, hc]

theorem signLength_le (a : Text) : signLength a ≤ a.length := by
  cases a with
  | nil => exact Nat.le_refl _
  | cons c cs =>
    simp only [signLength, List.length_cons]
    split <;> omega

theorem exponentLength_le (a : Text) : exponentLength a ≤ a.length := by
  cases a with
  | nil => exact Nat.le_refl _
  | cons c cs =>
    have hdigits := (List.takeWhile_sublist (l := cs.drop (signLength cs)) isDecimal).length_le
    have hsign := signLength_le cs
    rw [List.length_drop] at hdigits
    simp only [exponentLength, List.length_cons]
    split
    · split <;> omega
    · exact Nat.zero_le _

theorem exponentLength_local : MeasuresLocally exponentLength := by
  intro a t h
  match a with
  | [] =>
    rcases h with hle | ht
    · exact Nat.le_zero.mp hle
    · cases t with
      | nil => rfl
      | cons c cs => rcases ht c rfl with rfl | rfl <;> rfl
  | [c] =>
    -- A sign or a digit would come after the letter.
    have hnone : exponentLength [c] = 0 := by
      simp [exponentLength, signLength]
    rw [hnone]
    rcases h with hle | ht
    · simp only [List.cons_append, List.nil_append, exponentLength, List.length_singleton] at hle ⊢
      split
      · rename_i hc
        rw [if_pos hc] at hle
        split
        · rfl
        · rename_i hdigits
          rw [if_neg hdigits] at hle
          omega
      · rfl
    · have hsign : signLength t = 0 := by
        cases t with
        | nil => rfl
        | cons d ds => rcases ht d rfl with rfl | rfl <;> rfl
      have hdigits : t.takeWhile isDecimal = [] := isDecimal_local [] t (.inr ht)
      simp [exponentLength, hsign, hdigits]
  | c :: d :: ds =>
    by_cases hc : (c = 'e' || c = 'E') = true
    · have hsign : signLength (d :: ds ++ t) = signLength (d :: ds) := rfl
      have hdrop : (d :: ds ++ t).drop (signLength (d :: ds)) =
          (d :: ds).drop (signLength (d :: ds)) ++ t :=
        List.drop_append_of_le_length (signLength_le _)
      have hlength := List.length_drop (i := signLength (d :: ds)) (l := d :: ds)
      have hle := signLength_le (d :: ds)
      have hcons : c :: d :: ds ++ t = c :: (d :: ds ++ t) := rfl
      rw [hcons] at h ⊢
      simp only [exponentLength, if_pos hc, hsign, hdrop] at h ⊢
      have hdigits : ((d :: ds).drop (signLength (d :: ds)) ++ t).takeWhile isDecimal =
          ((d :: ds).drop (signLength (d :: ds))).takeWhile isDecimal := by
        refine isDecimal_local _ _ (h.imp_left fun h => ?_)
        simp only [List.length_cons] at h hlength hle ⊢
        split at h <;> omega
      rw [hdigits]
    · simp only [List.cons_append, exponentLength, if_neg hc]

/-- A text begins with no number if it begins with no digit. -/
theorem decimal?_missing {a : Text} :
    decimal? a = none ↔ (a.takeWhile isDecimal).length = 0 := by
  unfold decimal?
  dsimp only
  split
  · rename_i h
    exact ⟨fun _ => h, fun _ => rfl⟩
  · rename_i h
    exact ⟨nofun, fun h' => absurd h' h⟩

/-- A number of digits, a fraction and an exponent. -/
theorem decimal?_eq_some {a : Text} {x : Nat × NumberForm} (h : decimal? a = some x) :
    x.1 = (a.takeWhile isDecimal).length + fractionLength (a.drop (a.takeWhile isDecimal).length) +
      exponentLength (a.drop ((a.takeWhile isDecimal).length +
        fractionLength (a.drop (a.takeWhile isDecimal).length))) := by
  unfold decimal? at h
  dsimp only at h
  split at h
  · cases h
  · cases h
    rfl

/-- The same parts of a number are seen where the text ends after it, or before a space or a line
end. -/
theorem decimal?_append {a t : Text}
    (h : (∃ x, decimal? (a ++ t) = some x ∧ x.1 ≤ a.length) ∨ Separated t) :
    decimal? (a ++ t) = decimal? a := by
  replace h := h.imp_left fun ⟨x, hx, hle⟩ => decimal?_eq_some hx ▸ hle
  have hdigits := isDecimal_local a t (h.imp_left fun h => by omega)
  have hlen := (List.takeWhile_sublist (l := a) isDecimal).length_le
  have hfraction : fractionLength (a.drop (a.takeWhile isDecimal).length ++ t) =
      fractionLength (a.drop (a.takeWhile isDecimal).length) := by
    refine fractionLength_local _ _ (h.imp_left fun h => ?_)
    rw [hdigits, List.drop_append_of_le_length hlen] at h
    rw [List.length_drop]
    omega
  have hlen' := fractionLength_le (a.drop (a.takeWhile isDecimal).length)
  rw [List.length_drop] at hlen'
  have hdrop : (a ++ t).drop ((a.takeWhile isDecimal).length +
        fractionLength (a.drop (a.takeWhile isDecimal).length)) =
      a.drop ((a.takeWhile isDecimal).length +
        fractionLength (a.drop (a.takeWhile isDecimal).length)) ++ t :=
    List.drop_append_of_le_length (by omega)
  have hexponent : exponentLength (a.drop ((a.takeWhile isDecimal).length +
        fractionLength (a.drop (a.takeWhile isDecimal).length)) ++ t) =
      exponentLength (a.drop ((a.takeWhile isDecimal).length +
        fractionLength (a.drop (a.takeWhile isDecimal).length))) := by
    refine exponentLength_local _ _ (h.imp_left fun h => ?_)
    rw [hdigits, List.drop_append_of_le_length hlen, hfraction, hdrop] at h
    rw [List.length_drop]
    omega
  unfold decimal?
  dsimp only
  rw [hdigits, List.drop_append_of_le_length hlen, hfraction, hdrop, hexponent]

theorem decimal?_local : LooksLocally decimal? Prod.fst where
  within {a x} h := by
    have hdigits := (List.takeWhile_sublist (l := a) isDecimal).length_le
    have hfraction := fractionLength_le (a.drop (a.takeWhile isDecimal).length)
    have hexponent := exponentLength_le (a.drop ((a.takeWhile isDecimal).length +
      fractionLength (a.drop (a.takeWhile isDecimal).length)))
    rw [List.length_drop] at hfraction hexponent
    rw [decimal?_eq_some h]
    omega
  found {a t x} h hle := by rwa [decimal?_append (.inl ⟨x, h, hle⟩)] at h
  missed {a t} h := by
    rw [decimal?_missing] at h ⊢
    have := length_takeWhile_le (p := isDecimal) a t
    omega
  kept ht := decimal?_append (.inr ht)

/-- After a zero and the letter of a hexadecimal number come so many of its digits. -/
def HexDigits (a : Text) (n : Nat) : Prop :=
  ∃ x rest, a = .char '0' :: x :: rest ∧ (x = 'x' ∨ x = 'X') ∧
      (rest.takeWhile isHexDigit).length = n

/-- A number is hexadecimal, or else decimal. -/
theorem number?_cases (a : Text) :
    (∃ n, HexDigits a (n + 1) ∧ number? a = some (n + 3, .hexadecimal)) ∨
      ((∀ n, HexDigits a n → n = 0) ∧ number? a = decimal? a) := by
  unfold number?
  split
  · rename_i x rest
    dsimp only
    split
    · rename_i hhex
      simp only [Bool.and_eq_true, Bool.or_eq_true, decide_eq_true_eq] at hhex
      obtain ⟨n, hn⟩ := Nat.exists_eq_succ_of_ne_zero hhex.2
      exact .inl ⟨n, ⟨x, rest, rfl, hhex.1, hn⟩, by rw [hn]⟩
    · rename_i hhex
      refine .inr ⟨?_, rfl⟩
      rintro _ ⟨x', rest', heq, hx, rfl⟩
      cases heq
      simpa [hx] using hhex
  · rename_i hother
    refine .inr ⟨?_, rfl⟩
    rintro n ⟨x, rest, rfl, -⟩
    exact absurd rfl (hother x rest)

theorem HexDigits.unique {a : Text} {m n : Nat} (h : HexDigits a m) (k : HexDigits a n) :
    m = n := by
  obtain ⟨x, rest, rfl, -, rfl⟩ := h
  obtain ⟨x', rest', heq, -, rfl⟩ := k
  cases heq
  rfl

/-- With more text there may be more digits, which come after the end of the first text. -/
theorem HexDigits.append {a : Text} {n : Nat} (h : HexDigits a n) (t : Text) :
    ∃ m, HexDigits (a ++ t) m ∧ n ≤ m ∧ (m + 2 ≤ a.length ∨ Separated t → m = n) := by
  obtain ⟨x, rest, rfl, hx, rfl⟩ := h
  refine ⟨_, ⟨x, rest ++ t, rfl, hx, rfl⟩, length_takeWhile_le rest t, fun h => ?_⟩
  rw [takeWhile_local rfl rfl rest t (h.imp_left fun h => Nat.le_of_succ_le_succ
    (Nat.le_of_succ_le_succ h))]

theorem HexDigits.of_append {a t : Text} {m : Nat} (h : HexDigits (a ++ t) m)
    (ht : 2 ≤ a.length ∨ Separated t) : ∃ n, HexDigits a n := by
  obtain ⟨x, rest, heq, hx, -⟩ := h
  match a with
  | [] =>
    rcases ht with hle | ht
    · exact absurd hle (by decide)
    · exact absurd (ht '0' (by rw [List.nil_append] at heq; rw [heq]; rfl)) (by decide)
  | [c] =>
    rcases ht with hle | ht
    · exact absurd hle (by simp)
    · obtain ⟨-, heq⟩ := List.cons.inj heq
      have heq : t = x :: rest := heq
      rcases ht x (by rw [heq]; rfl) with rfl | rfl <;> simp at hx
  | c :: d :: cs =>
    cases heq
    exact ⟨_, x, cs, rfl, hx, rfl⟩

theorem number?_local : LooksLocally number? Prod.fst := by
  -- Where more text makes no hexadecimal number there is none.
  have decimal {a t : Text} (h : ∀ n, HexDigits (a ++ t) n → n = 0) :
      number? a = decimal? a := by
    rcases number?_cases a with ⟨n, hn, -⟩ | ⟨-, ha⟩
    · obtain ⟨m, hm, hle, -⟩ := hn.append t
      have := h m hm
      omega
    · exact ha
  constructor
  · intro a y h
    rcases number?_cases a with ⟨n, ⟨x, rest, rfl, -, hn⟩, ha⟩ | ⟨-, ha⟩
    · have := (List.takeWhile_sublist (l := rest) isHexDigit).length_le
      rw [ha] at h
      cases h
      simp only [List.length_cons]
      omega
    · exact decimal?_local.within (ha ▸ h)
  · intro a t y h hle
    rcases number?_cases (a ++ t) with ⟨m, hm, heq⟩ | ⟨hno, heq⟩
    · rw [heq] at h
      cases h
      have hle : m + 3 ≤ a.length := hle
      obtain ⟨n, hn⟩ := hm.of_append (.inl (by omega))
      obtain ⟨m', hm', -, hsame⟩ := hn.append t
      obtain rfl : m' = m + 1 := hm'.unique hm
      obtain rfl : m + 1 = n := hsame (.inl (by omega))
      rcases number?_cases a with ⟨n', hn', ha⟩ | ⟨hno, -⟩
      · obtain rfl : n' = m := Nat.succ.inj (hn'.unique hn)
        exact ha
      · exact absurd (hno _ hn) (Nat.succ_ne_zero m)
    · rw [heq] at h
      rw [decimal hno]
      exact decimal?_local.found h hle
  · intro a t h
    rcases number?_cases (a ++ t) with ⟨m, -, heq⟩ | ⟨hno, heq⟩
    · rw [heq] at h
      cases h
    · rw [heq] at h
      rw [decimal hno]
      exact decimal?_local.missed h
  · intro a t ht
    rcases number?_cases (a ++ t) with ⟨m, hm, heq⟩ | ⟨hno, heq⟩
    · obtain ⟨n, hn⟩ := hm.of_append (.inr ht)
      obtain ⟨m', hm', -, hsame⟩ := hn.append t
      obtain rfl : m' = m + 1 := hm'.unique hm
      obtain rfl : m + 1 = n := hsame (.inr ht)
      rcases number?_cases a with ⟨n', hn', ha⟩ | ⟨hno, -⟩
      · obtain rfl : n' = m := Nat.succ.inj (hn'.unique hn)
        rw [heq, ha]
      · exact absurd (hno _ hn) (Nat.succ_ne_zero m)
    · rw [heq, decimal hno]
      exact decimal?_local.kept ht

/-! ## Regular expressions -/

theorem regexTailLength?_pos {a : Text} {n : Nat} (h : regexTailLength? a = some n) : 0 < n := by
  unfold regexTailLength? at h
  split at h
  · cases h
  · cases h
    exact Nat.one_pos
  · cases h
  · split at h
    · cases h
    · obtain ⟨m, -, rfl⟩ := Option.map_eq_some_iff.mp h
      omega
  · split at h
    · cases h
    · obtain ⟨m, -, rfl⟩ := Option.map_eq_some_iff.mp h
      omega

/-- A character before what is found, or a backslash and the character after it. -/
theorem map_add_iff {x y : Option Nat} {k l n : Nat}
    (h : ∀ m, x = some m ∧ m ≤ l ↔ y = some m) :
    x.map (· + k) = some n ∧ n ≤ l + k ↔ y.map (· + k) = some n := by
  simp only [Option.map_eq_some_iff, ← h]
  constructor
  · rintro ⟨⟨m, hm, rfl⟩, hle⟩
    exact ⟨m, ⟨hm, by omega⟩, rfl⟩
  · rintro ⟨m, ⟨hm, hle⟩, rfl⟩
    exact ⟨⟨m, hm, rfl⟩, by omega⟩

theorem regexTailLength?_append {n : Nat} :
    regexTailLength? (a ++ t) = some n ∧ n ≤ a.length ↔ regexTailLength? a = some n := by
  induction a using regexTailLength?.induct generalizing n with
  | case1 =>
    refine ⟨fun ⟨h, hle⟩ => ?_, nofun⟩
    have := regexTailLength?_pos h
    exact absurd hle (by simpa using Nat.pos_iff_ne_zero.mp this)
  | case2 tail =>
    simp only [List.cons_append, regexTailLength?, Option.some.injEq, List.length_cons]
    omega
  | case3 =>
    refine ⟨fun ⟨h, hle⟩ => ?_, nofun⟩
    cases t with
    | nil => cases h
    | cons c cs =>
      simp only [List.cons_append, List.nil_append, regexTailLength?] at h
      split at h
      · cases h
      · obtain ⟨m, -, rfl⟩ := Option.map_eq_some_iff.mp h
        exact absurd hle (by simp)
  | case4 cs => simp [regexTailLength?]
  | case5 c cs hc ih =>
    simp only [List.cons_append, regexTailLength?, if_neg hc, List.length_cons]
    exact map_add_iff fun m => ih
  | case6 cs => simp [regexTailLength?]
  | case7 c cs h₁ h₂ h₃ hc ih =>
    have hslash : c ≠ '\\' := by
      rintro rfl
      cases cs with
      | nil => exact h₂ rfl rfl
      | cons d ds => exact h₃ d ds rfl rfl
    rw [regexTailLength?.eq_5 _ _ h₁ h₂ h₃, List.cons_append,
      regexTailLength?.eq_5 _ _ h₁ (fun h => absurd h hslash) (fun _ _ h => absurd h hslash),
      if_neg hc, if_neg hc, List.length_cons]
    exact map_add_iff fun m => ih

theorem regexLength?_local : EndsLocally regexLength? id := by
  intro a t n
  cases a with
  | nil =>
    refine ⟨fun ⟨h, hle⟩ => ?_, nofun⟩
    exact absurd hle (Nat.not_le.mpr (ScanState.regexLength?_pos h))
  | cons c cs =>
    by_cases hc : c = '/'
    · subst hc
      exact map_add_iff fun m => regexTailLength?_append
    · simp [regexLength?, hc]

/-- No regular expression goes on over a line end. -/
theorem regexTailLength?_line : regexTailLength? (a ++ .char '\n' :: t) = regexTailLength? a := by
  induction a using regexTailLength?.induct with
  | case1 => simp [regexTailLength?]
  | case2 tail => rfl
  | case3 => simp [regexTailLength?]
  | case4 cs => simp [regexTailLength?]
  | case5 c cs hc ih => simp only [List.cons_append, regexTailLength?, if_neg hc, ih]
  | case6 cs => simp [regexTailLength?]
  | case7 c cs h₁ h₂ h₃ hc ih =>
    have hslash : c ≠ '\\' := by
      rintro rfl
      cases cs with
      | nil => exact h₂ rfl rfl
      | cons d ds => exact h₃ d ds rfl rfl
    rw [regexTailLength?.eq_5 _ _ h₁ h₂ h₃, List.cons_append,
      regexTailLength?.eq_5 _ _ h₁ (fun h => absurd h hslash) (fun _ _ h => absurd h hslash), ih]

theorem regexLength?_line : regexLength? (a ++ .char '\n' :: t) = regexLength? a := by
  cases a with
  | nil => rfl
  | cons c cs =>
    by_cases hc : c = '/'
    · subst hc
      simp only [List.cons_append, regexLength?, regexTailLength?_line]
    · simp [regexLength?, hc]

/-- No regular expression is found before a line end or the end of a text either. -/
theorem regexLength?_missed {t' : Text} (h : t' = [] ∨ t'.head? = some (.char '\n'))
    (ha : regexLength? (a ++ t) = none) : regexLength? (a ++ t') = none := by
  have hmissed := regexLength?_local.missed ha
  rcases h with rfl | h
  · rwa [List.append_nil]
  · obtain ⟨t', rfl⟩ := List.head?_eq_some_iff.mp h
    rwa [regexLength?_line]

/-! ## Escapes -/

/-- The digits of a code point as they are written: between braces, or four of them. -/
def WritesDigits (w : Text) (x : Nat × Text) : Prop :=
  (∀ c ∈ x.2, isHexDigit c) ∧ x.1 = w.length ∧
    ((w = .char '\x7b' :: x.2 ++ [.char '\x7d'] ∧ 0 < x.2.length ∧ x.2.length ≤ 6) ∨
      (w = x.2 ∧ x.2.length = 4))

theorem unicodeDigits?_eq_some {cs : Text} {x : Nat × Text} :
    unicodeDigits? cs = some x ↔ ∃ w, w <+: cs ∧ WritesDigits w x := by
  constructor
  · intro h
    unfold unicodeDigits? at h
    split at h
    · rename_i rest
      dsimp only at h
      split at h
      · rename_i hdigits
        cases h
        simp only [Bool.and_eq_true, decide_eq_true_eq] at hdigits
        obtain ⟨more, hmore⟩ := List.head?_eq_some_iff.mp hdigits.2
        have hrest : rest.takeWhile isHexDigit ++ .char '\x7d' :: more = rest := by
          have htake := List.prefix_iff_eq_take.mp (List.takeWhile_prefix isHexDigit (l := rest))
          rw [← hmore]
          nth_rewrite 1 [htake]
          exact List.take_append_drop _ _
        refine ⟨.char '\x7b' :: rest.takeWhile isHexDigit ++ [.char '\x7d'], ⟨more, ?_⟩,
          fun c hc => List.mem_takeWhile_imp hc, by simp, .inl ⟨rfl, hdigits.1⟩⟩
        simpa using hrest
      · cases h
    · dsimp only at h
      split at h
      · rename_i hdigits
        cases h
        simp only [Bool.and_eq_true, decide_eq_true_eq, List.all_eq_true] at hdigits
        exact ⟨cs.take 4, List.take_prefix 4 cs, hdigits.2, hdigits.1.symm, .inr ⟨rfl, hdigits.1⟩⟩
      · cases h
  · obtain ⟨n, digits⟩ := x
    rintro ⟨w, ⟨more, rfl⟩, hhex, hlen, ⟨rfl, hpos, hle⟩ | ⟨rfl, hfour⟩⟩
    · have hpos : 0 < digits.length := hpos
      have hle : digits.length ≤ 6 := hle
      obtain rfl : n = digits.length + 2 := by simpa using hlen
      have hdigits : (digits ++ .char '\x7d' :: more).takeWhile isHexDigit = digits := by
        rw [List.takeWhile_append_of_pos hhex, List.takeWhile_cons_of_neg (by decide),
          List.append_nil]
      have hcons : .char '\x7b' :: digits ++ [.char '\x7d'] ++ more =
          .char '\x7b' :: (digits ++ .char '\x7d' :: more) := by simp
      rw [hcons]
      unfold unicodeDigits?
      simp [hdigits, hpos, hle]
    · match w, hfour with
      | [c, d, e, f], _ =>
        obtain rfl : n = 4 := hlen
        have hother : c ≠ '\x7b' := by
          rintro rfl
          exact absurd (hhex _ List.mem_cons_self) (by decide)
        unfold unicodeDigits?
        split
        · rename_i heq
          exact absurd (List.cons.inj heq).1 hother
        · rw [if_pos]
          · rfl
          · simpa [List.all_eq_true] using hhex

/-- A backslash, an allowed character and after the letter `u` digits, and what they stand for. -/
def WritesEscape (allowed : Text) (w : Text) (x : Nat × Text) : Prop :=
  ∃ c ds, w = .char '\\' :: c :: ds ∧ allowed.contains c ∧
    ((c ≠ 'u' ∧ ds = [] ∧ x = (2, escapeValue c)) ∨ (c = 'u' ∧ ∃ n digits p,
      WritesDigits ds (n, digits) ∧ CodePoint.ofNat? (hexNumber digits) = some p ∧
        x = (n + 2, [p])))

theorem escape?_eq_some {allowed cs : Text} {x : Nat × Text} :
    escape? allowed cs = some x ↔ ∃ w, w <+: cs ∧ WritesEscape allowed w x := by
  constructor
  · intro h
    unfold escape? at h
    split at h
    case h_2 => cases h
    case h_1 c ds =>
      split at h
      · cases h
      rename_i hc
      have hc : allowed.contains c = true := by simpa using hc
      split at h
      · rename_i hu
        split at h
        · rename_i n digits hdigits
          obtain ⟨p, hp, rfl⟩ := Option.map_eq_some_iff.mp h
          obtain ⟨w, hw, hdigits⟩ := unicodeDigits?_eq_some.mp hdigits
          exact ⟨.char '\\' :: c :: w, by simpa using hw, c, w, rfl, hc,
            .inr ⟨hu, n, digits, p, hdigits, hp, rfl⟩⟩
        · cases h
      · rename_i hu
        cases h
        exact ⟨['\\', c], ⟨ds, rfl⟩, c, [], rfl, hc, .inl ⟨hu, rfl, rfl⟩⟩
  · rintro ⟨w, ⟨more, rfl⟩, c, ds, rfl, hc,
      ⟨hu, rfl, rfl⟩ | ⟨rfl, n, digits, p, hdigits, hp, rfl⟩⟩
    · simp [escape?, hu, List.contains_iff_mem.mp hc]
    · have hdigits := unicodeDigits?_eq_some.mpr ⟨ds, List.prefix_append ds more, hdigits⟩
      simp [escape?, List.contains_iff_mem.mp hc, hdigits, hp]

theorem escape?_local (allowed : Text) : EndsLocally (escape? allowed) Prod.fst := by
  refine .of_takes (fun _ _ => escape?_eq_some) fun w x h => ?_
  obtain ⟨c, ds, rfl, -, ⟨-, rfl, rfl⟩ | ⟨-, n, digits, p, hdigits, -, rfl⟩⟩ := h
  · rfl
  · exact congrArg (· + 2) hdigits.2.1

/-- A prefix without spaces and line ends ends before them. -/
theorem prefix_separated {w a t : Text} (hw : ∀ c ∈ w, c ≠ ' ' ∧ c ≠ '\n')
    (ht : Separated t) (h : w <+: a ++ t) : w <+: a := by
  rcases List.prefix_or_prefix_of_prefix h (List.prefix_append a t) with hwa | ⟨v, rfl⟩
  · exact hwa
  · have hvt : v <+: t := (List.prefix_append_right_inj a).mp h
    cases v with
    | nil => simp
    | cons c cs =>
      obtain ⟨more, rfl⟩ := hvt
      obtain ⟨hspace, hline⟩ := hw c (List.mem_append_right _ List.mem_cons_self)
      exact ((ht c rfl).elim hspace hline).elim

/-- An escape whose letter is there is the same before a space or a line end. -/
theorem escape?_separated {allowed a t : Text} (ha : 2 ≤ a.length) (ht : Separated t) :
    escape? allowed (a ++ t) = escape? allowed a := by
  refine Option.ext fun x => ?_
  refine ⟨fun h => ?_, fun h => ((escape?_local allowed a t x).mpr h).1⟩
  obtain ⟨w, hw, c, ds, rfl, hc, hx⟩ := escape?_eq_some.mp h
  refine escape?_eq_some.mpr ⟨_, ?_, c, ds, rfl, hc, hx⟩
  match a, ha with
  | d :: e :: a, _ =>
    simp only [List.cons_append, List.cons_prefix_cons] at hw ⊢
    refine ⟨hw.1, hw.2.1, prefix_separated (fun c hc => ?_) ht hw.2.2⟩
    have hdigit {c : CodePoint} (h : isHexDigit c) : c ≠ ' ' ∧ c ≠ '\n' :=
      ⟨by rintro rfl; exact absurd h (by decide), by rintro rfl; exact absurd h (by decide)⟩
    rcases hx with ⟨-, rfl, -⟩ | ⟨-, n, digits, p, ⟨hhex, -, ⟨rfl, -⟩ | ⟨rfl, -⟩⟩, -⟩
    · cases hc
    · rcases List.mem_append.mp hc with hc | hc
      · rcases List.mem_cons.mp hc with rfl | hc
        · decide
        · exact hdigit (hhex c hc)
      · rw [List.mem_singleton.mp hc]
        decide
    · exact hdigit (hhex c hc)

theorem escape?_missed_cut {allowed a t t' : Text} (ha : 2 ≤ a.length) (hc : Cuts t t')
    (h : escape? allowed (a ++ t) = none) : escape? allowed (a ++ t') = none := by
  obtain ⟨common, v, v', rfl, rfl, hv⟩ := hc
  rw [← List.append_assoc] at h ⊢
  rw [escape?_separated (by rw [List.length_append]; omega) hv]
  exact (escape?_local allowed).missed h

end Lexeme

/-! ## Symbols -/

theorem Symbol.leading?_local : LooksLocally Symbol.leading? fun s => s.spelling.length := by
  have hspelling (s : Symbol) : ∀ c ∈ Text.ofString s.spelling, c ≠ ' ' ∧ c ≠ '\n' := by
    have hall : (Text.ofString s.spelling).all
        (fun c => c ≠ .char ' ' && c ≠ .char '\n') = true := by cases s <;> rfl
    simpa using hall
  constructor
  · intro a s h
    have hs : (Text.ofString s.spelling).isPrefixOf a = true :=
      List.find?_some (p := fun s : Symbol => (Text.ofString s.spelling).isPrefixOf a) h
    exact Text.length_ofString s.spelling ▸ (List.isPrefixOf_iff_prefix.mp hs).length_le
  · intro a t s h hle
    unfold leading? at h ⊢
    rw [List.find?_eq_some_iff_append] at h ⊢
    obtain ⟨hs, before, after, heq, hbefore⟩ := h
    rw [List.isPrefixOf_iff_prefix] at hs
    refine ⟨?_, before, after, heq, fun r hr => ?_⟩
    · rw [List.isPrefixOf_iff_prefix]
      rw [← Text.length_ofString] at hle
      exact List.prefix_of_prefix_length_le hs (List.prefix_append a t) hle
    · have hmissed := hbefore r hr
      rw [Bool.not_eq_true', Bool.eq_false_iff, ne_eq, List.isPrefixOf_iff_prefix] at hmissed ⊢
      exact fun h => hmissed (h.trans (List.prefix_append a t))
  · intro a t h
    unfold leading? at h ⊢
    rw [List.find?_eq_none] at h ⊢
    intro r hr hfound
    rw [List.isPrefixOf_iff_prefix] at hfound
    exact h r hr (List.isPrefixOf_iff_prefix.mpr (hfound.trans (List.prefix_append a t)))
  · intro a t ht
    unfold leading?
    congr 1
    funext s
    rw [Bool.eq_iff_iff, List.isPrefixOf_iff_prefix, List.isPrefixOf_iff_prefix]
    exact ⟨Lexeme.prefix_separated (hspelling s) ht, fun h => h.trans (List.prefix_append a t)⟩

/-! ## Fragments -/

namespace Fragments

/-- How many characters what stands at a cursor takes, as far as it says. -/
def Next.length : Next → Nat
  | .done | .unterminated _ => 0
  | .escape n _ | .variable n => n
  | .interpolation => 2
  | .plain => 1

/-- What begins at a text takes characters of it. -/
theorem Reading.special_within (r : Reading) {a : Text} (ha : a ≠ []) :
    (r.special a).length ≤ a.length := by
  have hplain : Next.plain.length ≤ a.length := List.length_pos_iff.mpr ha
  unfold Reading.special
  split
  · rename_i n value he
    exact (Lexeme.escape?_local r.escapes).within he
  · split
    · split
      · rename_i hopen
        exact (List.isPrefixOf_iff_prefix.mp hopen).length_le
      · split
        · rename_i n hv
          exact Lexeme.variableLength?_local.within hv
        · exact hplain
    · exact hplain

/-- What begins before two characters or more does so if something else comes after it. -/
theorem Reading.special_cut (r : Reading) {a t t' : Text} (ha : 2 ≤ a.length)
    (hc : Cuts t t') (hle : (r.special (a ++ t)).length ≤ a.length) :
    r.special (a ++ t') = r.special (a ++ t) := by
  have hopener (t : Text) :
      [.char '$', .char '\x7b'].isPrefixOf (a ++ t) = [.char '$', .char '\x7b'].isPrefixOf a := by
    match a, ha with
    | c :: d :: a, _ => simp [List.isPrefixOf]
  unfold Reading.special at hle ⊢
  cases he : Lexeme.escape? r.escapes (a ++ t) with
  | some x =>
    simp only [he] at hle
    rw [(Lexeme.escape?_local r.escapes).found_any he hle t']
  | none =>
    rw [Lexeme.escape?_missed_cut ha hc he, hopener t, hopener t']
    simp only [he, hopener t] at hle
    dsimp only
    split
    · rename_i hinterpolate
      rw [if_pos hinterpolate] at hle
      split
      · rfl
      · rename_i hnot
        rw [if_neg hnot] at hle
        cases hv : Lexeme.variableLength? (a ++ t) with
        | some n =>
          simp only [hv] at hle
          rw [Lexeme.variableLength?_local.found_cut hc hv hle]
        | none => rw [Lexeme.variableLength?_local.missed_cut hc hv]
    · rfl

end Fragments

/-! ## Comments -/

theorem ScanState.blockLength?_local : EndsLocally ScanState.blockLength? id := by
  intro a t n
  induction a using blockLength?.induct generalizing n with
  | case1 tail =>
    simp only [List.cons_append, blockLength?, Option.some.injEq, List.length_cons, id]
    omega
  | case2 c cs hno ih =>
    rw [blockLength?.eq_2 _ _ hno, List.cons_append, List.length_cons]
    by_cases hsign : c = '*' ∧ cs = [] ∧ t.head? = some (.char '/')
    · obtain ⟨rfl, rfl, ht⟩ := hsign
      obtain ⟨ds, rfl⟩ := List.head?_eq_some_iff.mp ht
      simp [blockLength?]
      omega
    · rw [blockLength?.eq_2]
      · exact Lexeme.map_add_iff fun m => ih m
      · rintro ds rfl hds
        cases cs with
        | nil => exact hsign ⟨rfl, rfl, by rw [List.nil_append] at hds; rw [hds]; rfl⟩
        | cons d cs =>
          obtain ⟨rfl, -⟩ := List.cons.inj hds
          exact hno cs rfl rfl
  | case3 =>
    constructor
    · rintro ⟨h, hle⟩
      obtain ⟨body, rest, -, rfl, -⟩ := blockLength?_spec h
      simp at hle
    · intro h
      cases h

end ManifestTree
