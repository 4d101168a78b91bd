import ManifestTree.Proofs.HeredocClosings

/-!
# The grammar of tags

A tag is a terminator, perhaps a colon with a label, and perhaps a slash with flags, with white
space around each part.  `HeredocTag.parse` accepts the texts of this form and no others, and
answers the parts that they are written with.
-/

namespace ManifestTree

open Text

/-! ## White space and words -/

def Text.spaceNumbers : List Nat :=
  [0x9, 0xa, 0xb, 0xc, 0xd, 0x1c, 0x1d, 0x1e, 0x1f, 0x20, 0x85, 0xa0, 0x1680, 0x2000, 0x2001,
    0x2002, 0x2003, 0x2004, 0x2005, 0x2006, 0x2007, 0x2008, 0x2009, 0x200a, 0x2028, 0x2029, 0x202f,
    0x205f, 0x3000]

theorem Text.mem_spaceNumbers {c : CodePoint} (h : isSpace c) : c.val ∈ spaceNumbers := by
  simp only [isSpace, inRanges, List.any_cons, List.any_nil, Bool.or_false, Bool.or_eq_true,
    Bool.and_eq_true, decide_eq_true_eq] at h
  simp only [spaceNumbers, List.mem_cons, List.not_mem_nil, or_false]
  omega

theorem Text.isWord_of_isSpace {c : CodePoint} (h : isSpace c) : isWord c = false := by
  have hall : ∀ n ∈ spaceNumbers, ∀ c ∈ CodePoint.ofNat? n, isWord c = false := by
    decide +kernel
  exact hall _ (mem_spaceNumbers h) c (CodePoint.ofNat?_val c)

namespace HeredocTag

/-- White space is in no part of a tag but a quoted terminator, and none of its signs. -/
theorem isBareChar_of_isSpace {c : CodePoint} (h : isSpace c) : isBareChar c = false := by
  have hdot : c ≠ '.' := by rintro rfl; cases h
  have hdash : c ≠ '-' := by rintro rfl; cases h
  simp [isBareChar, isWord_of_isSpace h, hdot, hdash]

theorem isLabelChar_of_isSpace {c : CodePoint} (h : isSpace c) : isLabelChar c = false := by
  have hdot : c ≠ '.' := by rintro rfl; cases h
  have hplus : c ≠ '+' := by rintro rfl; cases h
  have hdash : c ≠ '-' := by rintro rfl; cases h
  simp [isLabelChar, isWord_of_isSpace h, hdot, hplus, hdash]

theorem isFlag_of_isSpace {c : CodePoint} (h : isSpace c) : isFlag c = false := by
  by_contra hflag
  have hmem : c ∈ allFlags := by simpa [isFlag] using hflag
  have hall : allFlags.all (fun d => !isSpace d) = true := by rfl
  have hc := List.all_eq_true.mp hall c hmem
  rw [h] at hc
  cases hc

/-! ## Runs of characters -/

theorem drop_takeWhile (member : CodePoint → Bool) (cs : Text) :
    cs.drop (cs.takeWhile member).length = cs.dropWhile member := by
  have hsplit := List.takeWhile_append_dropWhile (p := member) (l := cs)
  calc cs.drop (cs.takeWhile member).length
      = (cs.takeWhile member ++ cs.dropWhile member).drop (cs.takeWhile member).length := by
        rw [hsplit]
    _ = cs.dropWhile member := List.drop_left

/-- A text that neither begins nor ends with what is trimmed is left as it is. -/
theorem trimIf_eq_self {member : CodePoint → Bool} {cs : Text}
    (hfirst : ∀ c ∈ cs.head?, member c = false) (hlast : ∀ c ∈ cs.getLast?, member c = false) :
    trimIf member cs = cs := by
  have hfront : cs.dropWhile member = cs := @dropWhile_run member [] cs nofun hfirst
  have hback : cs.reverse.dropWhile member = cs.reverse :=
    @dropWhile_run member [] cs.reverse nofun fun c hc => hlast c (List.head?_reverse ▸ hc)
  rw [trimIf, hfront, hback, List.reverse_reverse]

/-! ## The parts of a tag -/

/-- A text that is a terminator between such quotes. -/
structure Quotable (quote : CodePoint) (t : Text) : Prop where
  nonempty : t ≠ []
  unquoted : quote ∉ t
  unbroken : .char '\n' ∉ t
  first : ∀ c ∈ t.head?, isSpace c = false
  last : ∀ c ∈ t.getLast?, isSpace c = false

/-- How a terminator is written. -/
inductive WritesTerminator : Quoting → Text → Text → Prop
  | bare {c : CodePoint} {more : Text} (first : isWord c) (others : ∀ d ∈ more, isBareChar d) :
    WritesTerminator .bare (c :: more) (c :: more)
  | double {t : Text} (quotable : Quotable doubleQuote t) :
    WritesTerminator .double t (doubleQuote :: (t ++ [doubleQuote]))
  | single {t : Text} (quotable : Quotable apostrophe t) :
    WritesTerminator .single t (apostrophe :: (t ++ [apostrophe]))

/-- A part after its sign, or nothing. -/
def marked (mark : CodePoint) : Option Text → Text
  | none => []
  | some part => mark :: part

/-- The white space around the parts of a tag. -/
structure Gaps where
  front : Text
  afterTerminator : Text
  afterLabel : Text
  back : Text
deriving DecidableEq, Repr

/-- The text is the parts of the tag with the white space around them. -/
structure Gaps.Spells (g : Gaps) (tag : HeredocTag) (text : Text) : Prop where
  text : ∃ written, WritesTerminator tag.quoting tag.terminator written ∧
    text = g.front ++ (written ++ (g.afterTerminator ++ (marked ':' tag.label ++
      (g.afterLabel ++ (marked '/' tag.escapes ++ g.back)))))
  front : ∀ c ∈ g.front, isSpace c
  afterTerminator : ∀ c ∈ g.afterTerminator, isSpace c
  afterLabel : ∀ c ∈ g.afterLabel, isSpace c
  back : ∀ c ∈ g.back, isSpace c
  label : ∀ part ∈ tag.label, part ≠ [] ∧ ∀ c ∈ part, isLabelChar c
  escapes : ∀ part ∈ tag.escapes, ∀ c ∈ part, isFlag c

/-! ## What is read -/

section

variable {quote mark : CodePoint} {member : CodePoint → Bool} {cs inside rest more : Text}
  {part : Option Text} {terminator written : Text} {quoting : Quoting}

/-- A quoted text ends at the first quote, with no line end before it. -/
theorem untilQuote?_iff : untilQuote? quote cs = some (inside, rest) ↔
    cs = inside ++ quote :: rest ∧ quote ∉ inside ∧ .char '\n' ∉ inside := by
  unfold untilQuote?
  dsimp only
  rw [drop_takeWhile]
  constructor
  · intro h
    split at h
    · rename_i c after hafter
      split at h
      · cases h
        subst c
        refine ⟨?_, fun hq => ?_, fun hn => ?_⟩
        · rw [← hafter, List.takeWhile_append_dropWhile]
        · simpa using List.mem_takeWhile_imp hq
        · simpa using List.mem_takeWhile_imp hn
      · cases h
    · cases h
  · rintro ⟨rfl, hquoted, hline⟩
    have hinside : ∀ c ∈ inside, (c ≠ quote && c ≠ '\n') = true := fun c hc => by
      have hcq : c ≠ quote := fun h => hquoted (h ▸ hc)
      have hcn : c ≠ '\n' := fun h => hline (h ▸ hc)
      simp [hcq, hcn]
    have hclose : ∀ c ∈ (quote :: rest).head?, (c ≠ quote && c ≠ '\n') = false := by
      rintro c ⟨⟩
      simp
    rw [dropWhile_run hinside hclose, takeWhile_run hinside hclose]
    exact if_pos rfl

/-- What is read as a part is the part, after white space. -/
theorem markedPart_sound (h : markedPart mark member (cs.dropWhile isSpace) = (part, rest)) :
    ∃ gap, cs = gap ++ (marked mark part ++ rest) ∧ (∀ c ∈ gap, isSpace c) ∧
      ∀ p ∈ part, ∀ c ∈ p, member c := by
  refine ⟨cs.takeWhile isSpace, ?_, fun c hc => List.mem_takeWhile_imp hc, ?_⟩
  · refine (List.takeWhile_append_dropWhile (p := isSpace)).symm.trans (congrArg _ ?_)
    unfold markedPart at h
    split at h
    · rename_i c ds hds
      rw [hds]
      split at h
      · obtain ⟨rfl, rfl⟩ := Prod.mk.inj h
        subst c
        exact congrArg _ List.takeWhile_append_dropWhile.symm
      · cases h
        rfl
    · cases h
      assumption
  · rintro p hp c hc
    unfold markedPart at h
    split at h
    · split at h
      · cases h
        cases hp
        exact List.mem_takeWhile_imp hc
      · cases h
        cases hp
    · cases h
      cases hp

/-- A part that is written is read, up to what cannot belong to it. -/
theorem markedPart_complete (mark : CodePoint) {gap : Text} (hmark : isSpace mark = false)
    (hgap : ∀ c ∈ gap, isSpace c) (hpart : ∀ p ∈ part, ∀ c ∈ p, member c)
    (hmore : ∀ c ∈ more.head?, member c = false)
    (hfree : ∀ c ∈ (more.dropWhile isSpace).head?, c ≠ mark) :
    ∃ rest, markedPart mark member ((gap ++ (marked mark part ++ more)).dropWhile isSpace) =
        (part, rest) ∧ rest.dropWhile isSpace = more.dropWhile isSpace := by
  rw [List.dropWhile_append_of_pos hgap]
  cases part with
  | none =>
    refine ⟨more.dropWhile isSpace, ?_, List.dropWhile_idempotent _ _⟩
    show markedPart mark member (more.dropWhile isSpace) = _
    generalize more.dropWhile isSpace = ds at hfree
    cases ds with
    | nil => rfl
    | cons c ds => exact if_neg (hfree c rfl)
  | some p =>
    refine ⟨more, ?_, rfl⟩
    have hdrop : (marked mark (some p) ++ more).dropWhile isSpace = mark :: (p ++ more) := by
      simp [marked, hmark]
    rw [hdrop, markedPart, if_pos rfl, takeWhile_run (hpart p rfl) hmore,
      dropWhile_run (hpart p rfl) hmore]

/-- What is read as a terminator is one, if it is neither blank nor has white space at its ends. -/
theorem terminator?_sound (h : terminator? cs = some (terminator, quoting, rest))
    (hblank : ¬ terminator.all isSpace) (htrim : trim terminator = terminator) :
    ∃ written, WritesTerminator quoting terminator written ∧ cs = written ++ rest := by
  have hnonempty : terminator ≠ [] := by
    rintro rfl
    exact hblank rfl
  obtain ⟨hfirst, hlast⟩ := trimIf_ends htrim
  unfold terminator? at h
  split at h
  · cases h
  rename_i c cs
  split at h
  · obtain ⟨⟨inside, after⟩, hinside, he⟩ := Option.map_eq_some_iff.mp h
    cases he
    obtain ⟨rfl, hunquoted, hunbroken⟩ := untilQuote?_iff.mp hinside
    subst c
    exact ⟨_, .double ⟨hnonempty, hunquoted, hunbroken, hfirst, hlast⟩, by simp⟩
  split at h
  · obtain ⟨⟨inside, after⟩, hinside, he⟩ := Option.map_eq_some_iff.mp h
    cases he
    obtain ⟨rfl, hunquoted, hunbroken⟩ := untilQuote?_iff.mp hinside
    subst c
    exact ⟨_, .single ⟨hnonempty, hunquoted, hunbroken, hfirst, hlast⟩, by simp⟩
  split at h
  · rename_i hword
    cases h
    refine ⟨_, .bare hword fun d hd => List.mem_takeWhile_imp hd, ?_⟩
    rw [drop_takeWhile, List.cons_append, List.takeWhile_append_dropWhile]
  · cases h

/-- A terminator that is written is read, up to what cannot belong to it. -/
theorem terminator?_complete (h : WritesTerminator quoting terminator written)
    (hrest : ∀ c ∈ rest.head?, isBareChar c = false) :
    terminator? (written ++ rest) = some (terminator, quoting, rest) := by
  cases h with
  | @bare c more hword hmore =>
    have hdouble : c ≠ doubleQuote := by
      rintro rfl
      exact absurd hword (by decide)
    have hsingle : c ≠ apostrophe := by
      rintro rfl
      exact absurd hword (by decide)
    rw [List.cons_append, terminator?, if_neg hdouble, if_neg hsingle, if_pos hword]
    dsimp only
    rw [drop_takeWhile, takeWhile_run hmore hrest, dropWhile_run hmore hrest]
  | double hquotable =>
    have hread : untilQuote? doubleQuote (terminator ++ doubleQuote :: rest) =
        some (terminator, rest) :=
      untilQuote?_iff.mpr ⟨rfl, hquotable.unquoted, hquotable.unbroken⟩
    rw [List.cons_append, List.append_assoc, List.singleton_append, terminator?, if_pos rfl, hread]
    rfl
  | single hquotable =>
    have hread : untilQuote? apostrophe (terminator ++ apostrophe :: rest) =
        some (terminator, rest) :=
      untilQuote?_iff.mpr ⟨rfl, hquotable.unquoted, hquotable.unbroken⟩
    rw [List.cons_append, List.append_assoc, List.singleton_append, terminator?,
      if_neg (by decide), if_pos rfl, hread]
    rfl

/-- A written terminator begins with no white space. -/
theorem WritesTerminator.head (h : WritesTerminator quoting terminator written) :
    ∃ c more, written = c :: more ∧ isSpace c = false := by
  cases h with
  | @bare c more hword _ =>
    refine ⟨c, more, rfl, ?_⟩
    by_contra hspace
    rw [isWord_of_isSpace (by simpa using hspace)] at hword
    cases hword
  | double => exact ⟨_, _, rfl, rfl⟩
  | single => exact ⟨_, _, rfl, rfl⟩

/-- A written terminator is not blank and has no white space at its ends. -/
theorem WritesTerminator.trimmed (h : WritesTerminator quoting terminator written) :
    ¬ terminator.all isSpace ∧ trim terminator = terminator := by
  have hends : terminator ≠ [] ∧ (∀ c ∈ terminator.head?, isSpace c = false) ∧
      ∀ c ∈ terminator.getLast?, isSpace c = false := by
    cases h with
    | @bare c more hword hmore =>
      have hbare : ∀ d ∈ c :: more, isSpace d = false := by
        intro d hd
        by_contra hspace
        have hnot := isBareChar_of_isSpace (by simpa using hspace)
        rcases List.mem_cons.mp hd with rfl | hd
        · simp [isBareChar, hword] at hnot
        · rw [hmore d hd] at hnot
          cases hnot
      exact ⟨List.cons_ne_nil _ _, fun d hd => hbare d (List.mem_of_head? hd),
        fun d hd => hbare d (List.mem_of_getLast? hd)⟩
    | double h => exact ⟨h.nonempty, h.first, h.last⟩
    | single h => exact ⟨h.nonempty, h.first, h.last⟩
  obtain ⟨hnonempty, hfirst, hlast⟩ := hends
  refine ⟨fun hall => ?_, trimIf_eq_self hfirst hlast⟩
  obtain ⟨c, more, rfl⟩ := List.exists_cons_of_ne_nil hnonempty
  have hspace := List.all_eq_true.mp hall c List.mem_cons_self
  rw [hfirst c rfl] at hspace
  cases hspace

end

/-! ## The whole tag -/

section

variable {text terminator : Text} {quoting : Quoting} {label escapes : Option Text}
  {tag : HeredocTag} {g : Gaps}

/-- What is read as the parts of a tag is written in the text, with white space around each part. -/
theorem parts?_sound (h : parts? text = some (terminator, quoting, label, escapes))
    (hblank : ¬ terminator.all isSpace) (htrim : trim terminator = terminator) :
    ∃ g : Gaps, g.Spells ⟨text, terminator, quoting, label, escapes⟩ text := by
  obtain ⟨⟨t, q, rest₁⟩, hterminator, h⟩ := Option.bind_eq_some_iff.mp h
  dsimp only at h
  generalize hlabel : markedPart ':' isLabelChar (rest₁.dropWhile isSpace) = l at h
  obtain ⟨label', rest₂⟩ := l
  generalize hescapes : markedPart '/' isFlag (rest₂.dropWhile isSpace) = e at h
  obtain ⟨escapes', rest₃⟩ := e
  dsimp only at h
  split at h
  · cases h
  rename_i hnonempty
  split at h
  · rename_i hback
    cases h
    obtain ⟨written, hwritten, htext⟩ := terminator?_sound hterminator hblank htrim
    obtain ⟨gap₁, rfl, hgap₁, hlabelChars⟩ := markedPart_sound hlabel
    obtain ⟨gap₂, rfl, hgap₂, hflags⟩ := markedPart_sound hescapes
    refine ⟨⟨text.takeWhile isSpace, gap₁, gap₂, rest₃⟩, ⟨written, hwritten, ?_⟩,
      fun c hc => List.mem_takeWhile_imp hc, hgap₁, hgap₂, List.all_eq_true.mp hback,
      fun part hpart => ⟨?_, hlabelChars part hpart⟩, hflags⟩
    · rw [← htext, List.takeWhile_append_dropWhile]
    · rintro rfl
      exact hnonempty hpart
  · cases h

/-- What a gap, a part and what follows begin with. -/
theorem head_marked {mark c : CodePoint} {gap rest : Text} {part : Option Text}
    (hgap : ∀ d ∈ gap, isSpace d) (hc : c ∈ (gap ++ (marked mark part ++ rest)).head?) :
    isSpace c ∨ c = mark ∨ c ∈ rest.head? := by
  cases gap with
  | cons d gap =>
    cases hc
    exact .inl (hgap c List.mem_cons_self)
  | nil =>
    cases part with
    | none => exact .inr (.inr hc)
    | some part =>
      cases hc
      exact .inr (.inl rfl)

/-- After a label, and in its place, no second one begins. -/
theorem Gaps.Spells.no_label (h : g.Spells tag text) :
    ∀ c ∈ ((g.afterLabel ++ (marked '/' tag.escapes ++ g.back)).dropWhile isSpace).head?,
      c ≠ ':' := by
  rw [List.dropWhile_append_of_pos h.afterLabel]
  cases tag.escapes with
  | none =>
    have hback : g.back.dropWhile isSpace = [] := List.dropWhile_eq_nil_iff.mpr h.back
    rw [marked, List.nil_append, hback]
    nofun
  | some part =>
    rintro c ⟨⟩
    decide

theorem Gaps.Spells.parts? (h : g.Spells tag text) :
    parts? text = some (tag.terminator, tag.quoting, tag.label, tag.escapes) := by
  obtain ⟨written, hwritten, rfl⟩ := h.text
  have back_space {c : CodePoint} (hc : c ∈ g.back.head?) : isSpace c :=
    h.back c (List.mem_of_head? hc)
  have hfront : (g.front ++ (written ++ (g.afterTerminator ++ (marked ':' tag.label ++
      (g.afterLabel ++ (marked '/' tag.escapes ++ g.back)))))).dropWhile isSpace =
        written ++ (g.afterTerminator ++ (marked ':' tag.label ++
          (g.afterLabel ++ (marked '/' tag.escapes ++ g.back)))) := by
    obtain ⟨c, more, rfl, hc⟩ := hwritten.head
    refine dropWhile_run h.front ?_
    rintro d ⟨⟩
    exact hc
  have hbare : ∀ c ∈ (g.afterTerminator ++ (marked ':' tag.label ++
      (g.afterLabel ++ (marked '/' tag.escapes ++ g.back)))).head?, isBareChar c = false := by
    intro c hc
    rcases head_marked h.afterTerminator hc with hc | rfl | hc
    · exact isBareChar_of_isSpace hc
    · decide
    rcases head_marked h.afterLabel hc with hc | rfl | hc
    · exact isBareChar_of_isSpace hc
    · decide
    · exact isBareChar_of_isSpace (back_space hc)
  have hother : ∀ c ∈ (g.afterLabel ++ (marked '/' tag.escapes ++ g.back)).head?,
      isLabelChar c = false := by
    intro c hc
    rcases head_marked h.afterLabel hc with hc | rfl | hc
    · exact isLabelChar_of_isSpace hc
    · decide
    · exact isLabelChar_of_isSpace (back_space hc)
  obtain ⟨rest₂, hlabel, hrest₂⟩ := markedPart_complete ':' (by decide) h.afterTerminator
    (fun part hpart => (h.label part hpart).2) hother h.no_label
  have hback : g.back.dropWhile isSpace = [] := List.dropWhile_eq_nil_iff.mpr h.back
  obtain ⟨rest₃, hescapes, hrest₃⟩ := markedPart_complete '/' (by decide) h.afterLabel
    h.escapes (fun c hc => isFlag_of_isSpace (back_space hc)) (by rw [hback]; nofun)
  have hnonempty : tag.label ≠ some [] := fun hnil => (h.label [] hnil).1 rfl
  have hend : rest₃.all isSpace := by
    rw [hback, List.dropWhile_eq_nil_iff] at hrest₃
    exact List.all_eq_true.mpr hrest₃
  simp only [HeredocTag.parts?, hfront, terminator?_complete hwritten hbare, hlabel, hrest₂,
    hescapes, Option.bind_eq_bind, Option.bind_some, if_neg hnonempty, if_pos hend]

/-- A tag that is read is written as its parts, with white space around them. -/
theorem spells_of_parse (h : parse text = .ok tag) : ∃ gaps : Gaps, gaps.Spells tag text := by
  unfold parse at h
  split at h
  · cases h
  split at h
  · cases h
  rename_i terminator quoting label escapes hparts
  split at h
  · cases h
  rename_i hterminator
  cases h
  simp only [Bool.or_eq_true, decide_eq_true_eq, not_or, not_not] at hterminator
  exact parts?_sound hparts hterminator.1 hterminator.2

theorem WritesTerminator.isInfix {written : Text} (h : WritesTerminator quoting terminator written) :
    terminator <:+: written := by
  cases h with
  | bare => exact List.infix_rfl
  | double => exact ⟨[doubleQuote], [doubleQuote], rfl⟩
  | single => exact ⟨[apostrophe], [apostrophe], rfl⟩

theorem Gaps.Spells.parts_isInfix (h : g.Spells tag text) : tag.terminator <:+: text ∧
    (∀ part ∈ tag.label, part <:+: text) ∧ ∀ part ∈ tag.escapes, part <:+: text := by
  obtain ⟨written, hwritten, htext⟩ := h.text
  refine ⟨?_, fun part hpart => ?_, fun part hpart => ?_⟩
  · refine hwritten.isInfix.trans ?_
    rw [htext]
    exact ⟨g.front, _, List.append_assoc _ _ _⟩
  · rw [htext, Option.mem_def.mp hpart]
    exact ⟨g.front ++ (written ++ (g.afterTerminator ++ [.char ':'])),
      g.afterLabel ++ (marked '/' tag.escapes ++ g.back), by simp [marked]⟩
  · rw [htext, Option.mem_def.mp hpart]
    exact ⟨g.front ++ (written ++ (g.afterTerminator ++ (marked ':' tag.label ++
      (g.afterLabel ++ [.char '/'])))), g.back, by simp [marked]⟩

end

/-- A tag is read just if the text is written as its parts with white space around them. -/
theorem parse_iff {text : Text} {tag : HeredocTag} :
    parse text = .ok tag ↔ tag.text = text ∧ ∃ gaps : Gaps, gaps.Spells tag text := by
  constructor
  · exact fun h => ⟨text_eq h, spells_of_parse h⟩
  · rintro ⟨rfl, g, h⟩
    obtain ⟨written, hwritten, htext⟩ := h.text
    obtain ⟨hblank, htrim⟩ := hwritten.trimmed
    obtain ⟨c, more, rfl, hc⟩ := hwritten.head
    have hnonblank : ¬ tag.text.all isSpace := fun hall => by
      have hspace := List.all_eq_true.mp hall c (by rw [htext]; simp)
      rw [hc] at hspace
      cases hspace
    rw [parse, if_neg hnonblank, h.parts?]
    dsimp only
    rw [if_neg (by simpa [htrim] using hblank)]

end HeredocTag

end ManifestTree
