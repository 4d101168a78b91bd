import ManifestTree.Proofs.Derivation
import ManifestTree.Proofs.SpanRows
import Mathlib.Algebra.BigOperators.Group.Multiset.Basic
import Mathlib.Tactic.Abel

/-!
# Assembling nodes from their parts

The grammar has many rules, but a node comes from its tokens in one of four ways: it is a leaf of
one token, a string or a heredoc with its fragments, or it is assembled.  The parts of an assembled
node are its signs and its elements, and their tokens one after the other are the tokens of the
node.  `Parse.Built` says this without the categories, so what only depends on parts and spans is an
induction with four cases.
-/

namespace ManifestTree

namespace TokenKind

/-- Tokens of all kinds but these are leaves themselves. -/
def isSingle : TokenKind → Bool
  | .string | .heredoc | .endOfInput => false
  | _ => true

/-- A name, a reference or a keyword. -/
def isWord : TokenKind → Bool
  | .name | .reference | .keyword _ => true
  | _ => false

theorem isSingle_of_isWord {k : TokenKind} (h : k.isWord) : k.isSingle := by
  cases k <;> first | rfl | cases h

theorem isWord_of_isKeyword {k : TokenKind} (h : k = .name ∨ k.isKeyword) : k.isWord := by
  cases k <;> first | rfl | simp [isKeyword] at h

theorem isWord_of_isPlainKeyword {k : TokenKind} (h : k = .name ∨ k.isPlainKeyword) :
    k.isWord := by
  cases k <;> first | rfl | simp [isPlainKeyword] at h

theorem isSingle_of_unary? {k : TokenKind} {o : Operator} (h : Operator.unary? k = some o) :
    k.isSingle := by
  cases k <;> first | rfl | cases h

theorem isSingle_of_command? {k : TokenKind} {o : Operator} (h : Operator.command? k = some o) :
    k.isSingle := by
  cases k <;> first | rfl | cases h

theorem isSingle_of_binary? {k : TokenKind} {o : Operator} (h : Operator.binary? k = some o) :
    k.isSingle := by
  cases k <;> first | rfl | cases h

theorem isSingle_of_chainArrow? {k : TokenKind} {a : ChainArrow}
    (h : Parse.chainArrow? k = some a) : k.isSingle := by
  cases k <;> first | rfl | cases h

theorem isSingle_of_resourceForm {k : TokenKind} (h : Parse.resourceForm k ≠ .ordinary) :
    k.isSingle := by
  cases k <;> first | rfl | exact absurd rfl h

end TokenKind

/-- A manifest reaches over its whole source, a heredoc body over lines of its own, and comments are
no parts of nodes. -/
def Kind.isInline : Kind → Bool
  | .manifest | .heredocBody | .comment => false
  | _ => true

theorem Kind.isInline_iff {k : Kind} :
    k.isInline ↔ k ≠ .manifest ∧ k ≠ .heredocBody ∧ k ≠ .comment := by
  cases k <;> simp [Kind.isInline]

/-! ## Leaves -/

/-- Leaves of these kinds say what their token does. -/
def Kind.isTold : Kind → Bool
  | .scopedName _ | .integer => true
  | _ => false

/-- Nodes of these kinds have texts of their own. -/
def Kind.isWritten : Kind → Bool
  | .token | .comment | .bareword | .regex | .content | .escape | .scopedName _ | .heredocTag
  | .binary => true
  | _ => false

/-- An inline kind of nodes that say nothing by themselves. -/
def Kind.isCompound (k : Kind) : Bool := k.isInline && !k.isTold && !k.isWritten

theorem Kind.isCompound_iff {k : Kind} :
    k.isCompound ↔ (k.isInline ∧ k.isTold = false) ∧ k.isWritten = false := by
  simp [Kind.isCompound]

theorem Node.texts_eq_nil {n : Node} (h : n.kind.isWritten = false) : n.texts = [] := by
  obtain ⟨span, tokens, shape⟩ := n
  cases shape <;> first | rfl | cases h

/-- The texts of a token that nodes take for names: a word itself, and whatever follows the dollar
sign of a variable or of a word, if there is one. -/
inductive Token.Names (t : Token) : Text → Prop
  | word : t.kind.isWord → t.Names t.text
  | sigil : t.kind.isWord ∨ t.kind = .variable → t.Names (Token.withoutSigil t.text)

/-- What a leaf says of its token: its texts are pieces of that of the token, and it has the name of
the token, or it is its value. -/
structure Token.Tells (t : Token) (n : Node) : Prop where
  texts : ∀ cs ∈ n.texts, cs <:+: t.text
  name : ∀ form, n.kind = .scopedName form →
    ∃ cs, t.Names cs ∧ n = Node.plain t.span (.ofName form cs)
  integer : n.kind = .integer →
    t.kind = .integer ∧ ∃ v, Literal.integer? t.text = some v ∧ n = Node.plain t.span (.integer v)

theorem Token.tells_of_not_told {t : Token} {n : Node} (htexts : ∀ cs ∈ n.texts, cs <:+: t.text)
    (h : n.kind.isTold = false) : t.Tells n where
  texts := htexts
  name form hk := by
    rw [hk] at h
    cases h
  integer hk := by
    rw [hk] at h
    cases h

/-- The segments of a name are pieces of it, and the first one is at its start. -/
theorem splitSegments_isInfix (cs : Text) : ∃ s ss, splitSegments cs = s :: ss ∧ s <+: cs ∧
    ∀ t ∈ ss, t <:+: cs := by
  induction cs using splitSegments.induct with
  | case1 cs ih =>
    obtain ⟨s, ss, hsplit, hs, hss⟩ := ih
    have hsuffix : cs <:+ .char ':' :: .char ':' :: cs := ⟨[.char ':', .char ':'], rfl⟩
    refine ⟨[], s :: ss, by rw [splitSegments, hsplit], List.nil_prefix, ?_⟩
    exact List.forall_mem_cons.mpr ⟨hs.isInfix.trans hsuffix.isInfix,
      fun t ht => (hss t ht).trans hsuffix.isInfix⟩
  | case2 c cs hcolons segment segments hsplit ih =>
    obtain ⟨s, ss, heq, hs, hss⟩ := ih
    obtain ⟨rfl, rfl⟩ := List.cons.inj (hsplit.symm.trans heq)
    refine ⟨c :: segment, segments, by rw [splitSegments.eq_2 _ _ hcolons, hsplit], ?_,
      fun t ht => List.infix_cons (hss t ht)⟩
    exact List.cons_prefix_cons.mpr ⟨rfl, hs⟩
  | case3 c cs _ hsplit ih =>
    obtain ⟨s, ss, heq, -⟩ := ih
    rw [hsplit] at heq
    cases heq
  | case4 => exact ⟨[], [], rfl, List.nil_prefix, List.forall_mem_nil _⟩

theorem Node.texts_ofName (s : Span) (form : NameForm) (cs : Text) :
    ∀ t ∈ (Node.plain s (.ofName form cs)).texts, t <:+: cs := by
  have pieces (cs : Text) : ∀ t ∈ splitSegments cs, t <:+: cs := by
    obtain ⟨segment, segments, hsplit, hfirst, hmore⟩ := splitSegments_isInfix cs
    rw [hsplit]
    exact List.forall_mem_cons.mpr ⟨hfirst.isInfix, hmore⟩
  have htexts (segments : List Text) (absolute : Bool) :
      (Node.plain s (.scopedName form segments absolute)).texts = segments := List.append_nil _
  unfold Shape.ofName
  split
  · rw [htexts]
    intro t ht
    exact (pieces _ t ht).trans (List.infix_cons (List.infix_cons List.infix_rfl))
  · rw [htexts]
    exact pieces cs

theorem Token.withoutSigil_isInfix (cs : Text) : Token.withoutSigil cs <:+: cs := by
  unfold Token.withoutSigil
  split
  · exact List.infix_cons List.infix_rfl
  · exact List.infix_rfl

theorem Token.Names.isInfix {t : Token} {cs : Text} (h : t.Names cs) : cs <:+: t.text := by
  cases h with
  | word => exact List.infix_rfl
  | sigil => exact Token.withoutSigil_isInfix t.text

theorem Token.Names.isSingle {t : Token} {cs : Text} (h : t.Names cs) : t.kind.isSingle := by
  cases h with
  | word h => exact TokenKind.isSingle_of_isWord h
  | sigil h =>
    rcases h with h | h
    · exact TokenKind.isSingle_of_isWord h
    · rw [h]
      rfl

/-! ## Fragments -/

@[simp] theorem Fragment.nodeOf_span (f : Fragment) (inner : Node) :
    (f.nodeOf inner).span = f.span := by
  obtain ⟨text, span, piece⟩ := f
  cases piece <;> rfl

theorem Fragment.nodeOf_isLeaf {f : Fragment} {inner : Node}
    (h : ∀ ts, f.piece ≠ .interpolation ts) : (f.nodeOf inner).isLeaf := by
  obtain ⟨text, span, piece⟩ := f
  cases piece with
  | content | escape => exact Node.isLeaf_iff.mpr ⟨Kind.noConfusion, rfl, rfl⟩
  | «variable» =>
    obtain ⟨segments, absolute, hname⟩ := @Shape.ofName_eq Node .variable (text.drop 1)
    show (Node.plain span (.ofName .variable (text.drop 1))).isLeaf
    rw [hname]
    exact Node.isLeaf_iff.mpr ⟨Kind.noConfusion, rfl, rfl⟩
  | interpolation ts => exact absurd rfl (h ts)

/-- The signs of an interpolation stand at the two ends of its text. -/
theorem Fragment.Proper.nodeOf_interpolation {f : Fragment} {ts : List Token} (hf : f.Proper)
    (hp : f.piece = .interpolation ts) (inner : Node) : f.nodeOf inner =
      .mk f.span [⟨Span.sized f.span.position 2, [.char '$', .char '\x7b']⟩,
        ⟨Span.sized f.lastPosition 1, [.char '\x7d']⟩] (.interpolation inner) := by
  obtain ⟨us, hts, -⟩ := hf.ends ts hp
  have hopener : (⟨f.span.start, f.span.start + 2, f.span.line, f.span.column⟩ : Span) =
      Span.sized f.span.position 2 := by
    rw [hf.placed]
    rfl
  have hcloser : (ts.getLast?.getD default).span = Span.sized f.lastPosition 0 := by
    rw [hts, List.getLast?_concat]
    rfl
  unfold Fragment.nodeOf
  rw [hp]
  simp only [hopener, hcloser, Span.sized]
  rfl

namespace Parse

/-! ## Parts -/

def sign (t : Token) : Segment := ([t], t.leaf.toNode)

@[simp] theorem sign_fst (t : Token) : (sign t).1 = [t] := rfl

@[simp] theorem sign_snd (t : Token) : (sign t).2 = t.leaf.toNode := rfl

/-- From the first to the last of some parts. -/
def extent (parts : List Segment) : Option Span := Span.hull (parts.map fun p => p.2.span)

/-- Some nodes, however they are ordered. -/
def bag (ns : List Node) : Multiset Node := ↑ns

@[simp] theorem bag_nil : bag [] = 0 := rfl

@[simp] theorem bag_cons (n : Node) (ns : List Node) : bag (n :: ns) = {n} + bag ns := rfl

@[simp] theorem bag_append (ns ms : List Node) : bag (ns ++ ms) = bag ns + bag ms :=
  (Multiset.coe_add ns ms).symm

def signs (ts : List Token) : List Segment := ts.map sign

@[simp] theorem flatMap_signs (ts : List Token) : (signs ts).flatMap Prod.fst = ts := by
  simp [signs, List.flatMap_map]

@[simp] theorem bag_signs (ts : List Token) :
    bag ((signs ts).map Prod.snd) = bag ((ts.map Token.leaf).map Leaf.toNode) := by
  simp [signs, Function.comp_def]

@[simp] theorem bag_optional (o : Option Segment) :
    bag (o.toList.map Prod.snd) = bag (o.map Prod.snd).toList := by
  cases o <;> rfl

section Extents

variable {p : Segment} {ps qs : List Segment} {a b c d : Span}

theorem extent_singleton (p : Segment) : extent [p] = some (p.2.span.join p.2.span) := rfl

theorem extent_append (hp : extent ps = some (a.join b)) (hq : extent qs = some (c.join d)) :
    extent (ps ++ qs) = some (a.join d) := by
  unfold extent
  rw [List.map_append, Span.hull_append hp hq]
  rfl

theorem extent_concat (ps : List Segment) (p : Segment) :
    ∃ s : Span, extent (ps ++ [p]) = some (s.join p.2.span) := by
  cases ps with
  | nil => exact ⟨p.2.span, rfl⟩
  | cons x xs =>
    obtain ⟨s, hs⟩ : ∃ s, extent (x :: xs) = some s := Span.hull_isSome (by simp)
    exact ⟨s, extent_append (hs.trans (congrArg some s.join_self.symm)) (extent_singleton p)⟩

theorem extent_cons (h : extent ps = some (a.join b)) :
    extent (p :: ps) = some (p.2.span.join b) :=
  extent_append (extent_singleton p) h

/-- Where some parts end when there may be others after them. -/
theorem extent_run (h : extent ps = some (a.join b)) (qs : List Segment) :
    extent (ps ++ qs) = some (a.join ((qs.getLast?.map fun p => p.2.span).getD b)) := by
  induction qs generalizing ps b with
  | nil =>
    rw [List.append_nil]
    exact h
  | cons q qs ih =>
    rw [List.append_cons, ih (extent_append h (extent_singleton q)), List.getLast?_cons]
    cases qs.getLast? <;> rfl

theorem extent_optional (h : extent ps = some (a.join b)) (o : Option Segment) :
    extent (ps ++ o.toList) = some (a.join ((o.map fun p => p.2.span).getD b)) := by
  rw [extent_run h]
  cases o <;> rfl

end Extents

theorem tokensOf_eq (o : Option Segment) : tokensOf o = o.toList.flatMap Prod.fst := by
  cases o with
  | none => rfl
  | some p => exact (List.append_nil _).symm

/-! ## Parts of series and groups -/

/-- Constructs with the signs between them, and perhaps one at the end. -/
def weaveParts : List Segment → List Token → List Segment
  | [], seps => signs seps
  | x :: xs, [] => x :: weaveParts xs []
  | x :: xs, c :: cs => x :: sign c :: weaveParts xs cs

theorem weaveParts_tokens (xs : List Segment) (seps : List Token) :
    (weaveParts xs seps).flatMap Prod.fst = weave (xs.map Prod.fst) seps := by
  induction xs generalizing seps with
  | nil => exact flatMap_signs seps
  | cons x xs ih =>
    cases seps with
    | nil => simp [weaveParts, weave, ih]
    | cons c cs => simp [weaveParts, weave, sign, ih]

theorem weaveParts_bag (xs : List Segment) (seps : List Token) :
    bag ((weaveParts xs seps).map Prod.snd) =
      bag ((seps.map Token.leaf).map Leaf.toNode) + bag (xs.map Prod.snd) := by
  induction xs generalizing seps with
  | nil => rw [weaveParts, bag_signs, List.map_nil, bag_nil, add_zero]
  | cons x xs ih =>
    cases seps with
    | nil => simp [weaveParts, ih]
    | cons c cs =>
      simp only [weaveParts, List.map_cons, bag_cons, ih, sign]
      abel

theorem mem_weaveParts {p : Segment} {xs : List Segment} {seps : List Token}
    (h : p ∈ weaveParts xs seps) : p ∈ xs ∨ ∃ c ∈ seps, p = sign c := by
  induction xs generalizing seps with
  | nil =>
    obtain ⟨c, hc, rfl⟩ := List.mem_map.mp h
    exact .inr ⟨c, hc, rfl⟩
  | cons x xs ih =>
    cases seps with
    | nil =>
      rcases List.mem_cons.mp h with rfl | h
      · exact .inl List.mem_cons_self
      · exact (ih h).imp_left (List.mem_cons_of_mem x)
    | cons c cs =>
      rcases List.mem_cons.mp h with rfl | h
      · exact .inl List.mem_cons_self
      rcases List.mem_cons.mp h with rfl | h
      · exact .inr ⟨c, List.mem_cons_self, rfl⟩
      rcases ih h with h | ⟨d, hd, rfl⟩
      · exact .inl (List.mem_cons_of_mem x h)
      · exact .inr ⟨d, List.mem_cons_of_mem c hd, rfl⟩

/-- With fewer signs than constructs a construct comes last, and all signs before it. -/
theorem weaveParts_open {xs : List Segment} {seps : List Token} (h : seps.length < xs.length) :
    ∃ front x, weaveParts xs seps = front ++ [x] ∧ xs.getLast? = some x ∧
      ∀ c ∈ seps, sign c ∈ front := by
  induction xs generalizing seps with
  | nil => exact absurd h (Nat.not_lt_zero _)
  | cons x xs ih =>
    cases xs with
    | nil =>
      obtain rfl : seps = [] := List.eq_nil_of_length_eq_zero (Nat.lt_one_iff.mp h)
      exact ⟨[], x, rfl, rfl, List.forall_mem_nil _⟩
    | cons y ys =>
      cases seps with
      | nil =>
        have hlt : ([] : List Token).length < (y :: ys).length := Nat.succ_pos _
        obtain ⟨front, last, hw, hlast, -⟩ := ih hlt
        exact ⟨x :: front, last, by rw [weaveParts, hw, List.cons_append],
          by rwa [List.getLast?_cons_cons], List.forall_mem_nil _⟩
      | cons c cs =>
        obtain ⟨front, last, hw, hlast, hmem⟩ := ih (Nat.lt_of_succ_lt_succ h)
        refine ⟨x :: sign c :: front, last, by rw [weaveParts, hw]; rfl,
          by rwa [List.getLast?_cons_cons], List.forall_mem_cons.mpr ⟨by simp, fun d hd => ?_⟩⟩
        exact List.mem_cons_of_mem _ (List.mem_cons_of_mem _ (hmem d hd))

/-- With as many signs as constructs a sign comes last, and all constructs before it. -/
theorem weaveParts_closed {xs : List Segment} {seps : List Token} (h : seps.length = xs.length)
    (hne : xs ≠ []) : ∃ front c, weaveParts xs seps = front ++ [sign c] ∧
      seps.getLast? = some c ∧ ∀ x ∈ xs, x ∈ front := by
  induction xs generalizing seps with
  | nil => exact absurd rfl hne
  | cons x xs ih =>
    obtain ⟨c, cs, rfl⟩ := List.exists_cons_of_length_eq_add_one h
    have hlength : cs.length = xs.length := Nat.succ.inj h
    cases xs with
    | nil =>
      obtain rfl : cs = [] := List.eq_nil_of_length_eq_zero hlength
      exact ⟨[x], c, rfl, rfl, by simp⟩
    | cons y ys =>
      obtain ⟨front, last, hw, hlast, hmem⟩ := ih hlength (List.cons_ne_nil y ys)
      obtain ⟨d, ds, rfl⟩ := List.exists_cons_of_length_eq_add_one hlength
      refine ⟨x :: sign c :: front, last, by rw [weaveParts, hw]; rfl,
        by rwa [List.getLast?_cons_cons], List.forall_mem_cons.mpr ⟨by simp, fun z hz => ?_⟩⟩
      exact List.mem_cons_of_mem _ (List.mem_cons_of_mem _ (hmem z hz))

namespace Series

def parts (l : Series) : List Segment := weaveParts l.items l.seps

@[simp] theorem flatMap_parts (l : Series) : l.parts.flatMap Prod.fst = l.tokens :=
  weaveParts_tokens l.items l.seps

@[simp] theorem bag_parts (l : Series) :
    bag (l.parts.map Prod.snd) = bag (l.leaves.map Leaf.toNode) + bag l.nodes :=
  weaveParts_bag l.items l.seps

theorem SeparatedBy.single {l : Series} {x : Symbol} (h : l.SeparatedBy x) :
    ∀ t ∈ l.seps, t.kind.isSingle := fun t ht => by
  rw [h.kinds t ht]
  rfl

theorem Tight.getLast? {l : Series} (h : l.Tight) : l.parts.getLast? = l.items.getLast? := by
  have hlt : l.seps.length < l.items.length := by
    rw [h]
    exact Nat.lt_succ_self _
  obtain ⟨front, x, hparts, hlast, -⟩ := weaveParts_open hlt
  rw [parts, hparts, List.getLast?_concat, hlast]

/-- Where the parts of a series are in order, it ends with the last of them. -/
theorem SeparatedBy.stopAfter {l : Series} {x : Symbol} (h : l.SeparatedBy x) (s : Span)
    {source : Text} (hrow : Span.Row source (l.parts.map fun p => p.2.span)) :
    l.stopAfter s = (l.parts.getLast?.map fun p => p.2.span).getD s := by
  unfold Series.stopAfter
  unfold parts at hrow ⊢
  rcases Nat.lt_or_eq_of_le h.few with hlt | heq
  · -- The last item ends after every separator.
    obtain ⟨front, last, hparts, hlast, hmem⟩ := weaveParts_open hlt
    rw [hparts, List.map_append] at hrow
    obtain ⟨-, hsingle, hordered⟩ := hrow.of_append
    have hlt := hsingle.nonempty last.2.span (List.mem_singleton_self _)
    rw [hparts, List.getLast?_concat, hlast]
    cases hsep : l.seps.getLast? with
    | none => rfl
    | some c =>
      have hc := hmem c (List.mem_of_getLast? hsep)
      have := hordered c.span (List.mem_map_of_mem (f := fun p : Segment => p.2.span) hc)
        last.2.span (List.mem_singleton_self _)
      exact if_neg (by dsimp only [Option.map_some, Option.getD_some]; omega)
  · by_cases hne : l.items = []
    · rw [hne] at heq ⊢
      rw [List.eq_nil_of_length_eq_zero heq]
      rfl
    -- The last separator ends after every item.
    obtain ⟨front, c, hparts, hsep, hmem⟩ := weaveParts_closed heq hne
    obtain ⟨last, hlast⟩ : ∃ y, l.items.getLast? = some y :=
      ⟨_, List.getLast?_eq_some_getLast hne⟩
    rw [hparts, List.map_append] at hrow
    obtain ⟨-, hsingle, hordered⟩ := hrow.of_append
    have hlt : c.span.start < c.span.stop := hsingle.nonempty c.span (List.mem_singleton_self _)
    have hfront := hmem last (List.mem_of_getLast? hlast)
    have : last.2.span.stop ≤ c.span.start := hordered last.2.span
      (List.mem_map_of_mem (f := fun p : Segment => p.2.span) hfront) c.span
      (List.mem_singleton_self _)
    rw [hparts, List.getLast?_concat, hsep, hlast]
    exact if_pos (by dsimp only [Option.map_some, Option.getD_some]; omega)

end Series

namespace Group

def parts (g : Group) : List Segment := sign g.opener :: g.inner.parts ++ [sign g.closer]

@[simp] theorem flatMap_parts (g : Group) : g.parts.flatMap Prod.fst = g.tokens := by
  simp [parts, sign, tokens]

@[simp] theorem bag_parts (g : Group) :
    bag (g.parts.map Prod.snd) = bag (g.leaves.map Leaf.toNode) + bag g.nodes := by
  simp [parts, sign, leaves, nodes, -Multiset.singleton_add]
  abel

theorem extent_parts (g : Group) :
    extent g.parts = some (g.opener.span.join g.closer.span) := by
  unfold extent parts
  rw [List.map_append]
  exact Span.hull_bracketed _ _ _

end Group

def groupParts (o : Option Group) : List Segment := (o.map Group.parts).getD []

@[simp] theorem flatMap_groupParts (o : Option Group) :
    (groupParts o).flatMap Prod.fst = groupTokens o := by
  cases o with
  | none => rfl
  | some g => exact g.flatMap_parts

@[simp] theorem bag_groupParts (o : Option Group) :
    bag ((groupParts o).map Prod.snd) =
      bag ((groupLeaves o).map Leaf.toNode) + bag ((o.map Group.nodes).getD []) := by
  cases o with
  | none => rfl
  | some g => exact g.bag_parts

theorem extent_group {ps : List Segment} {a b : Span} (h : extent ps = some (a.join b))
    (o : Option Group) :
    extent (ps ++ groupParts o) = some (a.join ((o.map fun g => g.closer.span).getD b)) := by
  cases o with
  | none => rwa [groupParts, Option.map_none, Option.getD_none, List.append_nil]
  | some g =>
    exact extent_append h g.extent_parts

/-- The parts of a construct that may be missing, with a sign before it. -/
def markedParts (o : Option (Token × Segment)) : List Segment :=
  (o.map fun x => [sign x.1, x.2]).getD []

@[simp] theorem flatMap_markedParts (o : Option (Token × Segment)) :
    (markedParts o).flatMap Prod.fst = (o.map fun x => x.1 :: x.2.1).getD [] := by
  cases o <;> simp [markedParts]

@[simp] theorem bag_markedParts (o : Option (Token × Segment)) :
    bag ((markedParts o).map Prod.snd) =
      bag ((o.map fun x => x.1.leaf).toList.map Leaf.toNode) +
        bag (o.map fun x => x.2.2).toList := by
  cases o <;> simp [markedParts]

theorem extent_marked {ps : List Segment} {a b : Span} (h : extent ps = some (a.join b))
    (o : Option (Token × Segment)) :
    extent (ps ++ markedParts o) = some (a.join ((o.map fun x => x.2.2.span).getD b)) := by
  rw [extent_run h]
  cases o <;> rfl

/-! ## Built nodes -/

/-- The node has these parts, which take these tokens: they are its signs and elements, and it
reaches from the first of them to the last if each has its place after the one before. -/
structure Assembled (ts : List Token) (parts : List Segment) (n : Node) : Prop where
  tokens : ts = parts.flatMap Prod.fst
  nonempty : parts ≠ []
  kind : n.kind.isInline ∧ n.kind.isTold = false
  texts : ∀ cs ∈ n.texts, ∃ o : Operator, cs = Text.ofString o.symbol
  below : bag (parts.map Prod.snd) = bag (n.tokens.map Leaf.toNode ++ n.shape.elements)
  span : ∀ source, Span.Row source (parts.map fun p => p.2.span) →
    Span.hull (ts.map Token.span) = extent parts → extent parts = some n.span

theorem Assembled.perm {ts : List Token} {parts : List Segment} {n : Node}
    (h : Assembled ts parts n) :
    (n.tokens.map Leaf.toNode ++ n.shape.elements).Perm (parts.map Prod.snd) :=
  Multiset.coe_eq_coe.mp h.below.symm

/-- The tokens make the node. -/
inductive Built : List Token → Node → Prop
  | leaf (t : Token) (n : Node) : t.kind.isSingle → n.isLeaf → n.kind.isInline →
      n.span = t.span → t.Tells n → Built [t] n
  | string (t : Token) (inner : Fragment → Node) : t.kind = .string →
      (∀ f ∈ t.fragments, f.Proper) →
      (∀ f ∈ t.fragments, ∀ ts, f.piece = .interpolation ts → Built ts.dropLast (inner f)) →
      Built [t] (t.stringOf (t.fragments.map fun f => f.nodeOf (inner f)))
  | heredoc (t : Token) (tag : HeredocTag) (b : HeredocBody) (inner : Fragment → Node) :
      t.kind = .heredoc → t.detail = .heredoc tag (some b) → (∀ f ∈ b.fragments, f.Proper) →
      (∀ f ∈ b.fragments, ∀ ts, f.piece = .interpolation ts → Built ts.dropLast (inner f)) →
      Built [t] (t.heredocOf tag b (b.fragments.map fun f => f.nodeOf (inner f)))
  | assembled {ts : List Token} {n : Node} (parts : List Segment) : Assembled ts parts n →
      (∀ p ∈ parts, Built p.1 p.2) → Built ts n

namespace Built

variable {ts : List Token} {n : Node}

/-- A token that is a leaf of some kind. -/
theorem value {t : Token} (hk : t.kind.isSingle) {shape : Shape Node} (h : shape.elements = [])
    (hkind : shape.kind.isInline) (htells : t.Tells (Node.plain t.span shape)) :
    Built [t] (Node.plain t.span shape) := by
  obtain ⟨-, -, hc⟩ := Kind.isInline_iff.mp hkind
  exact .leaf t _ hk (Node.isLeaf_iff.mpr ⟨hc, rfl, h⟩) hkind rfl htells

/-- A token that is a leaf without a name, and no integer. -/
theorem plain {t : Token} (hk : t.kind.isSingle) {shape : Shape Node} (h : shape.elements = [])
    (hkind : shape.kind.isInline) (htold : shape.kind.isTold = false)
    (htexts : ∀ cs ∈ (Node.plain t.span shape).texts, cs <:+: t.text) :
    Built [t] (Node.plain t.span shape) :=
  .value hk h hkind (Token.tells_of_not_told htexts htold)

/-- A token that is a leaf with its text. -/
theorem written {t : Token} (hk : t.kind.isSingle) {shape : Shape Node} (h : shape.elements = [])
    (hkind : shape.kind.isInline) (htold : shape.kind.isTold = false)
    (htexts : (Node.plain t.span shape).texts = [t.text]) :
    Built [t] (Node.plain t.span shape) := by
  refine .plain hk h hkind htold ?_
  rw [htexts]
  exact List.forall_mem_singleton.mpr List.infix_rfl

theorem sign {t : Token} (hk : t.kind.isSingle) : Built [t] t.leaf.toNode :=
  .written hk rfl rfl rfl rfl

theorem ofName {t : Token} {cs : Text} (h : t.Names cs) (form : NameForm) :
    Built [t] (Node.plain t.span (.ofName form cs)) := by
  have htells : t.Tells (Node.plain t.span (.ofName form cs)) := by
    refine ⟨fun s hs => ?_, fun other hk => ⟨cs, h, ?_⟩, fun hk => ?_⟩
    · exact (Node.texts_ofName t.span form cs s hs).trans h.isInfix
    · rw [Node.kind_ofName] at hk
      cases hk
      rfl
    · rw [Node.kind_ofName] at hk
      cases hk
  obtain ⟨segments, absolute, hname⟩ := @Shape.ofName_eq Node form cs
  rw [hname] at htells ⊢
  exact .value h.isSingle rfl rfl htells

theorem identifier {t : Token} (hk : t.kind.isWord) : Built [t] t.identifier :=
  .ofName (.word hk) _

theorem referenceIdentifier {t : Token} (hk : t.kind.isWord) :
    Built [t] t.referenceIdentifier := .ofName (.word hk) _

theorem variableNode {t : Token} (hk : t.kind.isWord ∨ t.kind = .variable) :
    Built [t] t.variableNode :=
  .ofName (.sigil hk) _

/-- A node that reaches from the first to the last of its parts. -/
theorem node {s : Span} {ls : List Leaf} {shape : Shape Node} (parts : List Segment)
    (hparts : ∀ p ∈ parts, Built p.1 p.2) (htokens : ts = parts.flatMap Prod.fst)
    (hbelow : bag (parts.map Prod.snd) = bag (ls.map Leaf.toNode) + bag shape.elements)
    (hspan : extent parts = some s) (hkind : shape.kind.isCompound) :
    Built ts (.mk s ls shape) := by
  obtain ⟨hplain, hwritten⟩ := Kind.isCompound_iff.mp hkind
  have htexts : (Node.mk s ls shape).texts = [] := Node.texts_eq_nil hwritten
  refine .assembled parts ⟨htokens, ?_, hplain, ?_, ?_, fun _ _ _ => hspan⟩ hparts
  · rintro rfl
    cases hspan
  · rw [htexts]
    exact List.forall_mem_nil _
  · rw [hbelow, ← bag_append]
    rfl

/-- A node that reaches from its first token to the last of its parts. -/
theorem from_first {first : Token} {a b : Span} {ls : List Leaf} {shape : Shape Node}
    (parts : List Segment) (hparts : ∀ p ∈ parts, Built p.1 p.2)
    (htokens : ts = parts.flatMap Prod.fst)
    (hbelow : bag (parts.map Prod.snd) = bag (ls.map Leaf.toNode) + bag shape.elements)
    (hspan : extent parts = some (a.join b)) (hfirst : ts.head? = some first)
    (hkind : shape.kind.isCompound) : Built ts (.mk (first.span.join b) ls shape) := by
  obtain ⟨hplain, hwritten⟩ := Kind.isCompound_iff.mp hkind
  have htexts : (Node.mk (first.span.join b) ls shape).texts = [] := Node.texts_eq_nil hwritten
  refine .assembled parts ⟨htokens, ?_, hplain, ?_, ?_, fun _ _ haligned => ?_⟩ hparts
  · rintro rfl
    cases hspan
  · rw [htexts]
    exact List.forall_mem_nil _
  · rw [hbelow, ← bag_append]
    rfl
  · -- The first token starts where the first part does.
    rw [hspan] at haligned ⊢
    obtain ⟨c, d, hhead, -, hjoin⟩ := Span.hull_eq_some.mp haligned
    rw [List.head?_map, hfirst] at hhead
    cases hhead
    simp only [Span.join, Span.mk.injEq] at hjoin
    obtain ⟨hstart, -, hline, hcolumn⟩ := hjoin
    rw [Span.join, hstart, hline, hcolumn]
    rfl

end Built

theorem Series.built {l : Series} (hseps : ∀ t ∈ l.seps, t.kind.isSingle)
    (hitems : ∀ i ∈ l.items, Built i.1 i.2) : ∀ p ∈ l.parts, Built p.1 p.2 := by
  intro p hp
  rcases mem_weaveParts hp with hp | ⟨c, hc, rfl⟩
  · exact hitems p hp
  · exact .sign (hseps c hc)

theorem Group.built {g : Group} {opens closes : Symbol} (hg : g.Between opens closes)
    (hseps : ∀ t ∈ g.inner.seps, t.kind.isSingle) (hitems : ∀ i ∈ g.inner.items, Built i.1 i.2) :
    ∀ p ∈ g.parts, Built p.1 p.2 := by
  have hopener : g.opener.kind.isSingle := by rw [hg.opener]; rfl
  have hcloser : g.closer.kind.isSingle := by rw [hg.closer]; rfl
  exact List.forall_mem_append.mpr ⟨List.forall_mem_cons.mpr
    ⟨.sign hopener, Series.built hseps hitems⟩, List.forall_mem_singleton.mpr (.sign hcloser)⟩

theorem built_optional {o : Option Segment} (h : ∀ p ∈ o, Built p.1 p.2) :
    ∀ p ∈ o.toList, Built p.1 p.2 := fun p hp => h p (Option.mem_toList.mp hp)

theorem built_markedParts {o : Option (Token × Segment)} (hs : ∀ x ∈ o, x.1.kind.isSingle)
    (h : ∀ x ∈ o, Built x.2.1 x.2.2) : ∀ p ∈ markedParts o, Built p.1 p.2 := by
  cases o with
  | none => exact List.forall_mem_nil _
  | some x =>
    exact List.forall_mem_cons.mpr ⟨.sign (hs x rfl), List.forall_mem_singleton.mpr (h x rfl)⟩

theorem built_groupParts {o : Option Group} {opens closes : Symbol}
    (hg : ∀ g ∈ o, g.Between opens closes) (hseps : ∀ g ∈ o, ∀ t ∈ g.inner.seps, t.kind.isSingle)
    (hitems : ∀ g ∈ o, ∀ i ∈ g.inner.items, Built i.1 i.2) :
    ∀ p ∈ groupParts o, Built p.1 p.2 := by
  cases o with
  | none => exact List.forall_mem_nil _
  | some g => exact Group.built (hg g rfl) (hseps g rfl) (hitems g rfl)

namespace Built

variable {s : Span} {shape : Shape Node}

/-- Two nodes with a sign between them. -/
theorem joined {ls rs : List Token} {l r : Node} {t : Token} (hk : t.kind.isSingle)
    (hl : Built ls l) (hr : Built rs r) (helements : shape.elements = [l, r])
    (hkind : shape.kind.isCompound) :
    Built (ls ++ t :: rs) (.mk (l.span.join r.span) [t.leaf] shape) := by
  refine .node [(ls, l), Parse.sign t, (rs, r)] ?_ (by simp [Parse.sign]) ?_ rfl hkind
  · simp [hl, hr, Built.sign hk]
  · simp [helements, Parse.sign, -Multiset.singleton_add]
    abel

/-- Two operands with the sign of the operator between them. -/
theorem operation {ls rs : List Token} {l r : Node} {t : Token} (o : Operator)
    (hk : t.kind.isSingle) (hl : Built ls l) (hr : Built rs r) :
    Built (ls ++ t :: rs)
      (.mk (l.span.join r.span) [t.leaf] (.binary (Text.ofString o.symbol) l r)) := by
  refine .assembled [(ls, l), Parse.sign t, (rs, r)] ⟨by simp [Parse.sign],
    List.cons_ne_nil _ _, ⟨rfl, rfl⟩, List.forall_mem_singleton.mpr ⟨o, rfl⟩, ?_,
    fun _ _ _ => rfl⟩ ?_
  · simp [Node.tokens, Node.shape, Shape.elements, Shape.fields, Field.elements, Parse.sign,
      -Multiset.singleton_add]
    abel
  · simp [hl, hr, Built.sign hk]

/-- A group whose brackets and separators are all the signs there are. -/
theorem group {g : Group} (hg : ∀ p ∈ g.parts, Built p.1 p.2)
    (helements : shape.elements = g.nodes) (hkind : shape.kind.isCompound) :
    Built g.tokens (.mk (g.opener.span.join g.closer.span) g.leaves shape) := by
  refine .node g.parts hg g.flatMap_parts.symm ?_ g.extent_parts hkind
  rw [g.bag_parts, helements]

/-- A name before a group. -/
theorem named {t : Token} {name : Node} {g : Group} (ht : Built [t] name)
    (hspan : name.span = t.span) (hg : ∀ p ∈ g.parts, Built p.1 p.2)
    (helements : shape.elements = name :: g.nodes) (hkind : shape.kind.isCompound) :
    Built (t :: g.tokens) (.mk (t.span.join g.closer.span) g.leaves shape) := by
  refine .node (([t], name) :: g.parts) (List.forall_mem_cons.mpr ⟨ht, hg⟩) (by simp) ?_ ?_ hkind
  · simp [helements, -Multiset.singleton_add]
    abel
  · rw [← hspan]
    exact extent_cons g.extent_parts

end Built

section Rules

attribute [local simp] Shape.elements Shape.fields Field.elements
attribute [-simp] Multiset.singleton_add

theorem Derives.built {c : Category} {ts : List Token} {n : Node} (h : Derives c ts n) :
    Built ts n := by
  have ofKind {k j : TokenKind} (hk : k = j) (hj : j.isSingle) : k.isSingle := by rwa [hk]
  have ofWord {k j : TokenKind} (hk : k = j) (hj : j.isWord) : k.isWord := by rwa [hk]
  induction h with
  | quoted _ ih | bareOperand _ ih | single _ _ ih | plainCommand _ ih | nestedType _ ih
  | literalArgument _ _ _ ih | stringAttribute _ ih | valueKey _ _ ih | stringTarget _ ih
  | referenceTarget _ _ ih | stringMatch _ ih | expressionStatement _ ih => exact ih
  | «variable» t hk | variableTarget t hk => exact .variableNode (.inr hk)
  | name t hk | referenceName t hk | namedTarget t hk => exact .ofName (.word (ofWord hk rfl)) _
  | integer t v hk hv =>
    exact .value (ofKind hk rfl) rfl rfl
      ⟨List.forall_mem_nil _, nofun, fun _ => ⟨hk, v, hv, rfl⟩⟩
  | float t hk | boolean t _ hk | undef t hk | default t hk | defaultMatch t hk =>
    exact .plain (ofKind hk rfl) rfl rfl rfl (List.forall_mem_nil _)
  | regex t hk | regexMatch t hk =>
    refine .plain (ofKind hk rfl) rfl rfl rfl (List.forall_mem_singleton.mpr ?_)
    exact (List.dropLast_prefix _).isInfix.trans (List.drop_suffix _ _).isInfix
  | word t hk | starAttribute t hk => exact .written (ofKind hk rfl) rfl rfl rfl rfl
  | bareVariable t hk => exact .variableNode (.inl (TokenKind.isWord_of_isPlainKeyword hk))
  | keywordKey t hk =>
    have hword := TokenKind.isWord_of_isPlainKeyword (.inr hk)
    exact .written (TokenKind.isSingle_of_isWord hword) rfl rfl rfl rfl
  | wordAttribute t hk =>
    have hword := TokenKind.isWord_of_isKeyword hk
    exact .written (TokenKind.isSingle_of_isWord hword) rfl rfl rfl rfl
  | string t inner hk hproper _ ih => exact .string t inner hk hproper ih
  | heredoc t tag b inner hk hb hproper _ ih => exact .heredoc t tag b inner hk hb hproper ih
  | array g hg hsep _ _ ih | hash g hg hsep _ ih | parameters g _ _ hg hsep _ ih
  | stringArray g hg hsep _ ih =>
    exact .group (Group.built hg hsep.single ih) (by simp) rfl
  | body g hg hsep _ ih =>
    have hseps : ∀ t ∈ g.inner.seps, t.kind.isSingle := by simp [hsep]
    exact .group (Group.built hg hseps ih) (by simp) rfl
  | nameArray g hg hsep hitems =>
    have ih : ∀ i ∈ g.inner.items, Built i.1 i.2 := by
      intro i hi
      obtain ⟨t, hk, rfl⟩ := hitems i hi
      exact .identifier (ofWord hk rfl)
    exact .group (Group.built hg hsep.single ih) (by simp) rfl
  | reference t g hk hg hsep _ _ ih | appliedType t g hk hg hsep _ ih
  | resourceDefaults t g hk hg hsep _ ih =>
    exact .named (.referenceIdentifier (ofWord hk rfl)) rfl (Group.built hg hsep.single ih)
      (by simp) rfl
  | binary _ t o ho _ _ _ _ _ _ ihl ihr =>
    exact .operation o (TokenKind.isSingle_of_binary? ho) ihl ihr
  | commandBinary t o ho _ _ _ _ ihl ihr =>
    exact .joined (TokenKind.isSingle_of_command? ho) ihl ihr (by simp) rfl
  | relation t arrow ha _ _ _ _ _ ihl ihr =>
    exact .joined (TokenKind.isSingle_of_chainArrow? ha) ihl ihr (by simp) rfl
  | assignment _ t hk _ _ _ ihl ihr | attributeItem t _ _ hk _ _ ihl ihr
  | selectorItem t _ _ hk _ _ ihl ihr | hashEntry t _ hk _ _ ihl ihr =>
    exact .joined (ofKind hk rfl) ihl ihr (by simp) rfl
  | @parenthesized opener closer ts n ho hc _ ih =>
    refine .node [sign opener, (ts, n), sign closer] ?_ (by simp) ?_ rfl rfl
    · simp [Built.sign (ofKind ho rfl), Built.sign (ofKind hc rfl), ih]
    · simp
      abel
  | functionCall t g block hk hg hsep _ _ ih ihb =>
    refine .node (([t], t.identifier) :: g.parts ++ block.toList) ?_ (by simp [tokensOf_eq]) ?_
      (extent_optional (extent_cons g.extent_parts) block) rfl
    · exact List.forall_mem_append.mpr ⟨List.forall_mem_cons.mpr
        ⟨.identifier (ofWord hk rfl), Group.built hg hsep.single ih⟩, built_optional ihb⟩
    · simp
      abel
  | collector t opener closer exported query attributes hk ho hc _ hg hsep _ ihq iha =>
    refine .node (([t], t.referenceIdentifier) :: sign opener :: query.toList ++ [sign closer] ++
      groupParts attributes) ?_ (by simp [tokensOf_eq]) ?_ (extent_group (extent_append
        (extent_run (extent_singleton _) (sign opener :: query.toList)) (extent_singleton _))
        attributes) rfl
    · simp only [List.forall_mem_append, List.forall_mem_cons]
      exact ⟨⟨⟨.referenceIdentifier (ofWord hk rfl), .sign (ofKind ho rfl), built_optional ihq⟩,
        .sign (ofKind hc rfl), List.forall_mem_nil _⟩,
        built_groupParts hg (fun g h => (hsep g h).single) iha⟩
    · simp
      abel
  | @indexAccess ts target g _ hg hsep _ _ iht ih =>
    refine .node ((ts, target) :: g.parts) ?_ (by simp) ?_ (extent_cons g.extent_parts) rfl
    · exact List.forall_mem_cons.mpr ⟨iht, Group.built hg hsep.single ih⟩
    · simp
      abel
  | @methodCall ts receiver dot t arguments block _ hdot hk hg hsep _ _ ihr iha ihb =>
    have hword := TokenKind.isWord_of_isKeyword hk
    refine .node ((ts, receiver) :: sign dot :: ([t], t.identifier) :: groupParts arguments ++
      block.toList) ?_ (by simp [tokensOf_eq]) ?_ (extent_optional (extent_group (extent_cons
        (extent_cons (extent_singleton ([t], t.identifier)))) arguments) block) rfl
    · simp only [List.forall_mem_append, List.forall_mem_cons]
      exact ⟨⟨ihr, .sign (ofKind hdot rfl), .identifier hword,
        built_groupParts hg (fun g h => (hsep g h).single) iha⟩, built_optional ihb⟩
    · simp
      abel
  | @selector ts subject question g _ hq hg hsep _ _ ihs ih =>
    refine .node ((ts, subject) :: sign question :: g.parts) ?_ (by simp) ?_
      (extent_cons (extent_cons g.extent_parts)) rfl
    · exact List.forall_mem_cons.mpr ⟨ihs, List.forall_mem_cons.mpr
        ⟨.sign (ofKind hq rfl), Group.built hg hsep.single ih⟩⟩
    · simp
      abel
  | @prefixed t o ts n ho _ ih =>
    have hsign := Built.sign (TokenKind.isSingle_of_unary? ho)
    exact .node [sign t, (ts, n)] (by simp [hsign, ih]) (by simp) (by simp) rfl rfl
  | typeName t hk =>
    have hname := Built.referenceIdentifier (ofWord hk rfl)
    exact .node [([t], t.referenceIdentifier)] (by simp [hname]) (by simp) (by simp) rfl rfl
  | parameter first t type star value _ hstar hk hequals _ _ hfirst iht ihv =>
    have hmarks : ∀ p ∈ signs star.toList, Built p.1 p.2 :=
      List.forall_mem_map.mpr fun x hx => .sign (ofKind (hstar x (Option.mem_toList.mp hx)) rfl)
    obtain ⟨s, hs⟩ := extent_concat (type.toList ++ signs star.toList) ([t], t.variableNode)
    refine .from_first (type.toList ++ signs star.toList ++ [([t], t.variableNode)] ++
      markedParts value) ?_ (by simp [tokensOf_eq]) ?_ (extent_marked hs value) ?_ rfl
    · simp only [List.forall_mem_append, List.forall_mem_cons]
      exact ⟨⟨⟨built_optional iht, hmarks⟩, .variableNode (.inr hk), List.forall_mem_nil _⟩,
        built_markedParts (fun x hx => ofKind (hequals x hx) rfl) ihv⟩
    · cases value <;> simp <;> abel
    · rw [List.append_cons, List.head?_append, hfirst]
      rfl
  | @lambda parameters ts block _ _ ihp ihb =>
    refine .node (parameters.toList ++ [(ts, block)]) ?_ (by simp [tokensOf_eq]) ?_ ?_ rfl
    · exact List.forall_mem_append.mpr ⟨built_optional ihp, List.forall_mem_singleton.mpr ihb⟩
    · simp
    · cases parameters <;> rfl
  | @elsif keyword cs bs test block hk _ _ ihc ihb =>
    refine .node [sign keyword, (cs, test), (bs, block)] ?_ (by simp) (by simp) rfl rfl
    simp [Built.sign (ofKind hk rfl), ihc, ihb]
  | @otherwise keyword bs block hk _ ihb =>
    have hsign := Built.sign (ofKind hk rfl)
    exact .node [sign keyword, (bs, block)] (by simp [hsign, ihb]) (by simp) (by simp) rfl rfl
  | @ifStatement keyword cs bs test block elsifs other hk _ _ _ _ ihc ihb ihe iho =>
    refine .node (sign keyword :: (cs, test) :: [(bs, block)] ++ elsifs ++ other.toList) ?_
      (by simp [tokensOf_eq]) ?_ (extent_optional (extent_run (extent_cons (extent_cons
        (extent_singleton (bs, block)))) elsifs) other) rfl
    · simp only [List.forall_mem_append, List.forall_mem_cons]
      exact ⟨⟨⟨.sign (ofKind hk rfl), ihc, ihb, List.forall_mem_nil _⟩, ihe⟩, built_optional iho⟩
    · simp
  | @unlessStatement keyword cs bs test block other hk _ _ _ ihc ihb iho =>
    refine .node (sign keyword :: (cs, test) :: [(bs, block)] ++ other.toList) ?_
      (by simp [tokensOf_eq]) (by simp) (extent_optional (extent_cons (extent_cons
        (extent_singleton (bs, block)))) other) rfl
    simp only [List.forall_mem_append, List.forall_mem_cons]
    exact ⟨⟨.sign (ofKind hk rfl), ihc, ihb, List.forall_mem_nil _⟩, built_optional iho⟩
  | @caseItem first colon options bs block hsep _ _ _ hfirst hk _ ih ihb =>
    obtain ⟨s, hs⟩ := extent_concat (options.parts ++ [sign colon]) (bs, block)
    refine .from_first (options.parts ++ [sign colon] ++ [(bs, block)]) ?_ (by simp) ?_ hs ?_
      rfl
    · simp only [List.forall_mem_append, List.forall_mem_cons]
      exact ⟨⟨Series.built hsep.single ih, .sign (ofKind hk rfl), List.forall_mem_nil _⟩, ihb,
        List.forall_mem_nil _⟩
    · simp
      abel
    · rw [List.head?_append, hfirst]
      rfl
  | @caseDefault keyword colon bs block hk hc _ ihb =>
    refine .node [sign keyword, sign colon, (bs, block)] ?_ (by simp) ?_ rfl rfl
    · simp [Built.sign (ofKind hk rfl), Built.sign (ofKind hc rfl), ihb]
    · simp [add_assoc]
  | @caseStatement keyword ss subject g hk _ hg hsep _ _ ihs ih =>
    have hseps : ∀ t ∈ g.inner.seps, t.kind.isSingle := by simp [hsep]
    refine .node (sign keyword :: (ss, subject) :: g.parts) ?_ (by simp) ?_
      (extent_cons (extent_cons g.extent_parts)) rfl
    · exact List.forall_mem_cons.mpr ⟨.sign (ofKind hk rfl), List.forall_mem_cons.mpr
        ⟨ihs, Group.built hg hseps ih⟩⟩
    · simp
      abel
  | composition keyword verb targets hk hsep htight _ ih =>
    have hspan := extent_run (extent_singleton (sign keyword)) targets.parts
    rw [htight.getLast?] at hspan
    refine .node ([sign keyword] ++ targets.parts) ?_ (by simp) ?_ hspan rfl
    · exact List.forall_mem_append.mpr ⟨List.forall_mem_singleton.mpr (.sign (ofKind hk rfl)),
        Series.built hsep.single ih⟩
    · simp
      abel
  | @declaration keyword name k parameters parent bs block hk hn _ hi hp _ ihp ihb =>
    have ihi : ∀ q ∈ parent.map fun p => ([p.1, p.2], Node.mk (p.1.span.join p.2.span)
        [p.1.leaf] (.inheritance p.2.identifier)), Built q.1 q.2 := by
      intro q hq
      obtain ⟨p, hmem, rfl⟩ := Option.mem_map.mp hq
      have hname := Built.identifier (ofWord (hp p hmem) rfl)
      exact .node [sign p.1, ([p.2], p.2.identifier)]
        (by simp [hname, Built.sign (ofKind (hi p hmem) rfl)]) (by simp) (by simp) rfl rfl
    refine .node ([sign keyword] ++ (([name], name.identifier) :: parameters.toList ++
      (parent.map fun p => ([p.1, p.2], Node.mk (p.1.span.join p.2.span) [p.1.leaf]
        (.inheritance p.2.identifier))).toList) ++ [(bs, block)]) ?_ ?_ ?_
      (extent_append (extent_run (extent_singleton _) _) (extent_singleton _)) rfl
    · simp only [List.forall_mem_append, List.forall_mem_cons]
      exact ⟨⟨⟨.sign (ofKind hk rfl), List.forall_mem_nil _⟩, ⟨.identifier (ofWord hn rfl),
        built_optional ihp⟩, built_optional ihi⟩, ihb, List.forall_mem_nil _⟩
    · cases parent <;> simp [tokensOf_eq]
    · cases parent <;> simp
  | @typeDeclaration keyword name equals ts type hk hn he _ iht =>
    refine .node [sign keyword, ([name], name.referenceIdentifier), sign equals, (ts, type)] ?_
      (by simp) ?_ rfl rfl
    · simp [Built.sign (ofKind hk rfl), Built.sign (ofKind he rfl), iht,
        Built.referenceIdentifier (ofWord hn rfl)]
    · simp
      abel
  | @functionDeclaration keyword name parameters result bs block hk hn _ hr _ _ ihp ihr ihb =>
    refine .node ([sign keyword] ++ (([name], name.identifier) :: parameters.toList ++
      markedParts result) ++ [(bs, block)]) ?_ (by simp [tokensOf_eq]) ?_
      (extent_append (extent_run (extent_singleton _) _) (extent_singleton _)) rfl
    · simp only [List.forall_mem_append, List.forall_mem_cons]
      exact ⟨⟨⟨.sign (ofKind hk rfl), List.forall_mem_nil _⟩, ⟨.identifier (ofWord hn rfl),
        built_optional ihp⟩, built_markedParts (fun x hx => ofKind (hr x hx) rfl) ihr⟩, ihb,
        List.forall_mem_nil _⟩
    · simp
      abel
  | @nodeDefinition keyword hosts bs block hk hsep _ _ _ ih ihb =>
    refine .node ([sign keyword] ++ hosts.parts ++ [(bs, block)]) ?_ (by simp) ?_
      (extent_append (extent_run (extent_singleton _) _) (extent_singleton _)) rfl
    · simp only [List.forall_mem_append, List.forall_mem_cons]
      exact ⟨⟨⟨.sign (ofKind hk rfl), List.forall_mem_nil _⟩, Series.built hsep.single ih⟩, ihb,
        List.forall_mem_nil _⟩
    · simp
      abel
  | @resourceBody colon ts title attributes _ _ hc hsep _ iht ih =>
    refine .assembled ([(ts, title), sign colon] ++ attributes.parts)
      ⟨by simp, by simp, ⟨rfl, rfl⟩, List.forall_mem_nil _, ?_, fun source hrow _ => ?_⟩ ?_
    · simp [Node.tokens, Node.shape]
      abel
    · rw [List.map_append] at hrow
      show _ = some (title.span.join (attributes.stopAfter colon.span))
      rw [hsep.stopAfter colon.span hrow.of_append.2.1]
      exact extent_run (extent_cons (extent_singleton (sign colon))) attributes.parts
    · simp only [List.forall_mem_append, List.forall_mem_cons]
      exact ⟨⟨iht, .sign (ofKind hc rfl), List.forall_mem_nil _⟩, Series.built hsep.single ih⟩
  | resourceCall mark t form g hmark hform hk hg hsep _ _ ih =>
    have hword : t.kind.isWord := hk.elim (ofWord · rfl) (ofWord · rfl)
    have hmarks : ∀ p ∈ signs mark.toList, Built p.1 p.2 := by
      refine List.forall_mem_map.mpr fun x hx => .sign ?_
      have hx : mark = some x := Option.mem_toList.mp hx
      refine TokenKind.isSingle_of_resourceForm ?_
      rw [← hmark x hx, Ne, ← hform, hx]
      exact Option.some_ne_none x
    refine .node (signs mark.toList ++ ([t], t.identifier) :: g.parts) ?_ (by simp) ?_ ?_ rfl
    · simp only [List.forall_mem_append, List.forall_mem_cons]
      exact ⟨hmarks, .identifier hword, Group.built hg hsep.single ih⟩
    · simp
      abel
    · cases mark with
      | none => exact extent_cons g.extent_parts
      | some x => exact extent_cons (extent_cons g.extent_parts)

end Rules

end Parse

end ManifestTree
