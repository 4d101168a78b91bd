import ManifestTree.Proofs.ForkedTexts
import ManifestTree.Proofs.ScanMoves

/-!
# Two scans of the same characters

Two scans come to the same characters in two texts that part after them.  `ScanState.Beside` relates
their states: from where both began they have found the same tokens and comments, under a view of
each.  A step of the first scan within the common characters is a step of the second, and so is a run
of the inside of an interpolation.  Heredocs at the level of the sources are left out here.
-/

namespace ManifestTree

open Text

variable {k : Fork}

/-! ## Steps -/

namespace ScanState

variable {nested nested' : NestedScan} {a a' s s' r r' : ScanState} {n : Nat} {w : Text}

/-- Some items were added to either list, and they look the same. -/
def Grown {α : Type} (f g : α → α) (a a' xs xs' : List α) : Prop :=
  ∃ new new', xs = new ++ a ∧ xs' = new' ++ a' ∧ new'.map g = new.map f

theorem Grown.refl {α : Type} (f g : α → α) (a a' : List α) : Grown f g a a' a a' :=
  ⟨[], [], rfl, rfl, rfl⟩

theorem Grown.cons {α : Type} {f g : α → α} {a a' xs xs' : List α} (h : Grown f g a a' xs xs')
    {x x' : α} (hx : g x' = f x) : Grown f g a a' (x :: xs) (x' :: xs') := by
  obtain ⟨new, new', rfl, rfl, hmap⟩ := h
  exact ⟨x :: new, x' :: new', rfl, rfl, by rw [List.map_cons, List.map_cons, hx, hmap]⟩

/-- What was added is as much in either list. -/
theorem Grown.added {α : Type} {f g : α → α} {a a' xs xs' new : List α}
    (h : Grown f g a a' xs xs') (hx : xs = new ++ a) :
    ∃ new', xs' = new' ++ a' ∧ new'.map g = new.map f := by
  obtain ⟨new₁, new', hnew, rfl, hmap⟩ := h
  rw [hx] at hnew
  rw [← List.append_cancel_right hnew] at hmap
  exact ⟨new', rfl, hmap⟩

theorem Grown.single {α : Type} {f g : α → α} {a a' xs xs' : List α} (h : Grown f g a a' xs xs')
    {x : α} (hx : xs = x :: a) : ∃ x', xs' = x' :: a' ∧ g x' = f x := by
  obtain ⟨new', rfl, hmap⟩ := h.added (show xs = [x] ++ a from hx)
  obtain ⟨x', rfl⟩ := List.length_eq_one_iff.mp
    (by simpa using congrArg List.length hmap : new'.length = 1)
  exact ⟨x', rfl, List.head_eq_of_cons_eq hmap⟩

/-- A scan goes on from a state without opening or reading a heredoc. -/
structure Keeps (a s : ScanState) : Prop where
  opener : s.opener = a.opener
  queue : s.queue = a.queue
  bodies : s.bodies = a.bodies

/-- From the states `a` and `a'` on, both scans have found the same, and they have the characters
`w` before them until the texts part.  The brace that ends the second scan ends the first. -/
structure Beside (k : Fork) (a a' : ScanState) (w : Text) (s s' : ScanState) : Prop where
  cursor : s.cursor.Beside k w s'.cursor
  last : s'.last.any TokenKind.endsValue = s.last.any TokenKind.endsValue
  closes : s'.opener.isSome → s.opener.isSome ∧ s'.depth = s.depth
  tokens : Grown (Token.seen k.left) (Token.seen k.right) a.tokens a'.tokens s.tokens s'.tokens
  comments : Grown (Token.seen k.left) (Token.seen k.right) a.comments a'.comments s.comments
    s'.comments
  keeps : a.Keeps s ∧ a'.Keeps s'

/-- The states agree after characters that are neither a token nor a comment. -/
theorem Beside.move (h : Beside k a a' w s s') {c c' : Cursor} {v : Text}
    (hc : c.Beside k v c') : Beside k a a' v { s with cursor := c } { s' with cursor := c' } :=
  { h with cursor := hc, keeps := ⟨{ h.keeps.1 with }, { h.keeps.2 with }⟩ }

theorem Beside.emit (hk : k.Lawful) (h : Beside k a a' w s s') {after after' : Cursor}
    {v cs : Text} (hafter : after.Beside k v after') (hr : s.cursor.Reads cs after)
    (kind : TokenKind) {detail detail' : TokenDetail}
    (hdetail : detail'.seen k.right = detail.seen k.left) :
    Beside k a a' v (s.emit kind after detail) (s'.emit kind after' detail') where
  cursor := hafter
  last := rfl
  closes ho := by
    obtain ⟨hopener, hdepth⟩ := h.closes ho
    refine ⟨hopener, ?_⟩
    show depthAfter s'.depth kind = depthAfter s.depth kind
    rw [hdepth]
  tokens := h.tokens.cons (h.cursor.token hk hafter hr kind hdetail)
  comments := h.comments
  keeps := ⟨{ h.keeps.1 with }, { h.keeps.2 with }⟩

/-- A plain token of `j` characters. -/
theorem Beside.emit_plain (hk : k.Lawful) (h : Beside k a a' w s s') {j : Nat}
    (hj : j ≤ w.length) (kind : TokenKind) :
    Beside k a a' (w.drop j) (s.emit kind (s.cursor.skip j) .plain)
      (s'.emit kind (s'.cursor.skip j) .plain) :=
  h.emit hk (h.cursor.skip hk hj) (Cursor.reads_skip _ _) kind rfl

theorem Beside.emitComment (hk : k.Lawful) (h : Beside k a a' w s s') {j : Nat}
    (hj : j ≤ w.length) :
    Beside k a a' (w.drop j) (s.emitComment (s.cursor.skip j))
      (s'.emitComment (s'.cursor.skip j)) :=
  { h with
    cursor := h.cursor.skip hk hj
    comments := h.comments.cons
      (h.cursor.token hk (h.cursor.skip hk hj) (Cursor.reads_skip _ j) .comment rfl)
    keeps := ⟨{ h.keeps.1 with }, { h.keeps.2 with }⟩ }

/-- The second scan answers so that its state is beside the state of the first. -/
def Follows (k : Fork) (a a' r : ScanState) (x : Except Failure ScanState) : Prop :=
  ∃ r' v, x = .ok r' ∧ Beside k a a' v r r'

theorem readVariable_beside (hk : k.Lawful) (h : Beside k a a' w s s')
    (hr : s.readVariable = .ok r) (hleft : k.rest.length ≤ r.cursor.rest.length) :
    Follows k a a' r s'.readVariable := by
  unfold readVariable at hr
  split at hr
  · rename_i j hj
    cases hr
    have hle := h.cursor.le_of_skip (Lexeme.variableLength?_local.within hj) hleft
    rw [h.cursor.rest] at hj
    unfold Follows readVariable
    rw [h.cursor.other, Lexeme.variableLength?_local.found_cut hk.cuts hj hle]
    exact ⟨_, _, rfl, h.emit_plain hk hle .variable⟩
  · cases hr

theorem stop_quotedReading (quote : CodePoint) (o : Span) :
    (quotedReading quote o).stop = .quote quote o := by
  unfold quotedReading
  split <;> rfl

/-- A string is read in the same way wherever it begins. -/
theorem quotedReading_beside (quote : CodePoint) (o o' : Span) (c c' : Cursor) :
    (quotedReading quote o).Beside c c' (quotedReading quote o') where
  escapes := by
    unfold quotedReading
    split <;> rfl
  interpolate := by
    unfold quotedReading
    split <;> rfl
  stop := by
    rw [stop_quotedReading, stop_quotedReading]
    rfl

theorem readString_beside (hk : k.Lawful) (hn : nested.Sound) (hs : nested.Beside k n nested')
    (h : Beside k a a' w s s') {quote : CodePoint} (hw : w ≠ []) (hlen : s'.cursor.rest.length ≤ n)
    (hr : s.readString nested quote = .ok r) (hleft : k.rest.length ≤ r.cursor.rest.length) :
    Follows k a a' r (s'.readString nested' quote) := by
  unfold readString at hr
  obtain ⟨⟨fs, close⟩, hscan, hr⟩ := bind_eq_ok.mp hr
  cases hr
  have hone : 1 ≤ w.length := List.length_pos_iff.mpr hw
  have hopen := h.cursor.skip hk hone
  have hscanned := Fragments.scan_scanned hn hscan
  obtain ⟨inside, hread, -⟩ := hscanned.tiles
  obtain ⟨rest, hclose⟩ : ∃ rest, close.rest = quote :: rest := by
    rcases hscanned.stops with hholds | ⟨-, m, hm⟩
    · simp only [stop_quotedReading, Fragments.Stop.holds, decide_eq_true_eq] at hholds
      exact List.head?_eq_some_iff.mp hholds
    · rw [stop_quotedReading] at hm
      cases hm
  have hleft : k.rest.length ≤ (close.skip 1).rest.length := hleft
  have hwithin : 1 ≤ close.rest.length := by
    rw [hclose]
    exact Nat.succ_pos _
  have hbeyond : k.rest.length < close.rest.length := by
    simp only [Cursor.skip, List.length_drop] at hleft
    omega
  have hinside : (s'.cursor.skip 1).rest.length ≤ n := by
    simp only [Cursor.skip, List.length_drop]
    omega
  obtain ⟨fs', close', v, hok, hmap, hlast⟩ := Fragments.scan_beside hk hn hs
    (quotedReading_beside quote (s.cursor.here 1) (s'.cursor.here 1) _ _) hopen hinside hscan
    (.inl hbeyond)
  have hafter := hlast.skip hk (hlast.le_of_skip hwithin hleft)
  have hwhole := (Cursor.reads_skip s.cursor 1).trans
    (hread.trans (Cursor.reads_skip_one hclose))
  refine ⟨s'.emit .string (close'.skip 1) (.fragments fs'), v.drop 1, ?_, ?_⟩
  · unfold readString
    dsimp only
    rw [hok]
    rfl
  · refine h.emit hk hafter hwhole .string ?_
    rw [TokenDetail.seen_fragments, TokenDetail.seen_fragments, hmap]

theorem readNumber_beside (hk : k.Lawful) (h : Beside k a a' w s s')
    (hr : s.readNumber = .ok r) (hleft : k.rest.length ≤ r.cursor.rest.length) :
    Follows k a a' r s'.readNumber := by
  unfold readNumber at hr
  split at hr
  · cases hr
  rename_i j form hj
  dsimp only at hr
  split at hr
  · cases hr
  rename_i hword
  split at hr
  · cases hr
  rename_i hoctal
  cases hr
  have hle := h.cursor.le_of_skip (Lexeme.number?_local.within hj) hleft
  have hafter := h.cursor.skip hk hle
  rw [← h.cursor.upTo hafter (Cursor.reads_skip _ _)] at hoctal
  have hword : ¬ (s'.cursor.skip j).rest.head?.any isWord := by
    rw [hafter.other]
    rw [hafter.rest] at hword
    cases hv : w.drop j with
    | cons c cs =>
      rw [hv] at hword
      exact hword
    | nil =>
      rw [hv, List.nil_append] at hword
      rw [List.nil_append]
      rcases hk.cuts.head? with hhead | hsep
      · rwa [hhead]
      · cases hc : k.other.head? with
        | none => simp
        | some c => rcases hsep c hc with rfl | rfl <;> decide
  rw [h.cursor.rest] at hj
  unfold Follows readNumber
  rw [h.cursor.other, Lexeme.number?_local.found_cut hk.cuts hj hle]
  dsimp only
  rw [if_neg hword, if_neg hoctal]
  exact ⟨_, _, rfl, h.emit_plain hk hle (numberKind form)⟩

theorem readHeredocTag_next (hr : s.readHeredocTag = .ok r) :
    r.queue.next = s.queue.next + 1 := by
  unfold readHeredocTag at hr
  dsimp only at hr
  split at hr
  · cases hr
  split at hr
  · cases hr
  obtain ⟨⟨pending, queue⟩, henqueue, hr⟩ := bind_eq_ok.mp hr
  cases hr
  obtain ⟨tag, -, rfl⟩ := HeredocQueue.enqueue_ok henqueue
  rfl

theorem readSymbol_beside (hk : k.Lawful) (h : Beside k a a' w s s') {c : CodePoint}
    (hr : s.readSymbol c = .ok r) (hleft : k.rest.length ≤ r.cursor.rest.length) :
    Follows k a a' r (s'.readSymbol c) := by
  unfold readSymbol at hr
  split at hr
  · rename_i symbol hsymbol
    cases hr
    have hle := h.cursor.le_of_skip (Symbol.leading?_local.within hsymbol) hleft
    rw [h.cursor.rest] at hsymbol
    unfold Follows readSymbol
    rw [h.cursor.other, Symbol.leading?_local.found_cut hk.cuts hsymbol hle]
    exact ⟨_, _, rfl, h.emit_plain hk hle (.symbol symbol)⟩
  · cases hr

theorem readWord_beside (hk : k.Lawful) (h : Beside k a a' w s s') {c : CodePoint}
    (hr : s.readWord c = .ok r) (hleft : k.rest.length ≤ r.cursor.rest.length) :
    Follows k a a' r (s'.readWord c) := by
  have found {j : Nat} (hj : s.regexLength? = some j) (hle : j ≤ w.length) :
      s'.regexLength? = some j := by
    unfold regexLength? at hj ⊢
    rw [h.last, h.cursor.other]
    rw [h.cursor.rest] at hj
    split at hj
    · cases hj
    · rw [if_neg ‹_›]
      exact Lexeme.regexLength?_local.found_any hj hle _
  have missed (hj : s.regexLength? = none) : s'.regexLength? = none := by
    unfold regexLength? at hj ⊢
    rw [h.last, h.cursor.other]
    rw [h.cursor.rest] at hj
    split at hj
    · rw [if_pos ‹_›]
    · rw [if_neg ‹_›]
      exact hk.regex w hj
  unfold Follows readWord
  unfold readWord at hr
  split at hr
  · rename_i j hj
    cases hr
    have hwithin : j ≤ s.cursor.rest.length := by
      unfold regexLength? at hj
      split at hj
      · cases hj
      · exact Lexeme.regexLength?_local.within hj
    have hle := h.cursor.le_of_skip hwithin hleft
    rw [found hj hle]
    exact ⟨_, _, rfl, h.emit_plain hk hle .regex⟩
  rename_i hnone
  rw [missed hnone]
  dsimp only
  split at hr
  · rename_i j hj
    cases hr
    have hle : j ≤ w.length := h.cursor.le_of_skip (Lexeme.nameLength?_local.within hj) hleft
    rw [h.cursor.rest] at hj
    have hj' := Lexeme.nameLength?_local.found_cut hk.cuts hj hle
    rw [h.cursor.rest, List.take_append_of_le_length hle]
    rw [h.cursor.other, hj']
    dsimp only
    rw [List.take_append_of_le_length hle]
    exact ⟨_, _, rfl, h.emit_plain hk hle _⟩
  rename_i hname
  have hname' : Lexeme.nameLength? s'.cursor.rest = none := by
    rw [h.cursor.rest] at hname
    rw [h.cursor.other]
    exact Lexeme.nameLength?_local.missed_cut hk.cuts hname
  rw [hname']
  dsimp only
  split at hr
  · rename_i j hj
    cases hr
    have hle := h.cursor.le_of_skip (Lexeme.referenceLength?_local.within hj) hleft
    rw [h.cursor.rest] at hj
    rw [h.cursor.other, Lexeme.referenceLength?_local.found_cut hk.cuts hj hle]
    exact ⟨_, _, rfl, h.emit_plain hk hle .reference⟩
  rename_i href
  have href' : Lexeme.referenceLength? s'.cursor.rest = none := by
    rw [h.cursor.rest] at href
    rw [h.cursor.other]
    exact Lexeme.referenceLength?_local.missed_cut hk.cuts href
  rw [href']
  exact readSymbol_beside hk h hr hleft

/-- Where the texts part no character comes next in the second alone, but for spaces and line
ends. -/
theorem head?_beside (hk : k.Lawful) {v : Text} {c : CodePoint} (hc : c ≠ ' ' ∧ c ≠ '\n')
    (h : (v ++ k.other).head? = some c) : (v ++ k.rest).head? = some c := by
  cases v with
  | cons d ds => exact h
  | nil =>
    rw [List.nil_append] at h ⊢
    rcases hk.cuts.head? with hhead | hsep
    · rwa [hhead] at h
    · exact ((hsep c h).elim hc.1 hc.2).elim

theorem readToken_beside (hk : k.Lawful) (hn : nested.Sound) (hs : nested.Beside k n nested')
    (h : Beside k a a' w s s') {c : CodePoint} {cs : Text} (hw : w = c :: cs)
    (hlen : s'.cursor.rest.length ≤ n) (hr : s.readToken nested c = .ok r)
    (hplain : r.queue.next = s.queue.next) (hleft : k.rest.length ≤ r.cursor.rest.length) :
    Follows k a a' r (s'.readToken nested' c) := by
  have htag : s'.cursor.rest[1]? = some (.char '(') → s.cursor.rest[1]? = some (.char '(') := by
    rw [h.cursor.other, h.cursor.rest, hw]
    rw [List.cons_append, List.cons_append, List.getElem?_cons_succ, List.getElem?_cons_succ,
      ← List.head?_eq_getElem?, ← List.head?_eq_getElem?]
    exact head?_beside hk (by decide)
  unfold readToken at hr ⊢
  by_cases hvariable : c = '$'
  · rw [if_pos hvariable] at hr ⊢
    exact readVariable_beside hk h hr hleft
  rw [if_neg hvariable] at hr ⊢
  by_cases hquote : (c = doubleQuote || c = apostrophe) = true
  · rw [if_pos hquote] at hr ⊢
    exact readString_beside hk hn hs h (by rw [hw]; simp) hlen hr hleft
  rw [if_neg hquote] at hr ⊢
  by_cases hdigit : isDigit c = true
  · rw [if_pos hdigit] at hr ⊢
    exact readNumber_beside hk h hr hleft
  rw [if_neg hdigit] at hr ⊢
  by_cases hopen : (c = '@' && s.cursor.rest[1]? = some (.char '(')) = true
  · rw [if_pos hopen] at hr
    have := readHeredocTag_next hr
    omega
  · have hopen' : ¬ (c = '@' && s'.cursor.rest[1]? = some (.char '(')) = true := by
      simp only [Bool.and_eq_true, decide_eq_true_eq] at hopen ⊢
      exact fun h => hopen ⟨h.1, htag h.2⟩
    rw [if_neg hopen] at hr
    rw [if_neg hopen']
    exact readWord_beside hk h hr hleft

theorem resolveHeredocs_idle (h : s.queue.waiting = []) : s.resolveHeredocs nested = .ok s := by
  obtain ⟨cursor, opener, depth, last, tokens, comments, ⟨next, waiting⟩, bodies⟩ := s
  obtain rfl : waiting = [] := h
  simp [resolveHeredocs, resolveAll, Bind.bind, Except.bind, Pure.pure, Except.pure]

/-- A line end is no more than a blank where no heredoc waits. -/
theorem newline_idle (h : s.queue.waiting = []) : s.newline nested = .ok s.blank :=
  resolveHeredocs_idle (s := s.blank) h

/-- A comment to the end of its line that ends in the common part. -/
theorem lineComment_beside (hk : k.Lawful) (h : Beside k a a' w s s')
    (hleft : k.rest.length ≤ s.lineComment.cursor.rest.length) :
    ∃ v, Beside k a a' v s.lineComment s'.lineComment := by
  have hle : (s.cursor.rest.takeWhile (· ≠ .char '\n')).length ≤ w.length :=
    h.cursor.le_of_skip (List.takeWhile_sublist _).length_le hleft
  have hrun : s'.cursor.rest.takeWhile (· ≠ .char '\n') =
      s.cursor.rest.takeWhile (· ≠ .char '\n') := by
    have ends (t : Text) (ht : t = [] ∨ t.head? = some (.char '\n')) :
        t.takeWhile (· ≠ .char '\n') = [] := by
      rcases ht with rfl | ht
      · rfl
      · obtain ⟨t, rfl⟩ := List.head?_eq_some_iff.mp ht
        rfl
    rw [h.cursor.rest] at hle ⊢
    rw [h.cursor.other, takeWhile_append_of_length_le _ _ hle, List.takeWhile_append]
    split
    · rename_i hall
      have hline : k.rest = [] ∨ k.rest.head? = some (.char '\n') := by
        rw [List.takeWhile_append, if_pos hall, List.length_append] at hle
        cases hrest : k.rest with
        | nil => exact .inl rfl
        | cons c cs =>
          refine .inr ?_
          by_contra hc
          have hc : c ≠ '\n' := fun hcn => hc (by rw [hcn]; rfl)
          rw [hrest, List.takeWhile_cons, if_pos (by simpa using hc), List.length_cons] at hle
          omega
      rw [ends _ (hk.lines hline), List.append_nil]
      exact ((List.takeWhile_prefix _).eq_of_length hall).symm
    · rfl
  refine ⟨w.drop (s.cursor.rest.takeWhile (· ≠ .char '\n')).length, ?_⟩
  unfold lineComment Cursor.skipWhile
  rw [hrun]
  exact h.emitComment hk hle

/-- A comment between signs that ends in the common part. -/
theorem blockComment_beside (hk : k.Lawful) (h : Beside k a a' w s s')
    (hopen : 2 ≤ s.cursor.rest.length) (hr : s.blockComment = .ok r)
    (hleft : k.rest.length ≤ r.cursor.rest.length) :
    2 ≤ w.length ∧ Follows k a a' r s'.blockComment := by
  unfold blockComment at hr
  split at hr
  · rename_i j hj
    cases hr
    have hwithin : j + 2 ≤ s.cursor.rest.length := by
      have : j ≤ (s.cursor.rest.drop 2).length := blockLength?_local.within hj
      rw [List.length_drop] at this
      omega
    have hle := h.cursor.le_of_skip hwithin hleft
    have htwo : 2 ≤ w.length := Nat.le_of_add_left_le hle
    rw [h.cursor.rest, List.drop_append_of_le_length htwo] at hj
    have hj' := blockLength?_local.found_any hj (by
      rw [List.length_drop]
      exact Nat.le_sub_of_add_le hle) k.other
    refine ⟨htwo, ?_⟩
    unfold Follows blockComment
    rw [h.cursor.other, List.drop_append_of_le_length htwo, hj']
    exact ⟨_, _, rfl, h.emitComment hk hle⟩
  · cases hr

/-- A step of the first scan within the common part is a step of the second, unless it opens a
heredoc or passes a line end after one. -/
theorem step_beside (hk : k.Lawful) (hn : nested.Sound) (hs : nested.Beside k n nested')
    (h : Beside k a a' w s s') (hw : w ≠ []) (hlen : s'.cursor.rest.length ≤ n)
    (hidle : w.head? = some (.char '\n') → a.queue.waiting = [] ∧ a'.queue.waiting = [])
    (hstep : s.step nested = .ok (some r)) (hplain : r.queue.next = s.queue.next)
    (hleft : k.rest.length ≤ r.cursor.rest.length) :
    ∃ r' v, s'.step nested' = .ok (some r') ∧ Beside k a a' v r r' := by
  have continued {x : Except Failure ScanState} (hx : Follows k a a' r x) :
      ∃ r' v, some <$> x = .ok (some r') ∧ Beside k a a' v r r' := by
    obtain ⟨r', v, rfl, hr⟩ := hx
    exact ⟨r', v, rfl, hr⟩
  obtain ⟨c, cs, rfl⟩ := List.exists_cons_of_ne_nil hw
  have hblank := h.move (h.cursor.skip hk (Nat.succ_le_succ (Nat.zero_le cs.length)))
  have hrest : s.cursor.rest = c :: (cs ++ k.rest) := h.cursor.rest
  have hother : s'.cursor.rest = c :: (cs ++ k.other) := h.cursor.other
  unfold step at hstep ⊢
  rw [hrest] at hstep
  rw [hother]
  dsimp only at hstep ⊢
  by_cases hline : c = '\n'
  · subst hline
    obtain ⟨hwaiting, hwaiting'⟩ := hidle rfl
    rw [if_pos rfl, newline_idle (by rw [h.keeps.1.queue, hwaiting])] at hstep
    rw [if_pos rfl, newline_idle (by rw [h.keeps.2.queue, hwaiting'])]
    cases hstep
    exact ⟨_, _, rfl, hblank⟩
  rw [if_neg hline] at hstep ⊢
  by_cases hspace : (c = ' ' || c = '\t' || c = '\r') = true
  · rw [if_pos hspace] at hstep ⊢
    cases hstep
    exact ⟨_, _, rfl, hblank⟩
  rw [if_neg hspace] at hstep ⊢
  by_cases hhash : c = '#'
  · rw [if_pos hhash] at hstep ⊢
    cases hstep
    obtain ⟨v, hv⟩ := lineComment_beside hk h hleft
    exact ⟨_, v, rfl, hv⟩
  rw [if_neg hhash] at hstep ⊢
  by_cases hopen : (c = '/' && (cs ++ k.rest).head? = some (.char '*')) = true
  · rw [if_pos hopen] at hstep
    simp only [Bool.and_eq_true, decide_eq_true_eq] at hopen
    have hlong : 2 ≤ s.cursor.rest.length := by
      obtain ⟨ds, hds⟩ := List.head?_eq_some_iff.mp hopen.2
      rw [hrest, hds]
      exact Nat.le_add_left _ _
    obtain ⟨htwo, hfollows⟩ :=
      blockComment_beside hk h hlong (some_map_eq_ok.mp hstep) hleft
    have hopen' : (cs ++ k.other).head? = some (.char '*') := by
      match cs, htwo with
      | d :: ds, _ => exact hopen.2
    rw [if_pos (by simp [hopen.1, hopen'])]
    exact continued hfollows
  have hopen' : ¬ (c = '/' && (cs ++ k.other).head? = some (.char '*')) = true := by
    simp only [Bool.and_eq_true, decide_eq_true_eq] at hopen ⊢
    exact fun h => hopen ⟨h.1, head?_beside hk (by decide) h.2⟩
  rw [if_neg hopen] at hstep
  rw [if_neg hopen']
  by_cases hbrace : s.atClosingBrace c = true
  · rw [if_pos hbrace] at hstep
    cases hstep
  have hbrace' : ¬ s'.atClosingBrace c = true := by
    simp only [atClosingBrace, Bool.and_eq_true, decide_eq_true_eq] at hbrace ⊢
    rintro ⟨⟨ho, hdepth⟩, hc⟩
    obtain ⟨hopener, hsame⟩ := h.closes ho
    exact hbrace ⟨⟨hopener, hsame ▸ hdepth⟩, hc⟩
  rw [if_neg hbrace] at hstep
  rw [if_neg hbrace']
  exact continued (readToken_beside hk hn hs h rfl hlen (some_map_eq_ok.mp hstep) hplain hleft)

/-- A step opens a heredoc only if it reads the token that does. -/
theorem step_opens (h : s.step nested = .ok (some r)) :
    r.queue.next = s.queue.next ∨
      (r.queue.waiting ≠ [] ∧ ∃ t, r.tokens = t :: s.tokens ∧ t.kind = .heredoc) := by
  cases step_moves h with
  | passes => exact .inl rfl
  | reads => exact .inl rfl
  | quotes => exact .inl rfl
  | opens hne hpos henqueue =>
    obtain ⟨tag, -, rfl⟩ := HeredocQueue.enqueue_ok henqueue
    exact .inr ⟨by simp [ScanState.emit], _, rfl, rfl⟩
  | resolves hrest hresolve =>
    unfold resolveHeredocs at hresolve
    obtain ⟨⟨bodies, cursor⟩, -, hresolve⟩ := bind_eq_ok.mp hresolve
    cases hresolve
    exact .inl rfl

/-! ## Runs -/

/-- The scanner of interpolations that a step of a run uses, where so much fuel is left after it. -/
def nestedRun (fuel : Nat) : NestedScan := fun opener c => do
  let (tokens, s) ← run fuel (start (some opener) c)
  return (tokens, s.cursor)

theorem nestedRun_sound (fuel : Nat) : (nestedRun fuel).Sound := nested_sound run_lays

theorem nestedRun_settles (source : Text) (fuel : Nat) :
    NestedScan.Settles source fuel (nestedRun fuel) :=
  nested_settles fun opener c hat hlt =>
    run_scans (start_ready _ opener c) (fun _ => hat) (start_carries _ _ c) hlt

theorem run_of_step {fuel : Nat} (h : s.step (nestedRun fuel) = .ok (some r)) :
    run (fuel + 1) s = run fuel r := by
  show (s.step (nestedRun fuel) >>= _) = _
  rw [h]
  rfl

/-- A run ends where no step is left. -/
theorem run_of_stop {fuel : Nat} (h : s.step (nestedRun fuel) = .ok none) :
    run (fuel + 1) s = s.finish (nestedRun fuel) := by
  show (s.step (nestedRun fuel) >>= _) = _
  rw [h]
  rfl

/-- A run takes a step and goes on, or it ends. -/
theorem run_cases {fuel : Nat} {p : List Token × ScanState} (h : run (fuel + 1) s = .ok p) :
    (∃ r, s.step (nestedRun fuel) = .ok (some r) ∧ run fuel r = .ok p) ∨
      (s.step (nestedRun fuel) = .ok none ∧ s.finish (nestedRun fuel) = .ok p) := by
  obtain ⟨next, hstep, h⟩ := bind_eq_ok.mp (show s.step (nestedRun fuel) >>= _ = _ from h)
  cases next with
  | none => exact .inr ⟨hstep, h⟩
  | some r => exact .inl ⟨r, hstep, h⟩

/-- A step at a closing brace stops there, or reads it. -/
theorem step_brace {cs : Text} (hc : s.cursor.rest = .char '\x7d' :: cs) :
    s.step nested = .ok (if s.opener.isSome ∧ s.depth = 0 then none
      else some (s.emit (.symbol .rightBrace) (s.cursor.skip 1) .plain)) := by
  have hword : s.readToken nested '\x7d' =
      .ok (s.emit (.symbol .rightBrace) (s.cursor.skip 1) .plain) := by
    have hregex : s.regexLength? = none := by
      unfold regexLength?
      rw [hc]
      split <;> rfl
    have hname : Lexeme.nameLength? (.char '\x7d' :: cs) = none := by
      show Lexeme.scopedLength? _ _ _ = none
      rw [Lexeme.scopedLength?.eq_2 _ _ _ _ (by rintro _ _ ⟨⟩)]
      rfl
    have href : Lexeme.referenceLength? (.char '\x7d' :: cs) = none := by
      show Lexeme.scopedLength? _ _ _ = none
      rw [Lexeme.scopedLength?.eq_2 _ _ _ _ (by rintro _ _ ⟨⟩)]
      rfl
    show s.readWord '\x7d' = _
    unfold readWord readSymbol
    rw [hregex, hc, hname, href]
    rfl
  unfold step
  rw [hc]
  show (if s.atClosingBrace '\x7d' = true then Except.ok none
    else some <$> s.readToken nested '\x7d') = _
  rw [hword]
  by_cases hstop : s.opener.isSome ∧ s.depth = 0
  · rw [if_pos hstop, if_pos (by simp [atClosingBrace, hstop])]
  · rw [if_neg hstop, if_neg (by simpa [atClosingBrace] using hstop)]
    rfl

/-- Where a scan of the inside of an interpolation ends. -/
theorem run_within {fuel : Nat} {ts : List Token} (ho : s.opener.isSome) (hs : s.Ready [])
    (h : run fuel s = .ok (ts, s')) : ∃ cs rest, s.cursor.Passes cs s'.cursor ∧
      s'.cursor.rest = .char '\x7d' :: rest := by
  obtain ⟨nested, s₁, xs, -, hlays, hstop, hfinish⟩ := run_lays hs h
  obtain ⟨opener, ho⟩ := Option.isSome_iff_exists.mp ho
  have hopener : s₁.opener = some opener := hlays.opener.trans ho
  simp only [finish, hopener] at hfinish
  split at hfinish
  · cases hfinish
  rename_i hend
  cases hfinish
  obtain ⟨cs, hcs⟩ := hlays.laid.passes
  rcases hstop with hstop | ⟨-, hstop⟩
  · simp [Cursor.atEnd, hstop] at hend
  · obtain ⟨rest, hrest⟩ := List.head?_eq_some_iff.mp hstop
    exact ⟨cs, rest, hcs, hrest⟩

theorem attachBodies_nil (ts : List Token) : attachBodies ts [] = ts := by
  induction ts with
  | nil => rfl
  | cons t ts ih => rw [attachBodies, ih]; simp

/-- Where the first run ends when the second does: before the texts part if the second is within an
interpolation, or else just there if the second text ends there. -/
def Ends (k : Fork) (s' : ScanState) (c : Cursor) : Prop :=
  if s'.opener.isSome then k.rest.length < c.rest.length
  else c.rest.length = k.rest.length ∧ k.other = []

/-- No heredoc was opened before two states. -/
def Idle (a a' : ScanState) : Prop :=
  a.queue.waiting = [] ∧ a'.queue.waiting = [] ∧ a'.bodies = []

/-- A run that ends at a state ends in the second text as in the first. -/
theorem finish_beside (h : Beside k a a' w s s') (hidle : Idle a a') (ho : s.opener.isSome)
    {ts : List Token} (hstep : s.step nested = .ok none) (hfinish : s.finish nested = .ok (ts, r))
    (hend : Ends k s' r.cursor) :
    ts = r.tokens.reverse ++ [Token.endAt r.cursor.pos] ∧ s = r ∧ s'.step nested' = .ok none ∧
      s'.finish nested' = .ok (s'.tokens.reverse ++ [Token.endAt s'.cursor.pos], s') := by
  obtain ⟨opener, ho⟩ := Option.isSome_iff_exists.mp ho
  simp only [finish, ho] at hfinish
  split at hfinish
  · cases hfinish
  rename_i hleft
  cases hfinish
  refine ⟨rfl, rfl, ?_⟩
  obtain ⟨rest, hrest⟩ : ∃ rest, s.cursor.rest = .char '\x7d' :: rest := by
    rcases step_stops hstep with hnil | ⟨-, hhead⟩
    · simp [Cursor.atEnd, hnil] at hleft
    · exact List.head?_eq_some_iff.mp hhead
  have hdepth : s.depth = 0 := by
    rw [step_brace hrest] at hstep
    split at hstep
    · rename_i hstop
      exact hstop.2
    · cases hstep
  have hlength := h.cursor.length_eq
  cases ho' : s'.opener with
  | none =>
    obtain ⟨hend, hother⟩ : s.cursor.rest.length = k.rest.length ∧ k.other = [] := by
      simpa [Ends, ho'] using hend
    have hnil : s'.cursor.rest = [] := by
      rw [h.cursor.other, hother, List.append_nil]
      exact List.length_eq_zero_iff.mp (by omega)
    constructor
    · unfold step
      rw [hnil]
    · unfold finish
      rw [ho']
      dsimp only
      rw [resolveHeredocs_idle (by rw [h.keeps.2.queue, hidle.2.1])]
      show Except.ok (attachBodies s'.tokens.reverse s'.bodies ++ _, s') = _
      rw [h.keeps.2.bodies, hidle.2.2, attachBodies_nil]
  | some opener' =>
    have hend : k.rest.length < s.cursor.rest.length := by
      simpa [Ends, ho'] using hend
    obtain ⟨c, cs, hw⟩ := List.exists_cons_of_ne_nil (l := w) (by
      rintro rfl
      rw [List.length_nil] at hlength
      omega)
    obtain rfl : c = '\x7d' := by
      have := h.cursor.rest
      rw [hw, hrest] at this
      exact (List.cons.inj this).1.symm
    have hother : s'.cursor.rest = .char '\x7d' :: (cs ++ k.other) := by
      rw [h.cursor.other, hw]
      rfl
    have hdepth' : s'.depth = 0 := (h.closes (by rw [ho']; rfl)).2.trans hdepth
    constructor
    · rw [step_brace hother, if_pos ⟨by rw [ho']; rfl, hdepth'⟩]
    · unfold finish
      rw [ho']
      dsimp only
      rw [if_neg (by simp [Cursor.atEnd, hother])]

/-- The scans of the inside of an interpolation begin alike. -/
theorem start_beside (o o' : Option Span) {c c' : Cursor} (hc : c.Beside k w c')
    (ho : o'.isSome → o.isSome) :
    Beside k (start o c) (start o' c') w (start o c) (start o' c') where
  cursor := hc
  last := rfl
  closes h := ⟨ho h, rfl⟩
  tokens := .refl _ _ _ _
  comments := .refl _ _ _ _
  keeps := ⟨⟨rfl, rfl, rfl⟩, ⟨rfl, rfl, rfl⟩⟩

theorem start_idle {c c' : Cursor} {o o' : Option Span} : Idle (start o c) (start o' c') :=
  ⟨rfl, rfl, rfl⟩

/-- What two runs have found since both began, with an end of input where they are. -/
theorem Beside.found (hk : k.Lawful) (h : Beside k a a' w s s') (ha : a.tokens = [])
    (ha' : a'.tokens = []) :
    (s'.tokens.reverse ++ [Token.endAt s'.cursor.pos]).map (Token.seen k.right) =
      (s.tokens.reverse ++ [Token.endAt s.cursor.pos]).map (Token.seen k.left) := by
  obtain ⟨ts, ts', hts, hts', hmap⟩ := h.tokens
  rw [ha, List.append_nil] at hts
  rw [ha', List.append_nil] at hts'
  have hend : (Token.endAt s'.cursor.pos).seen k.right = (Token.endAt s.cursor.pos).seen k.left := by
    have hsized (p : Position) : Span.sized p 0 = Span.between p p := by
      simp [Span.sized, Span.between]
    rw [Token.endAt, Token.endAt, Token.seen, Token.seen, hsized, hsized,
      hk.span h.cursor.pos h.cursor.pos]
    rfl
  rw [List.map_append, List.map_append, List.map_reverse, List.map_reverse, hts, hts', hmap,
    List.map_singleton, List.map_singleton, hend]

/-- The scanners of interpolations answer alike where the runs of their insides do. -/
theorem nested_beside (hk : k.Lawful) {fuel m : Nat}
    (hrun : ∀ {a a' s s' w ts r}, Beside k a a' w s s' → Idle a a' → s.opener.isSome →
      s'.cursor.rest.length < m → run fuel s = .ok (ts, r) → Ends k s' r.cursor →
        ∃ r' v, ts = r.tokens.reverse ++ [Token.endAt r.cursor.pos] ∧
          run m s' = .ok (r'.tokens.reverse ++ [Token.endAt r'.cursor.pos], r') ∧
            Beside k a a' v r r') :
    NestedScan.Beside k m (nestedRun fuel) (nestedRun m) := by
  intro o o' c c' w ts d hc hlt hok hleft
  obtain ⟨⟨ts, r⟩, hr, hok⟩ := bind_eq_ok.mp hok
  cases hok
  obtain ⟨r', v, rfl, hok, hr⟩ :=
    hrun (start_beside (some o) (some o') hc id) start_idle rfl hlt hr hleft
  exact ⟨_, r'.cursor, v, bind_eq_ok.mpr ⟨_, hok, rfl⟩, hr.found hk rfl rfl, hr.cursor⟩

/-- A run of the inside of an interpolation in the first text is a run in the second, if the text
goes on alike up to the closing brace. -/
theorem run_beside (hk : k.Lawful) {fuel fuel' : Nat} {ts : List Token}
    (h : Beside k a a' w s s') (hidle : Idle a a') (ho : s.opener.isSome)
    (hfuel : s'.cursor.rest.length < fuel') (hr : run fuel s = .ok (ts, r))
    (hend : Ends k s' r.cursor) :
    ∃ r' v, ts = r.tokens.reverse ++ [Token.endAt r.cursor.pos] ∧
      run fuel' s' = .ok (r'.tokens.reverse ++ [Token.endAt r'.cursor.pos], r') ∧
        Beside k a a' v r r' := by
  induction fuel generalizing fuel' a a' s s' w ts r with
  | zero => cases hr
  | succ fuel ih =>
    obtain ⟨m, rfl⟩ := Nat.exists_eq_succ_of_ne_zero (Nat.ne_zero_of_lt hfuel)
    have hs : NestedScan.Beside k m (nestedRun fuel) (nestedRun m) :=
      nested_beside hk fun h hidle ho hlt hr hend => ih h hidle ho hlt hr hend
    have hready : s.Ready [] :=
      { placed := fun h => by rw [h] at ho; cases ho
        quiet := fun _ => by rw [h.keeps.1.queue, hidle.1]
        tagged := by
          rw [h.keeps.1.queue, hidle.1]
          exact List.forall_mem_nil _ }
    rcases run_cases hr with ⟨s₂, hstep, hr⟩ | ⟨hstep, hfinish⟩
    · obtain ⟨xs, hlays⟩ := step_lays (nestedRun_sound fuel) hready hstep
      have ho₂ : s₂.opener.isSome := by rwa [hlays.opener]
      obtain ⟨cs, rest, hpasses, hrest⟩ := run_within ho₂ (hlays.ready hready) hr
      have hle : r.cursor.rest.length ≤ s₂.cursor.rest.length := by
        rw [hpasses.rest, List.length_append]
        omega
      have hleft : k.rest.length ≤ r.cursor.rest.length := by
        unfold Ends at hend
        split at hend
        · exact Nat.le_of_lt hend
        · exact hend.1.symm.le
      have hplain : s₂.queue.next = s.queue.next := by
        refine (step_opens hstep).resolve_right fun hopens => hopens.1 ?_
        exact (hlays.quiet ho (by rw [h.keeps.1.queue, hidle.1])).1
      have hw : w ≠ [] := by
        -- Where the texts part the brace stands at which the run ends, and this step reads it.
        rintro rfl
        obtain ⟨ds, hds⟩ := hlays.laid.passes
        have hsame : ds ++ cs = [] := by
          have hlength := congrArg List.length (h.cursor.rest.symm.trans (hds.trans hpasses).rest)
          rw [List.nil_append, List.length_append] at hlength
          exact List.length_eq_zero_iff.mp (by omega)
        have hbrace : s.cursor.rest = .char '\x7d' :: rest := by
          rw [(hds.trans hpasses).rest, hsame, hrest]
          rfl
        rw [step_brace hbrace] at hstep
        split at hstep
        · cases hstep
        · cases hstep
          have hle : r.cursor.rest.length ≤ (s.cursor.skip 1).rest.length := hle
          simp [Cursor.skip, hbrace, hrest] at hle
      obtain ⟨s₂', v, hok, h₂⟩ := step_beside hk (nestedRun_sound fuel) hs h hw
        (Nat.le_of_lt_succ hfuel) (fun _ => ⟨hidle.1, hidle.2.1⟩) hstep hplain (by omega)
      have hgoes := step_scans (nestedRun_sound m) (nestedRun_settles k.whole m)
        (fun _ => h.cursor.placed) (Nat.le_of_lt_succ hfuel)
      rw [hok] at hgoes
      have hshorter := (hgoes s₂' rfl).shorter
      rw [run_of_step hok]
      refine ih h₂ hidle ho₂ (by omega) hr ?_
      unfold Ends at hend ⊢
      rwa [h₂.keeps.2.opener, ← h.keeps.2.opener]
    · obtain ⟨hts, rfl, hok, hfinish⟩ := finish_beside h hidle ho hstep hfinish hend
      exact ⟨s', w, hts, (run_of_stop hok).trans hfinish, h⟩

/-- The scanners of interpolations answer alike. -/
theorem nestedRun_beside (hk : k.Lawful) (fuel m : Nat) :
    NestedScan.Beside k m (nestedRun fuel) (nestedRun m) :=
  nested_beside hk fun h hidle ho hlt hr hend => run_beside hk h hidle ho hlt hr hend

end ScanState

end ManifestTree
