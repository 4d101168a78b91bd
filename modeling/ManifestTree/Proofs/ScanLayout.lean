import ManifestTree.Proofs.HeredocRegions

/-!
# The layout of a source

To the scanner a source is a row of stretches: blanks, comments, tokens and regions of heredocs.
`Laid` says that stretches follow each other without a gap from one cursor to another.  Each step
of a scan lays a few stretches more, so a whole scan lays the source out from its start to its end,
and the inside of an interpolation up to its closing brace.
-/

namespace ManifestTree

open Text

/-! ## Stretches -/

/-- What a stretch of a source is to the scanner. -/
inductive Stretch where
  /-- A space, a tab or a character of a line end. -/
  | blank
  | comment (t : Token)
  | token (t : Token)
  /-- The region of a heredoc. -/
  | body (b : HeredocBody)

namespace Stretch

/-- The token that a stretch is. -/
def token? : Stretch → Option Token
  | .token t => some t
  | _ => none

/-- The comment that a stretch is. -/
def comment? : Stretch → Option Token
  | .comment t => some t
  | _ => none

/-- The body whose region a stretch is. -/
def body? : Stretch → Option HeredocBody
  | .body b => some b
  | _ => none

end Stretch

/-- The characters are a comment before the rest of the source. -/
def IsComment (cs rest : Text) : Prop :=
  (∃ body, cs = .char '#' :: body ∧ .char '\n' ∉ body ∧
      (rest = [] ∨ rest.head? = some (.char '\n'))) ∨
    ∃ body, cs = .char '/' :: .char '*' :: body ++ [.char '*', .char '/'] ∧
        ¬ [.char '*', .char '/'] <:+: body ++ [.char '*']

theorem IsComment.ne_nil {cs rest : Text} (h : IsComment cs rest) : cs ≠ [] := by
  rcases h with ⟨body, rfl, -⟩ | ⟨body, rfl, -⟩
  · exact List.cons_ne_nil _ _
  · simp

/-- A token as the scanner reads it: it does not begin with white space, it is no end of input, and
a heredoc has no body yet. -/
structure Token.Fresh (t : Token) : Prop where
  nonempty : t.text ≠ []
  visible : ∀ c ∈ t.text.head?, c.isWhitespace = false
  notEnd : t.kind ≠ .endOfInput
  sound : t.Sound
  bodyless : t.body? = none
  waiting : t.kind = .heredoc → ∃ tag, t.detail = .heredoc tag none

/-- The stretch takes what stands between two cursors. -/
inductive Stretch.Lies (source : Text) : Cursor → Stretch → Cursor → Prop
  | blank {c d : Cursor} {ch : CodePoint} : c.Reads [ch] d → ch.isWhitespace →
      Lies source c .blank d
  | comment {c d : Cursor} {cs : Text} : c.Reads cs d → IsComment cs d.rest →
      Lies source c (.comment (.mk .comment cs (Span.between c.pos d.pos) .plain)) d
  | token {c d : Cursor} {t : Token} : c.Reads t.text d → t.Fresh →
      t.span = Span.between c.pos d.pos → Lies source c (.token t) d
  | body {c : Cursor} {b : HeredocBody} : PendingHeredoc.Resolved source c b →
      Lies source c (.body b) (c.jump b.resume)

/-- The stretches follow each other without a gap from one cursor to another. -/
inductive Laid (source : Text) : Cursor → List Stretch → Cursor → Prop
  | nil (c : Cursor) : Laid source c [] c
  | cons {c d e : Cursor} {x : Stretch} {xs : List Stretch} : x.Lies source c d →
      Laid source d xs e → Laid source c (x :: xs) e

variable {source : Text}

theorem Laid.append {c d e : Cursor} {xs ys : List Stretch} (h : Laid source c xs d)
    (k : Laid source d ys e) : Laid source c (xs ++ ys) e := by
  induction h with
  | nil => exact k
  | cons hx _ ih => exact .cons hx (ih k)

theorem Laid.single {c d : Cursor} {x : Stretch} (h : x.Lies source c d) :
    Laid source c [x] d := .cons h (.nil d)

theorem Stretch.Lies.passes {c d : Cursor} {x : Stretch} (h : x.Lies source c d) :
    ∃ cs, c.Passes cs d := by
  cases h with
  | blank hr => exact ⟨_, hr.passes⟩
  | comment hr => exact ⟨_, hr.passes⟩
  | token hr => exact ⟨_, hr.passes⟩
  | body hb => exact hb.passes

theorem Laid.passes {c d : Cursor} {xs : List Stretch} (h : Laid source c xs d) :
    ∃ cs, c.Passes cs d := by
  induction h with
  | nil c => exact ⟨[], .refl c⟩
  | cons hx _ ih =>
    obtain ⟨cs, hcs⟩ := hx.passes
    obtain ⟨ds, hds⟩ := ih
    exact ⟨_, hcs.trans hds⟩

/-- The tokens of laid stretches are as the scanner reads them. -/
theorem Laid.fresh {c d : Cursor} {xs : List Stretch} (h : Laid source c xs d) :
    ∀ t ∈ xs.filterMap Stretch.token?, t.Fresh := by
  induction h with
  | nil => simp
  | cons hx _ ih =>
    cases hx with
    | token hr hf hspan => exact List.forall_mem_cons.mpr ⟨hf, ih⟩
    | _ => exact ih

/-! ## Waiting heredocs -/

/-- No body comes along the stretches unless a heredoc waits for it, where so many wait before
them. -/
def Stretch.Timely : Nat → List Stretch → Prop
  | _, [] => True
  | n, .token t :: xs => Timely (if t.kind = .heredoc then n + 1 else n) xs
  | n, .body _ :: xs => 0 < n ∧ Timely (n - 1) xs
  | n, .blank :: xs | n, .comment _ :: xs => Timely n xs

/-- More stretches may follow that leave as many heredocs waiting as the first ones need. -/
theorem Stretch.Timely.append {m n : Nat} {xs ys : List Stretch} (hx : Timely m xs)
    (hy : Timely n ys)
    (hn : m + (xs.filterMap Stretch.token?).countP (fun t => t.kind = .heredoc) =
      (xs.filterMap Stretch.body?).length + n) : Timely m (xs ++ ys) := by
  induction xs generalizing m with
  | nil =>
    obtain rfl : m = n := by simpa using hn
    exact hy
  | cons x xs ih =>
    cases x with
    | blank => exact ih hx hn
    | comment t => exact ih hx hn
    | token t =>
      refine ih hx ?_
      have hn : m + (t :: xs.filterMap Stretch.token?).countP (fun t => t.kind = .heredoc) =
          (xs.filterMap Stretch.body?).length + n := hn
      rw [List.countP_cons] at hn
      by_cases hk : t.kind = .heredoc
      · simp only [hk, decide_true, if_true] at hn ⊢
        omega
      · simp only [hk, decide_false] at hn ⊢
        simpa using hn
    | body b =>
      obtain ⟨hpos, hx⟩ := hx
      have hn : m + (xs.filterMap Stretch.token?).countP (fun t => t.kind = .heredoc) =
          (xs.filterMap Stretch.body?).length + 1 + n := hn
      exact ⟨hpos, ih hx (by omega)⟩

/-- As many bodies may come as heredocs wait. -/
theorem Stretch.timely_bodies (bodies : List HeredocBody) :
    Timely bodies.length (bodies.map .body) := by
  induction bodies with
  | nil => trivial
  | cons b bodies ih => exact ⟨Nat.succ_pos _, ih⟩

/-! ## Steps -/

namespace ScanState

/-- Outside of interpolations the cursor stands at its place in the source, and within one no
heredoc waits for its body.  The tags of waiting heredocs were read. -/
structure Ready (source : Text) (s : ScanState) : Prop where
  placed : s.opener = none → s.cursor.rest ≠ [] → Cursor.At source s.cursor
  quiet : s.opener.isSome → s.queue.waiting = []
  tagged : ∀ p ∈ s.queue.waiting, p.Tagged

/-- Laying some stretches leads from one state of a scan to the other. -/
structure Lays (source : Text) (s : ScanState) (xs : List Stretch) (s' : ScanState) :
    Prop where
  laid : Laid source s.cursor xs s'.cursor
  opener : s'.opener = s.opener
  tokens : s'.tokens = (xs.filterMap Stretch.token?).reverse ++ s.tokens
  comments : s'.comments = (xs.filterMap Stretch.comment?).reverse ++ s.comments
  bodies : s'.bodies = s.bodies ++ xs.filterMap Stretch.body?
  waiting : s.queue.waiting.length +
      (xs.filterMap Stretch.token?).countP (fun t => t.kind = .heredoc) =
    (xs.filterMap Stretch.body?).length + s'.queue.waiting.length
  timely : Stretch.Timely s.queue.waiting.length xs
  quiet : s.opener.isSome → s.queue.waiting = [] →
    s'.queue.waiting = [] ∧ xs.filterMap Stretch.body? = []
  tagged : (∀ p ∈ s.queue.waiting, p.Tagged) → ∀ p ∈ s'.queue.waiting, p.Tagged

variable {s s' s'' : ScanState} {xs ys : List Stretch}

theorem Lays.refl (s : ScanState) : s.Lays source [] s where
  laid := .nil _
  opener := rfl
  tokens := rfl
  comments := rfl
  bodies := (List.append_nil _).symm
  waiting := (Nat.zero_add _).symm
  timely := trivial
  quiet _ hw := ⟨hw, rfl⟩
  tagged := id

theorem Lays.trans (h : s.Lays source xs s') (k : s'.Lays source ys s'') :
    s.Lays source (xs ++ ys) s'' where
  laid := h.laid.append k.laid
  opener := k.opener.trans h.opener
  tokens := by simp [k.tokens, h.tokens]
  comments := by simp [k.comments, h.comments]
  bodies := by simp [k.bodies, h.bodies]
  waiting := by
    have := h.waiting
    have := k.waiting
    simp only [List.filterMap_append, List.countP_append, List.length_append]
    omega
  timely := h.timely.append k.timely h.waiting
  quiet ho hw := by
    obtain ⟨hw, hx⟩ := h.quiet ho hw
    obtain ⟨hw, hy⟩ := k.quiet (h.opener ▸ ho) hw
    exact ⟨hw, by rw [List.filterMap_append, hx, hy]; rfl⟩
  tagged hp := k.tagged (h.tagged hp)

theorem Lays.ready (h : s.Lays source xs s') (hs : s.Ready source) : s'.Ready source where
  placed ho hne := by
    obtain ⟨cs, hcs⟩ := h.laid.passes
    exact hcs.at (hs.placed (h.opener ▸ ho)) hne
  quiet ho := (h.quiet (h.opener ▸ ho) (hs.quiet (h.opener ▸ ho))).1
  tagged := h.tagged hs.tagged

theorem blank_lays {c : CodePoint} {cs : Text} (hc : s.cursor.rest = c :: cs)
    (hw : c.isWhitespace) : s.Lays source [.blank] s.blank where
  laid := .single (.blank (Cursor.reads_skip_one hc) hw)
  opener := rfl
  tokens := rfl
  comments := rfl
  bodies := (List.append_nil _).symm
  waiting := (Nat.zero_add _).symm
  timely := trivial
  quiet _ hw := ⟨hw, rfl⟩
  tagged := id

theorem emitComment_lays {after : Cursor} {cs : Text} (hr : s.cursor.Reads cs after)
    (hc : IsComment cs after.rest) :
    s.Lays source [.comment (.mk .comment cs (Span.between s.cursor.pos after.pos) .plain)]
      (s.emitComment after) where
  laid := .single (.comment hr hc)
  opener := rfl
  tokens := rfl
  comments := by rw [emitComment, hr.upTo_eq]; rfl
  bodies := (List.append_nil _).symm
  waiting := (Nat.zero_add _).symm
  timely := trivial
  quiet _ hw := ⟨hw, rfl⟩
  tagged := id

/-- Adding a token that is no heredoc. -/
theorem emit_lays {after : Cursor} {cs : Text} {kind : TokenKind} {detail : TokenDetail}
    (hr : s.cursor.Reads cs after) (hk : kind ≠ .heredoc)
    (hf : (Token.mk kind cs (Span.between s.cursor.pos after.pos) detail).Fresh) :
    s.Lays source [.token (.mk kind cs (Span.between s.cursor.pos after.pos) detail)]
      (s.emit kind after detail) where
  laid := .single (.token hr hf rfl)
  opener := rfl
  tokens := by rw [emit, hr.upTo_eq]; rfl
  comments := rfl
  bodies := (List.append_nil _).symm
  waiting := by simp [Stretch.token?, Stretch.body?, Token.kind, hk, emit]
  timely := trivial
  quiet _ hw := ⟨hw, rfl⟩
  tagged := id

/-- A token without detail is fresh if it begins with a visible character. -/
theorem plain_fresh {kind : TokenKind} {cs : Text} {span : Span} (hne : cs ≠ [])
    (hv : ∀ c ∈ cs.head?, c.isWhitespace = false)
    (hk : kind ≠ .endOfInput ∧ kind ≠ .string ∧ kind ≠ .heredoc) :
    (Token.mk kind cs span .plain).Fresh where
  nonempty := hne
  visible := hv
  notEnd := hk.1
  sound := ⟨fun h => absurd h hk.2.1, by
    simp [Token.deepFragments, TokenDetail.deepFragments]⟩
  bodyless := rfl
  waiting h := absurd h hk.2.2

/-- Adding a plain token of some length. -/
theorem emit_plain_lays {kind : TokenKind} {n : Nat} {c : CodePoint} {cs : Text}
    (hc : s.cursor.rest = c :: cs) (hw : c.isWhitespace = false) (hn : 0 < n)
    (hk : kind ≠ .endOfInput ∧ kind ≠ .string ∧ kind ≠ .heredoc) :
    ∃ xs, s.Lays source xs (s.emit kind (s.cursor.skip n) .plain) := by
  refine ⟨_, emit_lays (Cursor.reads_skip _ _) hk.2.2 (plain_fresh ?_ ?_ hk)⟩
  · simp [hc, Nat.pos_iff_ne_zero.mp hn]
  · obtain ⟨m, rfl⟩ := Nat.exists_eq_succ_of_ne_zero (Nat.pos_iff_ne_zero.mp hn)
    simpa [hc] using hw

/-! ## Heredoc bodies -/

/-- Reading the bodies of some heredocs lays their regions. -/
theorem resolveAll_lays {nested : NestedScan} (hn : nested.Sound) {pending : List PendingHeredoc}
    {c d : Cursor} {bodies : List HeredocBody} (htagged : ∀ p ∈ pending, p.Tagged)
    (hat : pending ≠ [] → c.rest ≠ [] → Cursor.At source c)
    (h : resolveAll nested pending c = .ok (bodies, d)) :
    Laid source c (bodies.map .body) d ∧ bodies.length = pending.length := by
  induction pending generalizing c bodies with
  | nil =>
    cases h
    exact ⟨.nil _, rfl⟩
  | cons p pending ih =>
    obtain ⟨b, bs, hb, hbs, rfl⟩ := resolveAll_cons_eq_ok.mp h
    obtain ⟨hp, htagged⟩ := List.forall_mem_cons.mp htagged
    have hres := PendingHeredoc.resolve_resolved hn hp (hat (by simp)) hb
    obtain ⟨hl, hlen⟩ := ih htagged (fun _ hne => by
      obtain ⟨cs, hcs⟩ := hres.passes
      exact hcs.at (hat (by simp)) hne) hbs
    exact ⟨.cons (.body hres) hl, by simp [hlen]⟩

theorem filterMap_token?_body (bodies : List HeredocBody) :
    (bodies.map Stretch.body).filterMap Stretch.token? = [] := by
  simp [List.filterMap_eq_nil_iff, Stretch.token?]

theorem filterMap_comment?_body (bodies : List HeredocBody) :
    (bodies.map Stretch.body).filterMap Stretch.comment? = [] := by
  simp [List.filterMap_eq_nil_iff, Stretch.comment?]

theorem filterMap_body?_body (bodies : List HeredocBody) :
    (bodies.map Stretch.body).filterMap Stretch.body? = bodies := by
  simp [List.filterMap_map, Function.comp_def, Stretch.body?]

theorem resolveHeredocs_lays {nested : NestedScan} (hn : nested.Sound) (hs : s.Ready source)
    (h : s.resolveHeredocs nested = .ok s') :
    ∃ xs, s.Lays source xs s' ∧ s'.queue.waiting = [] := by
  unfold resolveHeredocs at h
  obtain ⟨⟨bodies, cursor⟩, hb, h⟩ := bind_eq_ok.mp h
  cases h
  have hat (hw : s.queue.waiting ≠ []) : s.cursor.rest ≠ [] → Cursor.At source s.cursor := by
    refine hs.placed ?_
    cases ho : s.opener with
    | none => rfl
    | some o => exact absurd (hs.quiet (by simp [ho])) hw
  obtain ⟨hl, hlen⟩ := resolveAll_lays hn hs.tagged hat hb
  exact ⟨bodies.map .body, {
    laid := hl
    opener := rfl
    tokens := by rw [filterMap_token?_body]; rfl
    comments := by rw [filterMap_comment?_body]; rfl
    bodies := by rw [filterMap_body?_body]
    waiting := by
      rw [filterMap_token?_body, filterMap_body?_body, hlen]
      rfl
    timely := hlen ▸ Stretch.timely_bodies bodies
    quiet := fun _ hw => ⟨rfl, by
      rw [filterMap_body?_body]
      exact List.length_eq_zero_iff.mp (by rw [hlen, hw]; rfl)⟩
    tagged := fun _ => List.forall_mem_nil _ }, rfl⟩

theorem newline_lays {nested : NestedScan} (hn : nested.Sound) (hs : s.Ready source)
    {cs : Text} (hc : s.cursor.rest = .char '\n' :: cs) (h : s.newline nested = .ok s') :
    ∃ xs, s.Lays source xs s' := by
  have hblank : s.Lays source [.blank] s.blank := blank_lays hc rfl
  obtain ⟨xs, hxs, -⟩ := resolveHeredocs_lays hn (hblank.ready hs) h
  exact ⟨_, hblank.trans hxs⟩

/-! ## Comments -/

/-- A comment is passed from one state to another. -/
def PassesComment (s s' : ScanState) : Prop :=
  ∃ cs after, s.cursor.Reads cs after ∧ IsComment cs after.rest ∧ s' = s.emitComment after

theorem PassesComment.lays (h : s.PassesComment s') : ∃ xs, s.Lays source xs s' := by
  obtain ⟨cs, after, hr, hc, rfl⟩ := h
  exact ⟨_, emitComment_lays hr hc⟩

theorem lineComment_passes {cs : Text} (hc : s.cursor.rest = .char '#' :: cs) :
    s.PassesComment s.lineComment := by
  have hr := Cursor.reads_skipWhile s.cursor (· ≠ '\n')
  refine ⟨_, _, hr, .inl ⟨cs.takeWhile (· ≠ .char '\n'), ?_, ?_, ?_⟩, rfl⟩
  · rw [hc]
    rfl
  · intro hmem
    simpa using List.mem_takeWhile_imp hmem
  · have hhead := Cursor.skipWhile_head s.cursor (· ≠ '\n')
    cases hrest : (s.cursor.skipWhile (· ≠ .char '\n')).rest with
    | nil => exact .inl rfl
    | cons ch rest =>
      rw [hrest] at hhead
      exact .inr (by simpa using hhead)

/-- A block comment ends at the first sign that closes it. -/
theorem blockLength?_spec {cs : Text} {n : Nat} (h : blockLength? cs = some n) :
    ∃ body rest, cs = body ++ .char '*' :: .char '/' :: rest ∧ n = body.length + 2 ∧
      ¬ [.char '*', .char '/'] <:+: body ++ [.char '*'] := by
  induction cs generalizing n with
  | nil => simp [blockLength?] at h
  | cons c cs ih =>
    unfold blockLength? at h
    split at h
    · cases h
      rename_i heq
      obtain ⟨rfl, rfl⟩ := List.cons.inj heq
      exact ⟨[], _, rfl, rfl, by decide⟩
    · rename_i hne heq
      obtain ⟨rfl, rfl⟩ := List.cons.inj heq
      obtain ⟨m, hm, rfl⟩ := Option.map_eq_some_iff.mp h
      obtain ⟨body, rest, rfl, rfl, hinfix⟩ := ih hm
      refine ⟨c :: body, rest, rfl, rfl, ?_⟩
      rw [List.cons_append, List.infix_cons_iff]
      rintro (hfront | htail)
      · -- Here the text would begin with the sign.
        obtain ⟨rfl, hslash⟩ := List.cons_prefix_cons.mp hfront
        cases body with
        | nil => exact absurd hslash (by decide)
        | cons b body =>
          obtain ⟨rfl, -⟩ := List.cons_prefix_cons.mp hslash
          exact hne _ rfl rfl
      · exact hinfix htail
    · cases h

theorem blockComment_passes {cs : Text} (hc : s.cursor.rest = .char '/' :: .char '*' :: cs)
    (h : s.blockComment = .ok s') : s.PassesComment s' := by
  unfold blockComment at h
  split at h
  case h_2 => cases h
  case h_1 n hn =>
    cases h
    obtain ⟨body, rest, hbody, rfl, hinfix⟩ := blockLength?_spec hn
    have hcs : cs = body ++ .char '*' :: .char '/' :: rest := by simpa [hc] using hbody
    have hr : s.cursor.Reads (.char '/' :: .char '*' :: body ++ [.char '*', .char '/'])
        (s.cursor.skip (body.length + 2 + 2)) := by
      have hrest : s.cursor.rest =
          (.char '/' :: .char '*' :: body ++ [.char '*', .char '/']) ++ rest := by
        rw [hc, hcs]
        simp
      simpa using Cursor.reads_skip_length hrest
    exact ⟨_, _, hr, .inr ⟨body, rfl, hinfix⟩, rfl⟩

/-! ## Tokens -/

theorem readVariable_lays {c : CodePoint} {cs : Text} (hc : s.cursor.rest = c :: cs)
    (hw : c.isWhitespace = false) (h : s.readVariable = .ok s') : ∃ xs, s.Lays source xs s' := by
  unfold readVariable at h
  split at h
  · cases h
    exact emit_plain_lays hc hw (Lexeme.variableLength?_pos ‹_›) (by simp)
  · cases h

theorem readString_lays {nested : NestedScan} (hn : nested.Sound) {quote : CodePoint} {cs : Text}
    (hc : s.cursor.rest = quote :: cs) (hw : quote.isWhitespace = false)
    (h : s.readString nested quote = .ok s') : ∃ xs, s.Lays source xs s' := by
  unfold readString at h
  obtain ⟨⟨fs, close⟩, hs, h⟩ := bind_eq_ok.mp h
  cases h
  have hscan := Fragments.scan_scanned hn hs
  obtain ⟨inside, hr, ht⟩ := hscan.tiles
  have hopen := Cursor.reads_skip_one hc
  obtain ⟨rest, hclose⟩ : ∃ rest, close.rest = quote :: rest := by
    have hstop : (quotedReading quote (s.cursor.here 1)).stop =
        .quote quote (s.cursor.here 1) := by
      unfold quotedReading
      split <;> rfl
    rcases hscan.stops with hholds | ⟨-, n, hn⟩
    · simp only [hstop, Fragments.Stop.holds, decide_eq_true_eq] at hholds
      cases hcr : close.rest with
      | nil => simp [hcr] at hholds
      | cons ch rest => exact ⟨rest, by simpa [hcr] using hholds⟩
    · simp [hstop] at hn
  have hread := hopen.trans (hr.trans (Cursor.reads_skip_one hclose))
  refine ⟨_, emit_lays hread (by simp) ⟨by simp [Token.text], ?_, by simp [Token.kind], ?_, rfl,
    by simp [Token.kind]⟩⟩
  · simpa [Token.text] using hw
  · refine ⟨fun _ => ⟨quote, inside, rfl, ?_, hscan.apart⟩, fun f hf => ?_⟩
    · rw [hopen.pos] at ht
      exact ht
    · rcases Token.mem_deepFragments.mp hf with ⟨g, hg, hf⟩ | ⟨b, hb, -⟩
      · exact hscan.sound g hg f hf
      · simp [Token.body?, Token.detail] at hb

theorem number?_pos {cs : Text} {n : Nat} {form : Lexeme.NumberForm}
    (h : Lexeme.number? cs = some (n, form)) : 0 < n := by
  have hdecimal {cs : Text} (h : Lexeme.decimal? cs = some (n, form)) : 0 < n := by
    unfold Lexeme.decimal? at h
    dsimp only at h
    split at h
    · cases h
    · cases h
      omega
  unfold Lexeme.number? at h
  split at h
  · dsimp only at h
    split at h
    · cases h
      omega
    · exact hdecimal h
  · exact hdecimal h

theorem readNumber_lays {c : CodePoint} {cs : Text} (hc : s.cursor.rest = c :: cs)
    (hw : c.isWhitespace = false) (h : s.readNumber = .ok s') : ∃ xs, s.Lays source xs s' := by
  unfold readNumber at h
  split at h
  · cases h
  rename_i n form hn
  dsimp only at h
  split at h
  · cases h
  split at h
  · cases h
  cases h
  exact emit_plain_lays hc hw (number?_pos hn) (by cases form <;> simp [numberKind])

/-- A heredoc tag adds a token and a heredoc that waits for its body. -/
theorem readHeredocTag_lays {c : CodePoint} {cs : Text} (hc : s.cursor.rest = c :: cs)
    (hw : c.isWhitespace = false) (h : s.readHeredocTag = .ok s') :
    ∃ xs, s.Lays source xs s' := by
  unfold readHeredocTag at h
  dsimp only at h
  split at h
  · cases h
  split at h
  · cases h
  rename_i hopener
  generalize ((s.cursor.rest.drop 2).takeWhile fun c => c ≠ .char ')' && c ≠ .char '\n') = inside
    at h
  rw [Cursor.skip_skip] at h
  unfold HeredocQueue.enqueue at h
  split at h
  case h_2 => simp [reject, Bind.bind, Except.bind] at h
  case h_1 tag htag =>
    simp only [Bind.bind, Except.bind, Pure.pure, Except.pure, Except.ok.injEq] at h
    subst h
    have hr := Cursor.reads_skip s.cursor (inside.length + 2 + 1)
    have hfresh : (Token.mk .heredoc (s.cursor.rest.take (inside.length + 2 + 1))
        (Span.between s.cursor.pos (s.cursor.skip (inside.length + 2 + 1)).pos)
        (.heredoc tag none)).Fresh :=
      { nonempty := by simp [Token.text, hc]
        visible := by simpa [Token.text, hc] using hw
        notEnd := by simp [Token.kind]
        sound := ⟨by simp [Token.kind], by
          simp [Token.deepFragments, TokenDetail.deepFragments]⟩
        bodyless := rfl
        waiting := fun _ => ⟨tag, rfl⟩ }
    exact ⟨[.token (.mk .heredoc (s.cursor.rest.take (inside.length + 2 + 1))
        (Span.between s.cursor.pos (s.cursor.skip (inside.length + 2 + 1)).pos)
        (.heredoc tag none))], {
      laid := .single (.token hr hfresh rfl)
      opener := rfl
      tokens := by rw [emit, hr.upTo_eq]; rfl
      comments := rfl
      bodies := (List.append_nil _).symm
      waiting := by simp [Stretch.token?, Stretch.body?, Token.kind, emit]
      timely := trivial
      quiet := fun ho => absurd ho hopener
      tagged := fun hp => List.forall_mem_append.mpr ⟨hp, List.forall_mem_singleton.mpr
        (HeredocTag.parse_text htag)⟩ }⟩

theorem scopedLength?_pos {first starts : CodePoint → Bool} {cs : Text} {n : Nat}
    (h : Lexeme.scopedLength? first starts cs = some n) : 0 < n := by
  unfold Lexeme.scopedLength? at h
  split at h
  · split at h
    · cases h
      omega
    · cases h
  · split at h
    · cases h
      omega
    · cases h
  · cases h

theorem regexLength?_pos {cs : Text} {n : Nat} (h : Lexeme.regexLength? cs = some n) :
    0 < n := by
  unfold Lexeme.regexLength? at h
  split at h
  · obtain ⟨m, -, rfl⟩ := Option.map_eq_some_iff.mp h
    omega
  · cases h

theorem ofName_kind (word : Text) :
    TokenKind.ofName word ≠ .endOfInput ∧ TokenKind.ofName word ≠ .string ∧
      TokenKind.ofName word ≠ .heredoc := by
  unfold TokenKind.ofName
  split <;> simp

theorem readSymbol_lays {c : CodePoint} {cs : Text} (hc : s.cursor.rest = c :: cs)
    (hw : c.isWhitespace = false) (h : s.readSymbol c = .ok s') : ∃ xs, s.Lays source xs s' := by
  unfold readSymbol at h
  split at h
  · cases h
    rename_i symbol _
    exact emit_plain_lays hc hw (by cases symbol <;> decide) (by simp)
  · cases h

theorem readWord_lays {c : CodePoint} {cs : Text} (hc : s.cursor.rest = c :: cs)
    (hw : c.isWhitespace = false) (h : s.readWord c = .ok s') : ∃ xs, s.Lays source xs s' := by
  unfold readWord at h
  split at h
  · cases h
    rename_i n hn
    unfold regexLength? at hn
    split at hn
    · cases hn
    · exact emit_plain_lays hc hw (regexLength?_pos hn) (by simp)
  split at h
  · cases h
    exact emit_plain_lays hc hw (scopedLength?_pos ‹_›) (ofName_kind _)
  split at h
  · cases h
    exact emit_plain_lays hc hw (scopedLength?_pos ‹_›) (by simp)
  · exact readSymbol_lays hc hw h

theorem readToken_lays {nested : NestedScan} (hn : nested.Sound) {c : CodePoint} {cs : Text}
    (hc : s.cursor.rest = c :: cs) (hw : c.isWhitespace = false)
    (h : s.readToken nested c = .ok s') : ∃ xs, s.Lays source xs s' := by
  unfold readToken at h
  split at h
  · exact readVariable_lays hc hw h
  split at h
  · exact readString_lays hn hc hw h
  split at h
  · exact readNumber_lays hc hw h
  split at h
  · exact readHeredocTag_lays hc hw h
  · exact readWord_lays hc hw h

/-! ## Runs -/

theorem step_lays {nested : NestedScan} (hn : nested.Sound) (hs : s.Ready source)
    (h : s.step nested = .ok (some s')) : ∃ xs, s.Lays source xs s' := by
  unfold step at h
  split at h
  · cases h
  rename_i c cs hc
  split at h
  case isTrue hlf => exact newline_lays hn hs (hlf ▸ hc) (some_map_eq_ok.mp h)
  split at h
  case isTrue hb =>
    cases h
    exact ⟨_, blank_lays hc (by
      simp only [Bool.or_eq_true, decide_eq_true_eq] at hb
      rcases hb with (rfl | rfl) | rfl <;> rfl)⟩
  rename_i hlf hb
  have hw : c.isWhitespace = false := by
    simp only [Bool.or_eq_true, decide_eq_true_eq, not_or] at hb
    simp [CodePoint.isWhitespace, hb, hlf]
  split at h
  case isTrue hhash =>
    cases h
    exact (lineComment_passes (hhash ▸ hc)).lays
  split at h
  case isTrue hslash =>
    simp only [Bool.and_eq_true, decide_eq_true_eq] at hslash
    obtain ⟨rfl, hstar⟩ := hslash
    cases cs with
    | nil => simp at hstar
    | cons d cs =>
      obtain rfl : d = '*' := by simpa using hstar
      exact (blockComment_passes hc (some_map_eq_ok.mp h)).lays
  split at h
  · cases h
  · exact readToken_lays hn hc hw (some_map_eq_ok.mp h)

/-- A scan stops at the end of the source or at the brace that closes an interpolation. -/
theorem step_stops {nested : NestedScan} (h : s.step nested = .ok none) :
    s.cursor.rest = [] ∨ (s.opener.isSome ∧ s.cursor.rest.head? = some (.char '\x7d')) := by
  unfold step at h
  split at h
  · exact .inl ‹_›
  rename_i c cs hc
  have mapped {r : Except Failure ScanState} : some <$> r ≠ Except.ok none := by
    cases r <;> exact fun hr => by cases hr
  split at h
  · exact absurd h mapped
  split at h
  · cases h
  split at h
  · cases h
  split at h
  · exact absurd h mapped
  split at h
  case isTrue hbrace =>
    simp only [atClosingBrace, Bool.and_eq_true, decide_eq_true_eq] at hbrace
    exact .inr ⟨hbrace.1.1, by rw [hc, hbrace.2]; rfl⟩
  · exact absurd h mapped

/-- A row of stretches without heredocs is a row of tokens with gaps. -/
theorem interleaves_of_laid {c d : Cursor} {xs : List Stretch} (h : Laid source c xs d)
    (hb : xs.filterMap Stretch.body? = []) (hd : d.rest.head? = some (.char '\x7d')) :
    ∃ cs, c.Reads cs d ∧
      Token.Interleaves c.pos (xs.filterMap Stretch.token? ++ [Token.endAt d.pos]) cs := by
  induction h with
  | nil c => exact ⟨[], .refl c, .last .nil⟩
  | @cons c d e x xs hx _ ih =>
    cases hx with
    | blank hr hw =>
      obtain ⟨cs, hcs, hi⟩ := ih hb hd
      rw [hr.pos] at hi
      exact ⟨_, hr.trans hcs, hi.prepend fun gap hg _ => .blank hw hg⟩
    | comment hr hc =>
      obtain ⟨cs, hcs, hi⟩ := ih hb hd
      rw [hr.pos] at hi
      refine ⟨_, hr.trans hcs, hi.prepend fun gap hg hhead => ?_⟩
      rcases hc with ⟨body, rfl, hbody, hnext⟩ | ⟨body, rfl, hbody⟩
      · -- The line feed after the comment is in the next gap, since no token begins with it.
        refine .line hbody ?_ hg
        have hlf : cs.head? = some (.char '\n') := by
          rw [hcs.rest] at hnext
          cases cs with
          | nil =>
            rcases hnext with hnext | hnext
            · simp [List.nil_append] at hnext
              simp [hnext] at hd
            · rw [List.nil_append, hd] at hnext
              simp at hnext
          | cons ch cs =>
            rcases hnext with hnext | hnext
            · cases hnext
            · exact hnext
        rcases hhead with hhead | ⟨-, hvisible⟩
        · rw [hhead, hlf]
        · exact absurd (hvisible '\n' hlf) (by decide)
      · have := Gap.block hbody hg
        simpa using this
    | token hr hf hspan =>
      obtain ⟨cs, hcs, hi⟩ := ih hb hd
      rw [hr.pos] at hi hspan
      exact ⟨_, hr.trans hcs, .cons .nil hf.nonempty hf.visible hf.notEnd hspan hi⟩
    | body => cases hb

/-- The scan may stop at a state. -/
def Stopped (s : ScanState) : Prop :=
  s.cursor.rest = [] ∨ (s.opener.isSome ∧ s.cursor.rest.head? = some (.char '\x7d'))

/-- The scan of the inside of an interpolation begins ready, whatever the source. -/
theorem start_ready (source : Text) (opener : Span) (c : Cursor) :
    (start (some opener) c).Ready source where
  placed h := by cases h
  quiet _ := rfl
  tagged := List.forall_mem_nil _

theorem start_ready_source (source : Text) :
    (start none (Cursor.ofSource source)).Ready source where
  placed _ _ := Cursor.At.ofSource source
  quiet h := by cases h
  tagged := List.forall_mem_nil _

/-- A scan of the inside of an interpolation whose runs lay stretches is sound. -/
theorem nested_sound {fuel : Nat}
    (hrun : ∀ {source s ts s'}, s.Ready source → run fuel s = .ok (ts, s') →
      ∃ nested s₁ xs, NestedScan.Sound nested ∧ s.Lays source xs s₁ ∧ s₁.Stopped ∧
        s₁.finish nested = .ok (ts, s')) :
    NestedScan.Sound fun opener c => do
      let (tokens, s) ← run fuel (start (some opener) c)
      return (tokens, s.cursor) := by
  intro opener c ts d h
  obtain ⟨⟨tokens, s'⟩, hr, h⟩ := bind_eq_ok.mp h
  cases h
  obtain ⟨nested, s₁, xs, -, hlays, hstop, hfinish⟩ := hrun (start_ready [] opener c) hr
  have hopener : s₁.opener = some opener := hlays.opener
  simp only [finish, hopener] at hfinish
  split at hfinish
  · cases hfinish
  rename_i hend
  simp only [Except.ok.injEq, Prod.mk.injEq] at hfinish
  obtain ⟨rfl, rfl⟩ := hfinish
  have hhead : s₁.cursor.rest.head? = some (.char '\x7d') := by
    rcases hstop with hstop | ⟨-, hstop⟩
    · simp [Cursor.atEnd, hstop] at hend
    · exact hstop
  obtain ⟨inside, hread, hi⟩ := interleaves_of_laid hlays.laid (hlays.quiet rfl rfl).2 hhead
  have htokens : s₁.tokens.reverse = xs.filterMap Stretch.token? := by
    rw [hlays.tokens]
    simp [start]
  rw [htokens]
  refine ⟨inside, hread, hhead, hi, fun t ht => ?_⟩
  rcases List.mem_append.mp ht with ht | ht
  · exact (hlays.laid.fresh t ht).sound
  · rw [List.mem_singleton.mp ht]
    exact ⟨by simp [Token.endAt, Token.kind], by
      simp [Token.endAt, Token.deepFragments, TokenDetail.deepFragments]⟩

/-- A run lays stretches up to a state where it stops. -/
theorem run_lays {fuel : Nat} {ts : List Token} (hs : s.Ready source)
    (h : run fuel s = .ok (ts, s')) :
    ∃ nested s₁ xs, NestedScan.Sound nested ∧ s.Lays source xs s₁ ∧ s₁.Stopped ∧
      s₁.finish nested = .ok (ts, s') := by
  induction fuel generalizing source s ts s' with
  | zero => cases h
  | succ fuel ih =>
    have hn := @nested_sound fuel ih
    unfold run at h
    dsimp only at h
    obtain ⟨r, hstep, h⟩ := bind_eq_ok.mp h
    cases r with
    | none =>
      exact ⟨_, s, [], hn, .refl s, step_stops hstep, h⟩
    | some s₂ =>
      obtain ⟨xs, hxs⟩ := step_lays hn hs hstep
      obtain ⟨nested, s₁, ys, hnested, hys, hstop, hfinish⟩ := ih (hxs.ready hs) h
      exact ⟨nested, s₁, _, hnested, hxs.trans hys, hstop, hfinish⟩

end ScanState

/-! ## Whole sources -/

/-- The stretches of a source from its start to its end, the tokens with the bodies of their
heredocs, and the comments. -/
structure LaidOut (source : Text) (xs : List Stretch) (tokens comments : List Token) :
    Prop where
  laid : ∃ d, Laid source (Cursor.ofSource source) xs d ∧ d.rest = [] ∧
    tokens = ScanState.attachBodies (xs.filterMap Stretch.token?) (xs.filterMap Stretch.body?) ++
      [Token.endAt d.pos]
  comments : comments = xs.filterMap Stretch.comment?
  heredocs : (xs.filterMap Stretch.token?).countP (fun t => t.kind = .heredoc) =
    (xs.filterMap Stretch.body?).length
  timely : Stretch.Timely 0 xs

theorem Token.scan_laidOut {source : Text} {tokens comments : List Token}
    (h : Token.scan source = .ok (tokens, comments)) : ∃ xs, LaidOut source xs tokens comments := by
  unfold Token.scan at h
  obtain ⟨⟨ts, s⟩, hr, h⟩ := bind_eq_ok.mp h
  cases h
  have hready := ScanState.start_ready_source source
  obtain ⟨nested, s₁, xs, hn, hlays, hstop, hfinish⟩ := ScanState.run_lays hready hr
  have hopener : s₁.opener = none := hlays.opener
  simp only [ScanState.finish, hopener] at hfinish
  obtain ⟨s₂, hres, hfinish⟩ := bind_eq_ok.mp hfinish
  obtain ⟨rfl, rfl⟩ := Prod.mk.inj (Except.ok.inj hfinish)
  obtain ⟨ys, hys, hwaiting⟩ := ScanState.resolveHeredocs_lays hn (hlays.ready hready) hres
  have hall := hlays.trans hys
  have hrest : s₂.cursor.rest = [] := by
    obtain ⟨cs, hcs⟩ := hys.laid.passes
    have hend : s₁.cursor.rest = [] := by
      rcases hstop with hstop | ⟨hsome, -⟩
      · exact hstop
      · simp [hopener] at hsome
    have := hcs.rest
    rw [hend, eq_comm, List.append_eq_nil_iff] at this
    exact this.2
  have htokens : s₂.tokens.reverse = (xs ++ ys).filterMap Stretch.token? := by
    rw [hall.tokens]
    simp [ScanState.start]
  have hbodies : s₂.bodies = (xs ++ ys).filterMap Stretch.body? := by
    rw [hall.bodies]
    rfl
  refine ⟨xs ++ ys, ⟨_, hall.laid, hrest, by rw [htokens, hbodies]⟩, ?_, ?_, hall.timely⟩
  · rw [hall.comments]
    simp [ScanState.start]
  · have := hall.waiting
    simp only [ScanState.start, HeredocQueue.empty, hwaiting, List.length_nil] at this
    omega

end ManifestTree
