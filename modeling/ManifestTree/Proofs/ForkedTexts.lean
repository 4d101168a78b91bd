import ManifestTree.Proofs.LexemeBounds
import ManifestTree.Proofs.ScanSettling
import ManifestTree.Proofs.TokenViews

/-!
# Two texts with the same characters

Where two texts go on with the same characters, a token of the one is a token of the other, provided
that what comes after these characters does not make a difference.  `Fork` describes the two texts
and how places in them compare, and `Fork.Lawful` says what may come after.  `Cursor.Beside` relates
cursors that have the same characters before them; a region between quotes that ends within these
has the same fragments in both texts, and so has a line of a heredoc body.
-/

namespace ManifestTree

open Text

/-- Two texts with a part in common: what comes after that part in either, the whole second text,
which places in the two correspond, and how the places kept in tokens are looked at. -/
structure Fork where
  rest : Text
  other : Text
  whole : Text
  places : Position → Position → Prop
  left : View
  right : View

/-- A token that ends within the common part ends there in both texts, and places go together. -/
structure Fork.Lawful (k : Fork) : Prop where
  step : ∀ {p p'}, k.places p p' → ∀ c, k.places (p.step c) (p'.step c)
  span : ∀ {p p' q q'}, k.places p p' → k.places q q' →
    k.left.span (.between p q) = k.right.span (.between p' q')
  cuts : Cuts k.rest k.other
  regex : ∀ v, Lexeme.regexLength? (v ++ k.rest) = none → Lexeme.regexLength? (v ++ k.other) = none
  lines : k.rest = [] ∨ k.rest.head? = some (.char '\n') →
    k.other = [] ∨ k.other.head? = some (.char '\n')

variable {k : Fork}

theorem Fork.Lawful.after (hk : k.Lawful) {p p' : Position} (h : k.places p p') (cs : Text) :
    k.places (p.after cs) (p'.after cs) := by
  induction cs generalizing p p' with
  | nil => exact h
  | cons c cs ih => exact ih (hk.step h c)

/-! ## Cursors -/

/-- Both cursors have the characters `w` before them, and then the texts part. -/
structure Cursor.Beside (k : Fork) (w : Text) (c c' : Cursor) : Prop where
  rest : c.rest = w ++ k.rest
  other : c'.rest = w ++ k.other
  pos : k.places c.pos c'.pos
  placed : At k.whole c'

namespace Cursor.Beside

variable {c d c' d' : Cursor} {w v cs : Text} {n : Nat}

theorem skip (hk : k.Lawful) (h : c.Beside k w c') (hn : n ≤ w.length) :
    (c.skip n).Beside k (w.drop n) (c'.skip n) where
  rest := by simp only [Cursor.skip, h.rest, List.drop_append_of_le_length hn]
  other := by simp only [Cursor.skip, h.other, List.drop_append_of_le_length hn]
  pos := by
    simp only [Cursor.skip, h.rest, h.other, List.take_append_of_le_length hn]
    exact hk.after h.pos _
  placed := h.placed.skip n

theorem length_eq (h : c.Beside k w c') : c.rest.length = w.length + k.rest.length := by
  rw [h.rest, List.length_append]

theorem other_length (h : c.Beside k w c') : c'.rest.length = w.length + k.other.length := by
  rw [h.other, List.length_append]

/-- Where the texts part in the first they part in the second. -/
theorem other_of_rest (h : c.Beside k w c') (hc : c.rest = k.rest) : c'.rest = k.other := by
  obtain rfl : w = [] := by
    have hlength := h.length_eq
    rw [hc] at hlength
    exact List.length_eq_zero_iff.mp (by omega)
  exact h.other

/-- What is skipped of the text before it parts is common. -/
theorem le_of_skip (h : c.Beside k w c') (hn : n ≤ c.rest.length)
    (hleft : k.rest.length ≤ (c.skip n).rest.length) : n ≤ w.length := by
  have := h.length_eq
  simp only [Cursor.skip, List.length_drop] at hleft
  omega

theorem reads (h : c.Beside k w c') (hd : d.Beside k v d') (hr : c.Reads cs d) :
    w = cs ++ v ∧ c'.Reads cs d' := by
  have hw : w = cs ++ v := by
    have := hr.rest
    rw [h.rest, hd.rest, ← List.append_assoc] at this
    exact List.append_cancel_right this
  have hrest : c'.rest = cs ++ d'.rest := by
    rw [h.other, hd.other, hw, List.append_assoc]
  refine ⟨hw, hrest, ?_⟩
  obtain ⟨before, hs, hp⟩ := h.placed
  obtain ⟨before', hs', hp'⟩ := hd.placed
  rw [hs, hrest, ← List.append_assoc] at hs'
  rw [hp, hp', ← List.append_cancel_right hs', Position.after_append]

theorem spanTo (hk : k.Lawful) (h : c.Beside k w c') (hd : d.Beside k v d') :
    k.left.span (c.spanTo d) = k.right.span (c'.spanTo d') := hk.span h.pos hd.pos

theorem upTo (h : c.Beside k w c') (hd : d.Beside k v d') (hr : c.Reads cs d) :
    c'.upTo d' = c.upTo d := by
  rw [hr.upTo_eq, (h.reads hd hr).2.upTo_eq]

theorem token (hk : k.Lawful) (h : c.Beside k w c') (hd : d.Beside k v d') (hr : c.Reads cs d)
    (kind : TokenKind) {detail detail' : TokenDetail}
    (hdetail : detail'.seen k.right = detail.seen k.left) :
    (Token.mk kind (c'.upTo d') (c'.spanTo d') detail').seen k.right =
      (Token.mk kind (c.upTo d) (c.spanTo d) detail).seen k.left := by
  rw [Token.seen, Token.seen, h.upTo hd hr, h.spanTo hk hd, hdetail]

theorem fragment (hk : k.Lawful) (h : c.Beside k w c') (hd : d.Beside k v d')
    (hr : c.Reads cs d) (piece piece' : Piece)
    (hpiece : piece'.seen k.right = piece.seen k.left) :
    (Fragment.mk (c'.upTo d') (c'.spanTo d') piece').seen k.right =
      (Fragment.mk (c.upTo d) (c.spanTo d) piece).seen k.left := by
  rw [Fragment.seen, Fragment.seen, h.upTo hd hr, h.spanTo hk hd, hpiece]

end Cursor.Beside

/-- Where fewer than `n` characters of the second text are left, the second scanner of
interpolations answers there what the first does, as long as the first does not leave the common
part. -/
def NestedScan.Beside (k : Fork) (n : Nat) (nested nested' : NestedScan) : Prop :=
  ∀ o o' c c' w ts d, Cursor.Beside k w c c' → c'.rest.length < n →
    nested o c = .ok (ts, d) → k.rest.length < d.rest.length →
      ∃ ts' d' v, nested' o' c' = .ok (ts', d') ∧
        ts'.map (Token.seen k.right) = ts.map (Token.seen k.left) ∧ d.Beside k v d'

/-! ## Fragments -/

namespace Fragments

variable {nested nested' : NestedScan} {n : Nat} {run c last run' c' last' : Cursor}
  {v w cs : Text} {r r' : Reading}

/-- The regions at two cursors end in the same way. -/
def Stop.Beside (c c' : Cursor) : Stop → Stop → Prop
  | .quote q _, .quote q' _ => q' = q
  | .offset m, .offset m' => m + c'.offset = m' + c.offset
  | _, _ => False

/-- The regions at two cursors are read in the same way. -/
structure Reading.Beside (c c' : Cursor) (r r' : Reading) : Prop where
  escapes : r'.escapes = r.escapes
  interpolate : r'.interpolate = r.interpolate
  stop : r.stop.Beside c c' r'.stop

theorem Reading.Beside.reads (h : r.Beside c c' r') {d d' : Cursor} (hr : c.Reads cs d)
    (hr' : c'.Reads cs d') : r.Beside d d' r' := by
  refine ⟨h.escapes, h.interpolate, ?_⟩
  have hstop := h.stop
  cases hs : r.stop with
  | quote q o =>
    cases hs' : r'.stop with
    | quote q' o' =>
      rw [hs, hs'] at hstop
      exact hstop
    | offset m' =>
      rw [hs, hs'] at hstop
      exact hstop.elim
  | offset m =>
    cases hs' : r'.stop with
    | quote q' o' =>
      rw [hs, hs'] at hstop
      exact hstop.elim
    | offset m' =>
      rw [hs, hs'] at hstop
      have hoffset := hr.offset
      have hoffset' := hr'.offset
      have hstop : m + c'.offset = m' + c.offset := hstop
      show m + d'.offset = m' + d.offset
      omega

theorem Reading.Beside.holds (h : r.Beside c c' r') (hc : c.Beside k w c')
    (hw : w ≠ [] ∨ ∃ m, r.stop = .offset m) : r'.stop.holds c' = r.stop.holds c := by
  have hstop := h.stop
  cases hs : r.stop with
  | quote q o =>
    cases hs' : r'.stop with
    | quote q' o' =>
      rw [hs, hs'] at hstop
      obtain rfl : q' = q := hstop
      have hw : w ≠ [] := hw.resolve_right fun ⟨m, hm⟩ => by
        rw [hs] at hm
        cases hm
      simp only [Stop.holds, hc.rest, hc.other, List.head?_append_of_ne_nil _ hw]
    | offset m' =>
      rw [hs, hs'] at hstop
      exact hstop.elim
  | offset m =>
    cases hs' : r'.stop with
    | quote q' o' =>
      rw [hs, hs'] at hstop
      exact hstop.elim
    | offset m' =>
      rw [hs, hs'] at hstop
      have hstop : m + c'.offset = m' + c.offset := hstop
      simp only [Stop.holds, decide_eq_decide]
      omega

/-- A region that goes on at a cursor goes on in the same way beside it. -/
theorem Reading.Beside.next (hk : k.Lawful) (h : r.Beside c c' r') (hc : c.Beside k w c')
    (hw : 2 ≤ w.length) (hle : (r.next c).length ≤ w.length) : r'.next c' = r.next c := by
  have hne : w ≠ [] := by
    rintro rfl
    exact absurd hw (by decide)
  have hend : ¬ c.atEnd := by simp [Cursor.atEnd, hc.rest, hne]
  have hend' : ¬ c'.atEnd := by simp [Cursor.atEnd, hc.other, hne]
  have hspecial (cs : Text) : r'.special cs = r.special cs := by
    unfold Reading.special
    rw [h.escapes, h.interpolate]
  unfold Reading.next at hle ⊢
  rw [h.holds hc (.inl hne)]
  by_cases hstop : r.stop.holds c = true
  · rw [if_pos hstop, if_pos hstop]
  · rw [if_neg hstop, if_neg hend, hc.rest] at hle
    rw [if_neg hstop, if_neg hstop, if_neg hend, if_neg hend', hspecial, hc.rest, hc.other,
      Reading.special_cut r hw hk.cuts hle]

/-- What stands at a cursor takes characters of the text. -/
theorem Reading.next_within (r : Reading) (c : Cursor) : (r.next c).length ≤ c.rest.length := by
  unfold Reading.next
  split
  · exact Nat.zero_le _
  · split
    · split <;> exact Nat.zero_le _
    · rename_i hend
      exact r.special_within (by simpa [Cursor.atEnd] using hend)

theorem content_beside (hk : k.Lawful) (hrun : run.Beside k v run') (h : c.Beside k w c')
    (hr : run.Reads cs c) :
    (content run' c').map (Fragment.seen k.right) = (content run c).map (Fragment.seen k.left) := by
  have hr' := (hrun.reads h hr).2
  have hoffset := hr.offset
  have hoffset' := hr'.offset
  unfold content
  by_cases hle : c.offset ≤ run.offset
  · rw [if_pos hle, if_pos (by omega)]
    rfl
  · rw [if_neg hle, if_neg (by omega)]
    exact congrArg (fun f => [f]) (hrun.fragment hk h hr .content .content rfl)

theorem interpolation_beside (hk : k.Lawful) (hn : nested.Sound)
    (hs : nested.Beside k n nested') (h : c.Beside k w c') (hlen : c'.rest.length ≤ n)
    {cs : Text} (hc : c.rest = .char '$' :: .char '\x7b' :: cs) (htwo : 2 ≤ w.length) {f : Fragment}
    {after : Cursor} (hf : interpolation nested c = .ok (f, after))
    (hleft : k.rest.length ≤ after.rest.length) :
    ∃ f' after' v, interpolation nested' c' = .ok (f', after') ∧
      f'.seen k.right = f.seen k.left ∧ after.Beside k v after' := by
  obtain ⟨ws, -, hread, -⟩ := interpolation_sound hn hc hf
  unfold interpolation at hf
  obtain ⟨⟨ts, brace⟩, hts, hf⟩ := bind_eq_ok.mp hf
  cases hf
  obtain ⟨inside, -, hhead, -⟩ := hn _ _ _ _ hts
  obtain ⟨rest, hrest⟩ := List.head?_eq_some_iff.mp hhead
  have hone : 1 ≤ brace.rest.length := by
    rw [hrest]
    exact Nat.succ_pos _
  have hbrace : k.rest.length < brace.rest.length := by
    simp only [Cursor.skip, List.length_drop] at hleft
    omega
  have hopen := h.skip hk htwo
  have hinside : (c'.skip 2).rest.length < n := by
    have := h.other_length
    simp only [Cursor.skip, List.length_drop]
    omega
  obtain ⟨ts', brace', v, hok, hmap, hd⟩ :=
    hs (c.here 2) (c'.here 2) _ _ _ _ _ hopen hinside hts hbrace
  have hafter := hd.skip hk (hd.le_of_skip hone hleft)
  refine ⟨.mk (c'.upTo (brace'.skip 1)) (c'.spanTo (brace'.skip 1)) (.interpolation ts'),
    brace'.skip 1, _, ?_, ?_, hafter⟩
  · unfold interpolation
    rw [hok]
    rfl
  · exact h.fragment hk hafter hread (.interpolation ts) (.interpolation ts') (by
      rw [Piece.seen_interpolation, Piece.seen_interpolation, hmap])

/-- The region at a cursor ends within the common part: a quote closes it there, or it ends before
the end of the first text at which the texts part. -/
def Reading.EndsWithin (k : Fork) (r : Reading) (c last : Cursor) : Prop :=
  k.rest.length < last.rest.length ∨
    (k.rest = [] ∧ ∃ m, r.stop = .offset m ∧ m < c.offset + c.rest.length)

theorem Reading.EndsWithin.reads (h : r.EndsWithin k c last) {d : Cursor} (hr : c.Reads cs d) :
    r.EndsWithin k d last := by
  refine h.imp_right ?_
  rintro ⟨hnil, m, hm, hlt⟩
  refine ⟨hnil, m, hm, ?_⟩
  have hoffset := hr.offset
  have hlength := congrArg List.length hr.rest
  rw [List.length_append] at hlength
  omega

/-- Where such a region goes on there are two more characters at least. -/
theorem Reading.EndsWithin.two_le (h : r.EndsWithin k c last) (hc : c.Beside k w c')
    (hstop : ¬ r.stop.holds c) (hlast : last.rest.length < c.rest.length) : 2 ≤ w.length := by
  have hlength := hc.length_eq
  rcases h with hleft | ⟨hnil, m, hm, hlt⟩
  · omega
  · rw [hm, Stop.holds, decide_eq_true_eq] at hstop
    rw [hnil, List.length_nil] at hlength
    omega

/-- Where such a region has come to its end, the other text has come to the same end. -/
theorem Reading.Beside.next_done (h : r.Beside c c' r') (hc : c.Beside k w c')
    (hends : r.EndsWithin k c c) (hx : r.next c = .done) : r'.next c' = .done := by
  have hspec := @Reading.next_spec r c
  simp only [hx] at hspec
  obtain ⟨hholds, hw⟩ : r.stop.holds c ∧ (w ≠ [] ∨ ∃ m, r.stop = .offset m) := by
    rcases hends with hlt | ⟨-, m, hm, hlt⟩
    · have hlength := hc.length_eq
      refine ⟨hspec.resolve_right ?_, .inl ?_⟩
      · rintro ⟨hnil, -⟩
        rw [hnil] at hlt
        cases hlt
      · rintro rfl
        rw [List.length_nil] at hlength
        omega
    · refine ⟨hspec.elim id ?_, .inr ⟨m, hm⟩⟩
      rintro ⟨hnil, -⟩
      rw [hnil, List.length_nil, Nat.add_zero] at hlt
      rw [hm]
      exact decide_eq_true (Nat.le_of_lt hlt)
  unfold Reading.next
  rw [if_pos ((h.holds hc hw).trans hholds)]

/-- While the rest of such a region is scanned, the end of the common part is yet to come. -/
theorem Reading.EndsWithin.ahead (hends : r.EndsWithin k c last) (hn : nested.Sound)
    (h : c.Beside k w c') {fuel : Nat} {d : Cursor} {more : List Fragment}
    (hm : scanFrom nested r fuel run d = .ok (more, last)) (hr : run.Reads cs d)
    (hlt : d.rest.length < c.rest.length) (hgoes : r.next c ≠ .done) :
    k.rest.length ≤ d.rest.length ∧ 2 ≤ w.length := by
  obtain ⟨es, hes, -⟩ := (scanFrom_scanned hn hr hm).tiles
  have hle : last.rest.length ≤ d.rest.length := by
    rw [hes.rest, List.length_append]
    omega
  refine ⟨?_, hends.two_le h (fun hstop => hgoes ?_) (by omega)⟩
  · rcases hends with hlt | ⟨hnil, -⟩
    · omega
    · rw [hnil]
      exact Nat.zero_le _
  · unfold Reading.next
    rw [if_pos hstop]

/-- A piece that is passed before the end of such a region lies in the common part. -/
theorem Reading.EndsWithin.passes (hends : r.EndsWithin k c last) (hn : nested.Sound)
    (h : c.Beside k w c') {fuel j : Nat} {more : List Fragment} (hpos : 0 < j) (hne : c.rest ≠ [])
    (hwithin : j ≤ c.rest.length) (hgoes : r.next c ≠ .done) (hr : run.Reads cs (c.skip j))
    (hm : scanFrom nested r fuel run (c.skip j) = .ok (more, last)) :
    j ≤ w.length ∧ (c'.skip j).rest.length < c'.rest.length ∧ 2 ≤ w.length := by
  obtain ⟨hleft, htwo⟩ := hends.ahead hn h hm hr (length_skip_lt hpos hne) hgoes
  refine ⟨h.le_of_skip hwithin hleft, length_skip_lt hpos ?_, htwo⟩
  rw [h.other]
  exact List.append_ne_nil_of_left_ne_nil (List.ne_nil_of_length_pos (by omega)) _

/-- The fragments of a region are the same in both texts. -/
theorem scanFrom_beside (hk : k.Lawful) (hn : nested.Sound) (hs : nested.Beside k n nested')
    {fuel fuel' : Nat} {fs : List Fragment} (hreading : r.Beside c c' r')
    (hrun : run.Beside k v run') (h : c.Beside k w c') (hr : run.Reads cs c)
    (hlen : c'.rest.length ≤ n) (hfuel : c'.rest.length < fuel')
    (hscan : scanFrom nested r fuel run c = .ok (fs, last)) (hends : r.EndsWithin k c last) :
    ∃ fs' last' v', scanFrom nested' r' fuel' run' c' = .ok (fs', last') ∧
      fs'.map (Fragment.seen k.right) = fs.map (Fragment.seen k.left) ∧
        last.Beside k v' last' := by
  induction fuel generalizing fuel' run c run' c' v w cs fs with
  | zero => cases hscan
  | succ fuel ih =>
    obtain ⟨m, rfl⟩ := Nat.exists_eq_succ_of_ne_zero (Nat.ne_zero_of_lt hfuel)
    have resumed {f f' : Fragment} {after after' : Cursor} {u ds : Text}
        (hf : f'.seen k.right = f.seen k.left) (hread : c.Reads ds after)
        (hafter : after.Beside k u after') (hlt : after'.rest.length < c'.rest.length)
        (hfs : (scanFrom nested r fuel after after >>=
          fun p => .ok (content run c ++ f :: p.1, p.2)) = Except.ok (fs, last)) :
        ∃ fs' last' v', (scanFrom nested' r' m after' after' >>=
          fun p => .ok (content run' c' ++ f' :: p.1, p.2)) = Except.ok (fs', last') ∧
          fs'.map (Fragment.seen k.right) = fs.map (Fragment.seen k.left) ∧
            last.Beside k v' last' := by
      obtain ⟨⟨more, last''⟩, hm, hmk⟩ := bind_eq_ok.mp hfs
      cases hmk
      have hm' : after'.rest.length < m := by omega
      obtain ⟨more', last', v', hok, hmap, hlast⟩ := ih (hreading.reads hread
        (h.reads hafter hread).2) hafter hafter (.refl after) (by omega) hm' hm (hends.reads hread)
      refine ⟨content run' c' ++ f' :: more', last', v', by rw [hok]; rfl, ?_, hlast⟩
      rw [List.map_append, List.map_append, List.map_cons, List.map_cons, hmap, hf,
        content_beside hk hrun h hr]
    have hspec := @Reading.next_spec r c
    have hwithin := r.next_within c
    have hnext := hreading.next hk h
    unfold scanFrom at hscan ⊢
    cases hx : r.next c with
    | done =>
      simp only [hx, Except.ok.injEq, Prod.mk.injEq] at hscan
      obtain ⟨rfl, rfl⟩ := hscan
      rw [hreading.next_done h hends hx]
      exact ⟨_, c', w, rfl, content_beside hk hrun h hr, h⟩
    | unterminated opener =>
      simp only [hx] at hscan
      cases hscan
    | escape j value =>
      simp only [hx] at hscan hspec hwithin hnext
      obtain ⟨⟨more, last''⟩, hm, hmk⟩ := bind_eq_ok.mp hscan
      cases hmk
      obtain ⟨hj, hlt, htwo⟩ :=
        hends.passes hn h hspec.2.1 hspec.1 hwithin (by rw [hx]; simp) (.refl _) hm
      rw [hnext htwo hj]
      refine resumed (h.fragment hk (h.skip hk hj) (Cursor.reads_skip c j) (.escape value)
        (.escape value) rfl) (Cursor.reads_skip c j) (h.skip hk hj) hlt ?_
      rw [hm]
      rfl
    | «variable» j =>
      simp only [hx] at hscan hspec hwithin hnext
      obtain ⟨⟨more, last''⟩, hm, hmk⟩ := bind_eq_ok.mp hscan
      cases hmk
      obtain ⟨hj, hlt, htwo⟩ :=
        hends.passes hn h hspec.2 hspec.1 hwithin (by rw [hx]; simp) (.refl _) hm
      rw [hnext htwo hj]
      refine resumed (h.fragment hk (h.skip hk hj) (Cursor.reads_skip c j) .variable .variable rfl)
        (Cursor.reads_skip c j) (h.skip hk hj) hlt ?_
      rw [hm]
      rfl
    | interpolation =>
      simp only [hx] at hscan hspec hwithin hnext
      obtain ⟨cs, hcs⟩ := hspec
      obtain ⟨⟨f, after⟩, hf, hscan⟩ := bind_eq_ok.mp hscan
      obtain ⟨⟨more, last''⟩, hm, hmk⟩ := bind_eq_ok.mp hscan
      cases hmk
      obtain ⟨ws, -, hread, hws, -⟩ := interpolation_sound hn hcs hf
      have hlt : after.rest.length < c.rest.length := by
        have := List.length_pos_iff.mpr hws
        rw [hread.rest, List.length_append]
        omega
      obtain ⟨hleft, htwo⟩ := hends.ahead hn h hm (.refl after) hlt (by rw [hx]; simp)
      obtain ⟨f', after', u, hok, hseen, hafter⟩ :=
        interpolation_beside hk hn hs h hlen hcs htwo hf hleft
      rw [hnext htwo htwo]
      show ∃ fs' last' v', (interpolation nested' c' >>= _) = _ ∧ _
      rw [hok]
      refine resumed hseen hread hafter ?_ ?_
      · have := h.length_eq
        have := h.other_length
        have := hafter.length_eq
        have := hafter.other_length
        omega
      · rw [hm]
        rfl
    | plain =>
      simp only [hx] at hscan hspec hwithin hnext
      obtain ⟨ch, rest, hch⟩ := List.exists_cons_of_ne_nil hspec
      have hone := Cursor.reads_skip_one hch
      obtain ⟨hj, hlt, htwo⟩ :=
        hends.passes hn h Nat.one_pos hspec hwithin (by rw [hx]; simp) (hr.trans hone) hscan
      rw [hnext htwo hj]
      have hafter := h.skip hk hj
      have hm' : (c'.skip 1).rest.length < m := by omega
      exact ih (hreading.reads hone (h.reads hafter hone).2) hrun hafter (hr.trans hone)
        (by omega) hm' hscan (hends.reads hone)

theorem scan_beside (hk : k.Lawful) (hn : nested.Sound) (hs : nested.Beside k n nested')
    {fs : List Fragment} (hreading : r.Beside c c' r') (h : c.Beside k w c')
    (hlen : c'.rest.length ≤ n) (hscan : scan nested r c = .ok (fs, last))
    (hends : r.EndsWithin k c last) :
    ∃ fs' last' v, scan nested' r' c' = .ok (fs', last') ∧
      fs'.map (Fragment.seen k.right) = fs.map (Fragment.seen k.left) ∧ last.Beside k v last' :=
  scanFrom_beside hk hn hs hreading h h (.refl c) hlen (Nat.lt_succ_self _) hscan hends

end Fragments

end ManifestTree
