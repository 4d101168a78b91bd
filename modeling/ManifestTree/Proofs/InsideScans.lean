import ManifestTree.Proofs.ForkedScans

/-!
# The inside of an interpolation as a source of its own

The inside of an interpolation is scanned within the source, where the closing brace and more come
after it.  Scanned as a source of its own it ends instead, and places are counted from its start.
Both scans find the same.
-/

namespace ManifestTree

/-- A part of a source that begins at the place `p` with the rest of the source after it, and the
same part with nothing after it. -/
def Fork.cutOut (p : Position) (inner rest : Text) : Fork where
  rest := rest
  other := []
  whole := inner
  places q q' := q'.Counted ∧ q = p.translate q'
  left := .plain
  right := .within p

theorem Fork.cutOut_lawful (p : Position) (inner rest : Text) :
    (Fork.cutOut p inner rest).Lawful where
  step := by
    rintro q q' ⟨hcounted, rfl⟩ c
    exact ⟨hcounted.step c, (hcounted.translate_step c).symm⟩
  span := by
    rintro q q' r r' ⟨hcounted, rfl⟩ ⟨-, rfl⟩
    exact hcounted.translate_between.symm
  cuts := .of_separated separated_nil
  regex _ := Lexeme.regexLength?_missed (.inl rfl)
  lines _ := .inl rfl

/-- The inside of an interpolation is read up to its brace, and scanned alone it has the same tokens
and comments, with places counted from its start. -/
theorem ScanState.run_inside {fuel : Nat} {opener : Span} {c : Cursor} {ts : List Token}
    {s : ScanState} (h : run fuel (start (some opener) c) = .ok (ts, s)) :
    ∃ inner rest us comments, c.Reads inner s.cursor ∧ s.cursor.rest = .char '\x7d' :: rest ∧
      Token.scan inner = .ok (us, comments) ∧ ts = us.map (Token.translate c.pos) ∧
        s.comments.reverse = comments.map (Token.translate c.pos) := by
  obtain ⟨inner, rest, hpasses, hrest⟩ := run_within rfl (start_ready [] opener c) h
  have hread := hpasses.reads (by rw [hrest]; simp)
  have hk := Fork.cutOut_lawful c.pos inner s.cursor.rest
  have hbegin : Cursor.Beside (.cutOut c.pos inner s.cursor.rest) inner c (Cursor.ofSource inner) :=
    { rest := hread.rest
      other := (List.append_nil inner).symm
      pos := ⟨Position.counted_start, (Position.translate_start c.pos).symm⟩
      placed := .ofSource inner }
  obtain ⟨s', v, rfl, hrun, hs⟩ := run_beside hk (start_beside (some opener) none
    hbegin nofun) start_idle rfl (Nat.lt_succ_self _) h ⟨rfl, rfl⟩
  have hfound := hs.found hk rfl rfl
  obtain ⟨comments, comments', hcomments, hcomments', hmap⟩ := hs.comments
  simp only [Fork.cutOut, Token.seen_within_eq_translate, Token.seen_plain_eq_id, List.map_id]
    at hfound hmap
  refine ⟨inner, rest, _, s'.comments.reverse, hread, hrest, bind_eq_ok.mpr ⟨_, hrun, rfl⟩,
    hfound.symm, ?_⟩
  rw [hcomments, hcomments', List.map_reverse]
  show (comments ++ []).reverse = ((comments' ++ []).map _).reverse
  rw [List.append_nil, List.append_nil, hmap]

end ManifestTree
