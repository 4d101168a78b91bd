import ManifestTree.Proofs.LocatedTokens

/-!
# What a step of a scan does

A step of a scan passes a blank or a comment, it reads a token without detail, a string or a heredoc
tag, or it passes a line end and reads the bodies of all heredocs that wait.  `ScanState.Moves` has
one constructor for each, so what is to be shown of a step is shown for five cases.  What every step
keeps holds of the state in which a run ends.
-/

namespace ManifestTree

/-- A heredoc that is opened waits after the others. -/
theorem HeredocQueue.enqueue_ok {q queue : HeredocQueue} {inside : Text} {span : Span}
    {pending : PendingHeredoc} (h : q.enqueue inside span = .ok (pending, queue)) :
    ∃ tag, pending = ⟨q.next, tag, span⟩ ∧ queue = ⟨q.next + 1, q.waiting ++ [pending]⟩ := by
  unfold enqueue at h
  split at h
  · cases h
    exact ⟨_, rfl, rfl⟩
  · cases h

namespace ScanState

variable {source : Text} {nested : NestedScan} {s s' : ScanState}

inductive Moves (nested : NestedScan) (s : ScanState) : ScanState → Prop
  /-- It passes a blank or a comment. -/
  | passes (cursor : Cursor) (comments : List Token) :
      Moves nested s { s with cursor, comments }
  /-- It reads a token that carries nothing. -/
  | reads (kind : TokenKind) (after : Cursor) : kind ≠ .heredoc →
      Moves nested s (s.emit kind after .plain)
  /-- It reads a string. -/
  | quotes {quote : CodePoint} {opener : Span} {fragments : List Fragment} {close : Cursor} :
      Fragments.scan nested (quotedReading quote opener) (s.cursor.skip 1) =
        .ok (fragments, close) →
      Moves nested s (s.emit .string (close.skip 1) (.fragments fragments))
  /-- It opens a heredoc with a token of `n` characters. -/
  | opens {inside : Text} {n : Nat} {pending : PendingHeredoc} {queue : HeredocQueue} :
      s.cursor.rest ≠ [] → 0 < n →
      s.queue.enqueue inside (s.cursor.spanTo (s.cursor.skip n)) = .ok (pending, queue) →
      Moves nested s
        ({ s with queue }.emit .heredoc (s.cursor.skip n) (.heredoc pending.tag none))
  /-- It passes a line end and reads the bodies of all heredocs that wait. -/
  | resolves {s' : ScanState} {cs : Text} : s.cursor.rest = .char '\n' :: cs →
      s.blank.resolveHeredocs nested = .ok s' → Moves nested s s'

/-! ## Steps -/

theorem readVariable_moves (h : s.readVariable = .ok s') : s.Moves nested s' := by
  unfold readVariable at h
  split at h
  · cases h
    exact .reads _ _ (by simp)
  · cases h

theorem readString_moves {quote : CodePoint} (h : s.readString nested quote = .ok s') :
    s.Moves nested s' := by
  unfold readString at h
  obtain ⟨⟨fs, close⟩, hfs, h⟩ := bind_eq_ok.mp h
  cases h
  exact .quotes hfs

theorem readNumber_moves (h : s.readNumber = .ok s') : s.Moves nested s' := by
  unfold readNumber at h
  split at h
  · cases h
  rename_i n form _
  dsimp only at h
  split at h
  · cases h
  split at h
  · cases h
  cases h
  exact .reads _ _ (by cases form <;> simp [numberKind])

theorem readHeredocTag_moves (hc : s.cursor.rest ≠ []) (h : s.readHeredocTag = .ok s') :
    s.Moves nested s' := by
  unfold readHeredocTag at h
  dsimp only at h
  split at h
  · cases h
  split at h
  · cases h
  rw [Cursor.skip_skip] at h
  obtain ⟨⟨pending, queue⟩, henqueue, h⟩ := bind_eq_ok.mp h
  cases h
  exact .opens hc (Nat.succ_pos _) henqueue

theorem readSymbol_moves {c : CodePoint} (h : s.readSymbol c = .ok s') : s.Moves nested s' := by
  unfold readSymbol at h
  split at h
  · cases h
    exact .reads _ _ (by simp)
  · cases h

theorem readWord_moves {c : CodePoint} (h : s.readWord c = .ok s') : s.Moves nested s' := by
  unfold readWord at h
  split at h
  · cases h
    exact .reads _ _ (by simp)
  split at h
  · cases h
    exact .reads _ _ (ofName_kind _).2.2
  split at h
  · cases h
    exact .reads _ _ (by simp)
  · exact readSymbol_moves h

theorem readToken_moves {c : CodePoint} (hc : s.cursor.rest ≠ [])
    (h : s.readToken nested c = .ok s') :
    s.Moves nested s' := by
  unfold readToken at h
  split at h
  · exact readVariable_moves h
  split at h
  · exact readString_moves h
  split at h
  · exact readNumber_moves h
  split at h
  · exact readHeredocTag_moves hc h
  · exact readWord_moves h

/-- Each step of a scan is one of the five. -/
theorem step_moves (h : s.step nested = .ok (some s')) : s.Moves nested s' := by
  unfold step at h
  split at h
  · cases h
  rename_i c cs hc
  split at h
  · rename_i hline
    exact .resolves (hline ▸ hc) (some_map_eq_ok.mp h)
  split at h
  · cases h
    exact .passes _ _
  split at h
  · cases h
    exact .passes _ _
  split at h
  · have h := some_map_eq_ok.mp h
    unfold blockComment at h
    split at h
    · cases h
      exact .passes _ _
    · cases h
  split at h
  · cases h
  · exact readToken_moves (by simp [hc]) (some_map_eq_ok.mp h)

/-! ## Runs -/

/-- What every step of a run keeps holds of the state in which the run ends. -/
theorem run_invariant {P : ScanState → Prop}
    (hstep : ∀ {nested s s'}, NestedScan.Sound nested → s.Ready source → P s →
      s.step nested = .ok (some s') → P s')
    {fuel : Nat} {ts : List Token} (hs : s.Ready source) (hP : P s)
    (h : run fuel s = .ok (ts, s')) :
    ∃ nested s₁, NestedScan.Sound nested ∧ s₁.Ready source ∧ P s₁ ∧
      s₁.finish nested = .ok (ts, s') := by
  induction fuel generalizing s with
  | zero => cases h
  | succ fuel ih =>
    have hn := @nested_sound fuel run_lays
    unfold run at h
    dsimp only at h
    obtain ⟨r, hr, h⟩ := bind_eq_ok.mp h
    cases r with
    | none => exact ⟨_, s, hn, hs, hP, h⟩
    | some s₂ =>
      obtain ⟨xs, hlays⟩ := step_lays hn hs hr
      exact ih (hlays.ready hs) (hstep hn hs hP hr) h

end ScanState

end ManifestTree
