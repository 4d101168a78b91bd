import ManifestTree.Proofs.HeredocClosings

/-!
# Histories of a queue of heredocs

A queue serves requests: to open a heredoc, and to read the body of the oldest one that waits.
Heredocs get their tickets in the order of opening and leave the queue in that order, whatever comes
of reading their bodies.
-/

namespace ManifestTree

open Text

/-! ## Outcomes -/

/-- The line search apart, reading a body reports no heredoc without an end. -/
theorem PendingHeredoc.scanLines_endsHeredocs {nested : NestedScan} (hn : nested.EndsHeredocs)
    {tag : HeredocTag} {indent : Option Nat} {chomp : Bool} {resume : Cursor}
    {lines : List SourceLine} :
    Refuses SyntaxError.EndsHeredocs (scanLines nested tag indent chomp resume lines) := by
  induction lines generalizing resume with
  | nil => exact refuses_ok _
  | cons line more ih =>
    unfold scanLines
    dsimp only
    split
    · exact ih
    · refine refuses_bind (Fragments.scanFrom_endsHeredocs hn) fun p _ => ?_
      exact refuses_bind ih fun _ _ => refuses_ok _

/-- What came of reading a body is about the heredoc: the body has its ticket, and where no end is
found the report is about its tag. -/
def PendingHeredoc.Owns (p : PendingHeredoc) : Except Failure HeredocBody → Prop
  | .ok body => body.ticket = p.ticket
  | .error (.rejected e) => e.kind = .unterminatedHeredoc →
      e = ⟨.missingTerminator p.tag.terminator, p.span⟩
  | .error _ => True

theorem PendingHeredoc.resolve_owns (p : PendingHeredoc) (c : Cursor) :
    p.Owns (p.resolve Token.scanNested c) := by
  unfold resolve
  split
  · exact fun _ => rfl
  · rename_i body line closing _
    dsimp only
    generalize (if closing.trim.margin then some closing.indent else none) = indent
    have hlines := @scanLines_endsHeredocs _ Token.scanNested_endsHeredocs p.tag indent
      closing.trim.chomp c body
    cases hs : scanLines Token.scanNested p.tag indent closing.trim.chomp c body with
    | ok fragments => rfl
    | error f =>
      cases f with
      | rejected e => exact fun hk => absurd hk (hlines e hs)
      | _ => trivial

namespace HeredocQueue

/-! ## Requests -/

/-- What a queue of heredocs may be asked for. -/
inductive Request where
  /-- To open a heredoc with the text of a tag at a place. -/
  | opening (tagText : Text) (span : Span)
  /-- To read the body of the oldest heredoc from an offset of a source on, in a line. -/
  | reading (source : Text) (offset line : Nat)

/-- What a queue answers. -/
inductive Answer where
  /-- A heredoc is opened. -/
  | opened (p : PendingHeredoc)
  /-- The tag is malformed. -/
  | refused (f : Failure)
  /-- A heredoc has left the queue. -/
  | left (outcome : Except Failure HeredocBody)
  /-- No heredoc waits. -/
  | idle

namespace Answer

/-- The heredoc that was opened. -/
def opened? : Answer → Option PendingHeredoc
  | opened p => some p
  | _ => none

/-- What came of reading the body of the heredoc that has left. -/
def outcome? : Answer → Option (Except Failure HeredocBody)
  | left outcome => some outcome
  | _ => none

end Answer

/-- Serves a request. -/
def serve (q : HeredocQueue) : Request → Answer × HeredocQueue
  | .opening tagText span =>
    match q.enqueue tagText span with
    | .ok (p, q) => (.opened p, q)
    | .error f => (.refused f, q)
  | .reading source offset line =>
    match q.resolveNext Token.scanNested ⟨⟨offset, line, 1⟩, source.drop offset⟩ with
    | some (outcome, q) => (.left outcome, q)
    | none => (.idle, q)

/-- Serves requests one after the other. -/
def serveAll (q : HeredocQueue) : List Request → List Answer × HeredocQueue
  | [] => ([], q)
  | r :: rs =>
    let (answer, q) := q.serve r
    let (answers, q) := q.serveAll rs
    (answer :: answers, q)

/-- A queue serves a request to open a heredoc with a tag that is well formed. -/
theorem serve_opening_ok {tagText : Text} {tag : HeredocTag}
    (h : HeredocTag.parse tagText = .ok tag) (q : HeredocQueue) (span : Span) :
    q.serve (.opening tagText span) =
      (.opened ⟨q.next, tag, span⟩, ⟨q.next + 1, q.waiting ++ [⟨q.next, tag, span⟩]⟩) := by
  simp only [serve, enqueue, h]

/-- A tag that is malformed changes nothing. -/
theorem serve_opening_error {tagText : Text} {problem : Problem}
    (h : HeredocTag.parse tagText = .error problem) (q : HeredocQueue) (span : Span) :
    q.serve (.opening tagText span) = (.refused (.rejected ⟨problem, span⟩), q) := by
  simp only [serve, enqueue, h]
  rfl

/-- A request to read a body takes the oldest heredoc, whatever comes of it. -/
theorem serve_reading {q : HeredocQueue} {p : PendingHeredoc} {waiting : List PendingHeredoc}
    (h : q.waiting = p :: waiting) (source : Text) (offset line : Nat) :
    ∃ outcome, q.serve (.reading source offset line) = (.left outcome, ⟨q.next, waiting⟩) ∧
      p.Owns outcome := by
  refine ⟨p.resolve Token.scanNested ⟨⟨offset, line, 1⟩, source.drop offset⟩, ?_,
    p.resolve_owns _⟩
  simp only [serve, resolveNext, h]

theorem serve_reading_idle {q : HeredocQueue} (h : q.waiting = []) (source : Text)
    (offset line : Nat) : q.serve (.reading source offset line) = (.idle, q) := by
  simp only [serve, resolveNext, h]

/-! ## Histories -/

/-- The heredocs opened so far, oldest first. -/
def opened (answers : List Answer) : List PendingHeredoc :=
  answers.filterMap Answer.opened?

/-- What came of the bodies read so far. -/
def outcomes (answers : List Answer) : List (Except Failure HeredocBody) :=
  answers.filterMap Answer.outcome?

/-- A queue that has given some answers since it was empty.  The heredocs opened are numbered, and
they are those that have left followed by those that wait. -/
structure Answered (q : HeredocQueue) (answers : List Answer) : Prop where
  numbered : (opened answers).map (·.ticket) = List.range (opened answers).length
  next : q.next = (opened answers).length
  parted : ∃ consumed, opened answers = consumed ++ q.waiting ∧
    List.Forall₂ PendingHeredoc.Owns consumed (outcomes answers)

theorem Answered.empty : Answered empty [] where
  numbered := rfl
  next := rfl
  parted := ⟨[], rfl, .nil⟩

/-- An answer that neither opens a heredoc nor lets one leave adds nothing. -/
theorem Answered.append_neither {q : HeredocQueue} {answers : List Answer}
    (h : Answered q answers) {answer : Answer} (hopened : answer.opened? = none)
    (houtcome : answer.outcome? = none) : Answered q (answers ++ [answer]) := by
  have ho : opened (answers ++ [answer]) = opened answers := by simp [opened, hopened]
  have hr : outcomes (answers ++ [answer]) = outcomes answers := by simp [outcomes, houtcome]
  exact ⟨ho ▸ h.numbered, ho ▸ h.next, ho ▸ hr ▸ h.parted⟩

theorem Answered.append_opened {q : HeredocQueue} {answers : List Answer}
    (h : Answered q answers) (tag : HeredocTag) (span : Span) :
    Answered ⟨q.next + 1, q.waiting ++ [⟨q.next, tag, span⟩]⟩
      (answers ++ [.opened ⟨q.next, tag, span⟩]) := by
  have ho : opened (answers ++ [.opened ⟨q.next, tag, span⟩]) =
      opened answers ++ [⟨q.next, tag, span⟩] := by simp [opened, Answer.opened?]
  have hr : outcomes (answers ++ [.opened ⟨q.next, tag, span⟩]) = outcomes answers := by
    simp [outcomes, Answer.outcome?]
  obtain ⟨consumed, hparted, howns⟩ := h.parted
  refine ⟨?_, ?_, consumed, ?_, hr ▸ howns⟩
  · rw [ho, List.map_append, h.numbered, List.length_append, List.length_singleton,
      List.range_succ, ← h.next]
    rfl
  · rw [ho, List.length_append, ← h.next]
    rfl
  · rw [ho, hparted, List.append_assoc]

theorem Answered.append_left {q : HeredocQueue} {answers : List Answer} (h : Answered q answers)
    {p : PendingHeredoc} {waiting : List PendingHeredoc} (hq : q.waiting = p :: waiting)
    {outcome : Except Failure HeredocBody} (howns : p.Owns outcome) :
    Answered ⟨q.next, waiting⟩ (answers ++ [.left outcome]) := by
  have ho : opened (answers ++ [.left outcome]) = opened answers := by
    simp [opened, Answer.opened?]
  have hr : outcomes (answers ++ [.left outcome]) = outcomes answers ++ [outcome] := by
    simp [outcomes, Answer.outcome?]
  obtain ⟨consumed, hparted, hall⟩ := h.parted
  refine ⟨ho ▸ h.numbered, ho ▸ h.next, consumed ++ [p], ?_, ?_⟩
  · rw [ho, hparted, hq, List.append_assoc]
    rfl
  · rw [hr]
    exact List.rel_append hall (.cons howns .nil)

/-- One request after a history is one answer more. -/
theorem Answered.serve {q : HeredocQueue} {answers : List Answer} (h : Answered q answers)
    (r : Request) : Answered (q.serve r).2 (answers ++ [(q.serve r).1]) := by
  cases r with
  | opening tagText span =>
    cases htag : HeredocTag.parse tagText with
    | ok tag =>
      rw [serve_opening_ok htag]
      exact h.append_opened tag span
    | error problem =>
      rw [serve_opening_error htag]
      exact h.append_neither rfl rfl
  | reading source offset line =>
    cases hq : q.waiting with
    | nil =>
      rw [serve_reading_idle hq]
      exact h.append_neither rfl rfl
    | cons p waiting =>
      obtain ⟨outcome, hserve, howns⟩ := serve_reading hq source offset line
      rw [hserve]
      exact h.append_left hq howns

/-- By induction on the requests, any number of them has a history. -/
theorem Answered.serveAll {q : HeredocQueue} {answers : List Answer} (h : Answered q answers)
    (rs : List Request) : Answered (q.serveAll rs).2 (answers ++ (q.serveAll rs).1) := by
  induction rs generalizing q answers with
  | nil => simpa [HeredocQueue.serveAll] using h
  | cons r rs ih =>
    have hmore := ih (h.serve r)
    rwa [List.append_assoc] at hmore

/-- As many heredocs have left as bodies were read, and the others wait. -/
theorem Answered.split {q : HeredocQueue} {answers : List Answer} (h : Answered q answers) :
    List.Forall₂ PendingHeredoc.Owns ((opened answers).take (outcomes answers).length)
        (outcomes answers) ∧
      q.waiting = (opened answers).drop (outcomes answers).length := by
  obtain ⟨consumed, hparted, hall⟩ := h.parted
  rw [hparted, ← hall.length_eq, List.take_left, List.drop_left]
  exact ⟨hall, rfl⟩

theorem Answered.length_le {q : HeredocQueue} {answers : List Answer} (h : Answered q answers) :
    (outcomes answers).length ≤ (opened answers).length := by
  obtain ⟨consumed, hparted, hall⟩ := h.parted
  rw [hparted, ← hall.length_eq, List.length_append]
  exact Nat.le_add_right _ _

/-- The heredocs that have left have the first tickets. -/
theorem Answered.consumed_numbered {q : HeredocQueue} {answers : List Answer}
    (h : Answered q answers) :
    ((opened answers).take (outcomes answers).length).map (·.ticket) =
      List.range (outcomes answers).length := by
  rw [List.map_take, h.numbered, List.take_range, Nat.min_eq_left h.length_le]

/-- Whatever a queue is asked for, heredocs come in and leave first in, first out, and none is lost.
The heredocs opened are numbered from zero in the order of opening.  Those that have left are the
first of them, each once and each with the outcome of its own body, and the others wait.  After any
requests a malformed tag changes nothing, a tag that is well formed gets the next number, and to
read a body takes exactly the oldest heredoc, whether the body is read or not. -/
theorem serveAll_fifo (requests : List Request) :
    ∃ answers q, HeredocQueue.empty.serveAll requests = (answers, q) ∧
      (opened answers).map (·.ticket) = List.range (opened answers).length ∧
      (outcomes answers).length ≤ (opened answers).length ∧
      ((opened answers).take (outcomes answers).length).map (·.ticket) =
        List.range (outcomes answers).length ∧
      List.Forall₂ PendingHeredoc.Owns ((opened answers).take (outcomes answers).length)
        (outcomes answers) ∧
      q.waiting = (opened answers).drop (outcomes answers).length ∧
      (q.hasPending ↔ (outcomes answers).length < (opened answers).length) ∧
      (∀ tagText span problem, HeredocTag.parse tagText = .error problem →
        q.serve (.opening tagText span) = (.refused (.rejected ⟨problem, span⟩), q)) ∧
      (∀ tagText span tag, HeredocTag.parse tagText = .ok tag →
        q.serve (.opening tagText span) =
          (.opened ⟨(opened answers).length, tag, span⟩,
            ⟨(opened answers).length + 1,
              q.waiting ++ [⟨(opened answers).length, tag, span⟩]⟩)) ∧
      ∀ source offset line p waiting, q.waiting = p :: waiting →
        ∃ outcome, q.serve (.reading source offset line) = (.left outcome, ⟨q.next, waiting⟩) ∧
          p.Owns outcome := by
  have h : Answered (HeredocQueue.empty.serveAll requests).2
      (HeredocQueue.empty.serveAll requests).1 := Answered.empty.serveAll requests
  refine ⟨_, _, rfl, h.numbered, h.length_le, h.consumed_numbered, h.split.1, h.split.2, ?_, ?_, ?_,
    fun source offset line p waiting hq => serve_reading hq source offset line⟩
  · rw [hasPending, h.split.2]
    simp [List.drop_eq_nil_iff]
  · exact fun tagText span problem htag => serve_opening_error htag _ span
  · intro tagText span tag htag
    rw [serve_opening_ok htag, h.next]

/-- Between two heredocs a tag is refused.  The body of the first heredoc is read, that of the second
has no end, and then no heredoc waits. -/
theorem serveAll_fifo_refused : ∃ answers q,
    HeredocQueue.empty.serveAll [.opening (Text.ofString "A") (Span.sized Position.start 4),
      .opening [] (Span.sized Position.start 3),
      .opening (Text.ofString "B") (Span.sized Position.start 4),
      .reading (Text.ofString "x\nA\n") 0 1, .reading (Text.ofString "y\n") 0 1] = (answers, q) ∧
    (opened answers).map (·.ticket) = [0, 1] ∧ (outcomes answers).length = 2 ∧
    (answers.map fun a => a.opened?.isSome || a.outcome?.isSome) =
      [true, false, true, true, true] ∧
    (q.hasPending ↔ (outcomes answers).length < (opened answers).length) := by
  obtain ⟨answers, q, hserve, -, -, -, -, -, hpending, -⟩ :=
    serveAll_fifo [.opening (Text.ofString "A") (Span.sized Position.start 4),
      .opening [] (Span.sized Position.start 3),
      .opening (Text.ofString "B") (Span.sized Position.start 4),
      .reading (Text.ofString "x\nA\n") 0 1, .reading (Text.ofString "y\n") 0 1]
  obtain rfl : _ = answers := congrArg Prod.fst hserve
  exact ⟨_, q, hserve, by cbv, by cbv, by cbv, hpending⟩

end HeredocQueue

end ManifestTree
