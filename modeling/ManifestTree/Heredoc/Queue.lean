import ManifestTree.Heredoc.Body

/-!
# The queue of opened heredocs

Several heredocs may be opened on one line.  Their bodies follow one after the other in the order
of opening, so opened heredocs wait in a queue: `HeredocQueue.enqueue` adds one at the end and
`HeredocQueue.resolveNext` reads the body of the one at the front.
-/

namespace ManifestTree

/-- The heredocs that wait for their bodies, oldest first. -/
structure HeredocQueue where
  /-- The number that the next opened heredoc gets. -/
  next : Nat
  /-- The waiting heredocs. -/
  waiting : List PendingHeredoc
deriving Repr

namespace HeredocQueue

/-- No heredoc was opened yet. -/
def empty : HeredocQueue := ⟨0, []⟩

instance : Inhabited HeredocQueue := ⟨empty⟩

/-- Some heredoc waits. -/
def hasPending (q : HeredocQueue) : Bool := !q.waiting.isEmpty

/-- Opens a heredoc.  A malformed tag leaves the queue as it was. -/
def enqueue (q : HeredocQueue) (tagText : Text) (span : Span) :
    Except Failure (PendingHeredoc × HeredocQueue) :=
  match HeredocTag.parse tagText with
  | .ok tag =>
    let pending : PendingHeredoc := ⟨q.next, tag, span⟩
    .ok (pending, ⟨q.next + 1, q.waiting ++ [pending]⟩)
  | .error problem => reject problem span

/-- Reads the body of the oldest waiting heredoc, which leaves the queue even if that fails.
An empty queue has none. -/
def resolveNext (q : HeredocQueue) (nested : NestedScan) (c : Cursor) :
    Option (Except Failure HeredocBody × HeredocQueue) :=
  match q.waiting with
  | [] => none
  | pending :: waiting => some (pending.resolve nested c, { q with waiting })

end HeredocQueue

/-- The cursor at a position that is not before the given one. -/
def Cursor.jump (c : Cursor) (p : Position) : Cursor := ⟨p, c.rest.drop (p.offset - c.offset)⟩

/-- Reads the bodies of some heredocs one after the other from a cursor on. -/
def resolveAll (nested : NestedScan) :
    List PendingHeredoc → Cursor → Except Failure (List HeredocBody × Cursor)
  | [], c => .ok ([], c)
  | pending :: waiting, c => do
    let body ← pending.resolve nested c
    let (bodies, after) ← resolveAll nested waiting (c.jump body.resume)
    return (body :: bodies, after)

/-- The waiting heredocs are read by taking the oldest from the queue until none waits. -/
theorem HeredocQueue.resolveAll_waiting (q : HeredocQueue) (nested : NestedScan) (c : Cursor) :
    resolveAll nested q.waiting c =
      match q.resolveNext nested c with
      | none => .ok ([], c)
      | some (answer, q') => do
        let body ← answer
        let (bodies, after) ← resolveAll nested q'.waiting (c.jump body.resume)
        return (body :: bodies, after) := by
  obtain ⟨next, waiting⟩ := q
  cases waiting with
  | nil => rfl
  | cons pending waiting => rfl

end ManifestTree
