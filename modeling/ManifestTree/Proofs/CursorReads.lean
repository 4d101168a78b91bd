import ManifestTree.Cursor

/-!
# Reading characters

`Cursor.Reads c cs d` says that the cursor `d` stands just after the characters `cs`, which come
next at the cursor `c`.  A token or fragment between two cursors is the characters between them and
the span from one to the other.  After the closing line of a heredoc the scanner counts a line
more even if the source has none; `Cursor.Passes` allows for this and agrees with `Cursor.Reads`
wherever something is left to read.
-/

namespace ManifestTree

/-- Two steps answer if the first does and the second does with its answer. -/
theorem bind_eq_ok {ε α β : Type} {x : Except ε α} {f : α → Except ε β} {b : β} :
    x >>= f = .ok b ↔ ∃ a, x = .ok a ∧ f a = .ok b := by
  cases x with
  | error e => simp [Bind.bind, Except.bind]
  | ok a => simp [Bind.bind, Except.bind]

/-- Two steps fail if the first does, or if the second does with its answer. -/
theorem bind_eq_error {ε α β : Type} {x : Except ε α} {f : α → Except ε β} {e : ε} :
    x >>= f = .error e ↔ x = .error e ∨ ∃ a, x = .ok a ∧ f a = .error e := by
  cases x with
  | error e' => simp [Bind.bind, Except.bind]
  | ok a => simp [Bind.bind, Except.bind]

/-- A computation whose answer is put in a `some` answers if it does. -/
theorem some_map_eq_ok {ε α : Type} {x : Except ε α} {a : α} :
    some <$> x = .ok (some a) ↔ x = .ok a := by
  cases x with
  | error e => simp [Functor.map, Except.map]
  | ok b => simp [Functor.map, Except.map]

/-- What a computation answers, and what is read off its answer. -/
theorem exists_ok_of_map {ε α β : Type} {x : Except ε α} {f : α → β} {b : β}
    (h : x.toOption.map f = some b) : ∃ a, x = .ok a ∧ f a = b := by
  cases x with
  | error e => cases h
  | ok a => exact ⟨a, rfl, Option.some.inj h⟩

namespace Span

/-- The span holds the character at an offset. -/
def Contains (s : Span) (i : Nat) : Prop := s.start ≤ i ∧ (i : Int) < s.stop

instance (s : Span) (i : Nat) : Decidable (s.Contains i) := by
  unfold Contains
  infer_instance

/-- The place where a span begins. -/
def position (s : Span) : Position := ⟨s.start.toNat, s.line.toNat, s.column.toNat⟩

@[simp] theorem between_start (p q : Position) : (between p q).start = p.offset := rfl

@[simp] theorem between_stop (p q : Position) : (between p q).stop = q.offset := rfl

@[simp] theorem between_position (p q : Position) : (between p q).position = p := rfl

theorem text_between (p q : Position) (source : Text) :
    (between p q).text source = (source.take q.offset).drop p.offset := by
  have hp : ¬ (between p q).start < 0 := Int.not_lt.mpr (Int.natCast_nonneg _)
  have hq : ¬ (between p q).stop < 0 := Int.not_lt.mpr (Int.natCast_nonneg _)
  unfold Span.text
  dsimp only
  rw [if_neg hp, if_neg hq]
  rfl

theorem contains_between {p q : Position} {i : Nat} :
    (between p q).Contains i ↔ p.offset ≤ i ∧ i < q.offset := by
  simp [Contains]

end Span

namespace Cursor

variable {c d e : Cursor} {cs ds : Text}

/-- Reading some characters leads from one cursor to the other. -/
structure Reads (c : Cursor) (cs : Text) (d : Cursor) : Prop where
  rest : c.rest = cs ++ d.rest
  pos : d.pos = c.pos.after cs

theorem Reads.refl (c : Cursor) : c.Reads [] c := ⟨rfl, rfl⟩

theorem Reads.trans (h : c.Reads cs d) (k : d.Reads ds e) : c.Reads (cs ++ ds) e :=
  ⟨by rw [h.rest, k.rest, List.append_assoc], by rw [k.pos, h.pos, Position.after_append]⟩

theorem Reads.offset (h : c.Reads cs d) : d.offset = c.offset + cs.length := by
  simp [Cursor.offset, h.pos]

theorem reads_skip (c : Cursor) (n : Nat) : c.Reads (c.rest.take n) (c.skip n) :=
  ⟨(List.take_append_drop n c.rest).symm, rfl⟩

/-- Reading the same characters leads to the same cursor. -/
theorem Reads.unique (h : c.Reads cs d) (k : c.Reads cs e) : d = e := by
  obtain ⟨p, r⟩ := d
  obtain ⟨q, t⟩ := e
  have hr : r = t := List.append_cancel_left (h.rest.symm.trans k.rest)
  have hp : p = q := h.pos.trans k.pos.symm
  rw [hr, hp]

theorem Reads.skip_eq (h : c.Reads cs d) : c.skip cs.length = d := by
  have k := reads_skip c cs.length
  rw [h.rest, List.take_left] at k
  exact k.unique h

theorem reads_skip_length {rest : Text} (h : c.rest = cs ++ rest) :
    c.Reads cs (c.skip cs.length) := by
  have k := reads_skip c cs.length
  rwa [h, List.take_left] at k

theorem reads_skip_one {ch : CodePoint} (h : c.rest = ch :: cs) : c.Reads [ch] (c.skip 1) := by
  simpa [h] using reads_skip c 1

theorem reads_skipWhile (c : Cursor) (p : CodePoint → Bool) :
    c.Reads (c.rest.takeWhile p) (c.skipWhile p) := by
  have h := reads_skip c (c.rest.takeWhile p).length
  rwa [← List.prefix_iff_eq_take.mp (List.takeWhile_prefix p)] at h

/-- A run of characters ends with the source or before a character out of their class. -/
theorem skipWhile_head (c : Cursor) (p : CodePoint → Bool) :
    ∀ ch ∈ (c.skipWhile p).rest.head?, p ch = false := by
  have hr := (reads_skipWhile c p).rest
  have hd : c.rest.dropWhile p = (c.skipWhile p).rest :=
    List.append_cancel_left (List.takeWhile_append_dropWhile.trans hr)
  rw [← hd]
  intro ch hch
  have := List.head?_dropWhile_not p c.rest
  rw [Option.mem_def.mp hch] at this
  exact this

theorem Reads.upTo_eq (h : c.Reads cs d) : c.upTo d = cs := by
  rw [upTo, h.offset, Nat.add_sub_cancel_left, h.rest, List.take_left]

theorem Reads.spanTo_eq (h : c.Reads cs d) : c.spanTo d = Span.between c.pos (c.pos.after cs) := by
  rw [spanTo, h.pos]

theorem Reads.at {source : Text} (h : c.Reads cs d) (hc : At source c) : At source d := by
  obtain ⟨before, hs, hp⟩ := hc
  exact ⟨before ++ cs, by rw [hs, h.rest, List.append_assoc],
    by rw [h.pos, hp, Position.after_append]⟩

theorem At.offset_add {source : Text} (h : At source c) :
    c.offset + c.rest.length = source.length := by
  obtain ⟨before, hs, hp⟩ := h
  simp [Cursor.offset, hs, hp, Position.start]

/-- What was read stands in the source between the offsets. -/
theorem Reads.getElem? {source : Text} (h : c.Reads cs d) (hc : At source c) {i : Nat}
    (hi : i < cs.length) : source[c.offset + i]? = cs[i]? := by
  obtain ⟨before, hs, hp⟩ := hc
  have ho : c.offset = before.length := by simp [Cursor.offset, hp, Position.start]
  rw [hs, h.rest, ho, List.getElem?_append_right (Nat.le_add_right _ _), Nat.add_sub_cancel_left,
    List.getElem?_append_left hi]

theorem Reads.span_text {source : Text} (h : c.Reads cs d) (hc : At source c) :
    (Span.between c.pos d.pos).text source = cs := by
  obtain ⟨before, hs, hp⟩ := hc
  have hc' : c.pos.offset = before.length := by simp [hp, Position.start]
  have hd : d.pos.offset = (before ++ cs).length := by simp [h.pos, hc']
  rw [Span.text_between, hc', hd, hs, h.rest, ← List.append_assoc, List.take_left, List.drop_left]

/-! ## Passing the end of the source -/

/-- Passing some characters leads from one cursor to the other.  At the end of the source the
line may be another than reading would give. -/
structure Passes (c : Cursor) (cs : Text) (d : Cursor) : Prop where
  rest : c.rest = cs ++ d.rest
  offset : d.offset = c.offset + cs.length
  pos : d.rest ≠ [] → d.pos = c.pos.after cs

theorem Reads.passes (h : c.Reads cs d) : c.Passes cs d := ⟨h.rest, h.offset, fun _ => h.pos⟩

theorem Passes.refl (c : Cursor) : c.Passes [] c := (Reads.refl c).passes

theorem Passes.trans (h : c.Passes cs d) (k : d.Passes ds e) : c.Passes (cs ++ ds) e := by
  refine ⟨by rw [h.rest, k.rest, List.append_assoc], ?_, fun he => ?_⟩
  · rw [k.offset, h.offset, List.length_append, Nat.add_assoc]
  · rw [k.pos he, h.pos (by simp [k.rest, he]), Position.after_append]

theorem Passes.reads (h : c.Passes cs d) (hd : d.rest ≠ []) : c.Reads cs d := ⟨h.rest, h.pos hd⟩

theorem Passes.at {source : Text} (h : c.Passes cs d) (hc : c.rest ≠ [] → At source c)
    (hd : d.rest ≠ []) : At source d := by
  have hrest : c.rest ≠ [] := by
    rw [h.rest]
    exact List.append_ne_nil_of_right_ne_nil cs hd
  exact (h.reads hd).at (hc hrest)

end Cursor

end ManifestTree
