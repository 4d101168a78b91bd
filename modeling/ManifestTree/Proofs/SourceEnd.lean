import ManifestTree.Proofs.HeredocExtent
import ManifestTree.Proofs.TextPlaces

/-!
# Where the end of input stands

The end of input stands at the end of the source, with one exception.  After the closing line of a
heredoc scanning goes on at the start of the next line, also if the source ends without a line
feed there, so that there is no next line.  The end of input then has a line and a column that the
source does not.
-/

namespace ManifestTree

variable {source : Text} {c d : Cursor}

/-! ## The place after a closing line -/

namespace PendingHeredoc

/-- Scanning goes on after a line feed, or at the end of the source if the closing line has none. -/
theorem Resolved.lands {b : HeredocBody} (h : Resolved source c b) (hat : Cursor.At source c) :
    (Cursor.At source (c.jump b.resume) ∧
        (b.resume.offset = source.length → source.getLast? = some (.char '\n'))) ∨
      ((c.jump b.resume).rest = [] ∧ b.resume = ⟨source.length, source.count (.char '\n') + 2, 1⟩ ∧
        source.getLast? ≠ some (.char '\n')) := by
  obtain ⟨nested, pending, -, htagged, h⟩ := h.origin
  obtain ⟨body, line, closing, fs, hsplit, -, rfl⟩ := resolve_eq_ok.mp h
  obtain ⟨hlines, hwhole, hclosing⟩ := splitAtClosing?_lines hsplit
  obtain ⟨cs, hcs⟩ := linesTo_reads hlines
  obtain ⟨tail, -, -, hrest⟩ := afterClosing_passes hcs hwhole
  obtain ⟨before, hsource, hpos⟩ := hat
  have hstart : line.start.pos = Position.start.after (before ++ cs) := by
    rw [hcs.pos, hpos, Position.after_append]
  show (Cursor.At source (c.jump (afterClosing line)) ∧
    ((afterClosing line).offset = source.length → source.getLast? = some (.char '\n'))) ∨
    ((c.jump (afterClosing line)).rest = [] ∧
      afterClosing line = ⟨source.length, source.count (.char '\n') + 2, 1⟩ ∧
          source.getLast? ≠ some (.char '\n'))
  obtain ⟨hnl, hend | ⟨d, hd⟩⟩ := hwhole
  · have hsource : source = before ++ cs ++ line.text := by
      rw [hsource, hcs.rest, hend, List.append_assoc]
    have hlast : line.text ≠ [] := by
      obtain ⟨-, -, hlen⟩ := marker_stands [] (by rw [hend, List.append_nil]) hclosing
      rw [splitAtClosing?_text hsplit] at hlen
      have := List.length_pos_iff.mpr htagged.terminator_ne_nil
      exact List.length_pos_iff.mp (by omega)
    refine .inr ⟨?_, ?_, ?_⟩
    · rw [hend, List.append_assoc, List.self_eq_append_right, List.append_eq_nil_iff] at hrest
      exact hrest.2
    · have hoffset : line.start.offset = (before ++ cs).length := by
        rw [Cursor.offset, hstart, Position.start_after]
      have hcount : source.count (.char '\n') = (before ++ cs).count (.char '\n') := by
        rw [hsource, List.count_append, List.count_eq_zero.mpr hnl, Nat.add_zero]
      have hlength : source.length = (before ++ cs).length + line.text.length := by
        rw [hsource, List.length_append]
      rw [afterClosing_end hend, hoffset, hcount, hstart, Position.start_after, hlength,
        Nat.add_comm 1]
    · rw [hsource, List.getLast?_append_of_ne_nil _ hlast]
      exact fun h => hnl (List.mem_of_getLast? h)
  · have hread := hcs.trans hd
    rw [afterClosing_line hnl hd, jump_reads hread]
    have hat : Cursor.At source d := hread.at ⟨before, hsource, hpos⟩
    refine .inl ⟨hat, fun hlen => ?_⟩
    have hnone : d.rest = [] := by
      have hadd := hat.offset_add
      have hoffset : d.offset = source.length := hlen
      exact List.length_eq_zero_iff.mp (by omega)
    rw [hsource, hcs.rest, hd.rest, hnone, List.append_nil, ← List.append_assoc,
      ← List.append_assoc, List.getLast?_concat]

theorem Resolved.rest_ne_nil {b : HeredocBody} (h : Resolved source c b) : c.rest ≠ [] := by
  intro hc
  obtain ⟨cs, hpasses⟩ := h.passes
  have hrest := hpasses.rest
  rw [hc, eq_comm, List.append_eq_nil_iff] at hrest
  have hoffset := hpasses.offset
  rw [hrest.1, List.length_nil] at hoffset
  have hplaced := h.placement
  have hstarts := h.starts
  have hmarked := hplaced.marked
  have hbegins := hplaced.starts
  have hresumes := hplaced.resumes
  have hjump : (c.jump b.resume).offset = b.resume.offset := rfl
  omega

end PendingHeredoc

/-! ## The end of the stretches -/

variable {xs : List Stretch}

theorem Stretch.Lies.rest_ne_nil {x : Stretch} (h : x.Lies source c d) : c.rest ≠ [] := by
  have read {cs : Text} (hr : c.Reads cs d) (hne : cs ≠ []) : c.rest ≠ [] := by
    rw [hr.rest]
    exact List.append_ne_nil_of_left_ne_nil hne _
  cases h with
  | blank hr => exact read hr (List.cons_ne_nil _ _)
  | comment hr hk =>
    refine read hr ?_
    rcases hk with ⟨body, rfl, -⟩ | ⟨body, rfl, -⟩ <;> simp
  | token hr hf => exact read hr hf.nonempty
  | body hres => exact hres.rest_ne_nil

/-- Stretches end at their place in the source, or after a closing line that ends the source without
a line feed. -/
theorem Laid.lands (h : Laid source c xs d) (hat : Cursor.At source c) :
    (Cursor.At source d ∧ ∀ b ∈ xs.filterMap Stretch.body?,
        b.resume.offset = source.length → source.getLast? = some (.char '\n')) ∨
      (d.pos = ⟨source.length, source.count (.char '\n') + 2, 1⟩ ∧
          source.getLast? ≠ some (.char '\n') ∧
        ∃ b ∈ xs.filterMap Stretch.body?, b.resume.offset = source.length) := by
  induction h with
  | nil => exact .inl ⟨hat, List.forall_mem_nil _⟩
  | @cons c d e x xs hx hxs ih =>
    cases hx with
    | blank hr => exact ih (hr.at hat)
    | comment hr => exact ih (hr.at hat)
    | token hr => exact ih (hr.at hat)
    | @body b hres =>
      rcases hres.lands hat with ⟨hat, hlast⟩ | ⟨hrest, hresume, hlast⟩
      · rcases ih hat with ⟨hend, hbodies⟩ | ⟨hpos, hlast, b', hb', hoffset⟩
        · exact .inl ⟨hend, List.forall_mem_cons.mpr ⟨hlast, hbodies⟩⟩
        · exact .inr ⟨hpos, hlast, b', List.mem_cons_of_mem _ hb', hoffset⟩
      · -- Nothing can follow such a closing line.
        have hb : b ∈ b :: xs.filterMap Stretch.body? := List.mem_cons_self
        cases hxs with
        | nil => exact .inr ⟨hresume, hlast, b, hb, by rw [hresume]⟩
        | cons hy => exact absurd hrest hy.rest_ne_nil

/-! ## The end of input -/

/-- The closing line of a heredoc among the tokens ends the source, which has no line feed there. -/
def Token.CloseSource (source : Text) (tokens : List Token) : Prop :=
  source.getLast? ≠ some (.char '\n') ∧
    ∃ b ∈ tokens.filterMap Token.body?, b.resume.offset = source.length

/-- The end of input stands at the end of the source, unless a closing line ends the source without
a line feed: then it has the start of a line that the source does not have. -/
theorem LaidOut.endOfInput {tokens comments : List Token}
    (hl : LaidOut source xs tokens comments) :
    ∃ p, tokens = tokens.dropLast ++ [Token.endAt p] ∧
      ((¬ Token.CloseSource source tokens ∧ p = Position.start.after source) ∨
        (Token.CloseSource source tokens ∧
            p = ⟨source.length, source.count (.char '\n') + 2, 1⟩)) := by
  obtain ⟨d, hlaid, hrest, htokens⟩ := hl.laid
  refine ⟨d.pos, by rw [htokens, List.dropLast_concat], ?_⟩
  unfold Token.CloseSource
  rw [hl.bodies]
  rcases hlaid.lands (Cursor.At.ofSource source) with ⟨⟨before, hsource, hpos⟩, hbodies⟩ |
    ⟨hpos, hlast, hbody⟩
  · refine .inl ⟨?_, ?_⟩
    · rintro ⟨hlast, b, hb, hoffset⟩
      exact hlast (hbodies b hb hoffset)
    · rw [hpos, hsource, hrest, List.append_nil]
  · exact .inr ⟨⟨hlast, hbody⟩, hpos⟩

end ManifestTree
