import ManifestTree.Proofs.HeredocPairs
import ManifestTree.Proofs.InterpolationScans

/-!
# Which comments a tree keeps

A tree lists the comments that stand between the tokens of its source, all of them, each once and in
their order.  The comments inside interpolations, which the scanner skips as well, are not among
them.  Only where an interpolation in a heredoc runs past the closing line is its text scanned once
more, and a comment there may be found that second time.
-/

namespace ManifestTree

variable {source : Text}

/-! ## Comments of a layout -/

theorem Stretch.comment?_sublist (xs : List Stretch) :
    (xs.filterMap Stretch.comment?).Sublist (xs.filterMap Stretch.seen?) := by
  induction xs with
  | nil => exact .slnil
  | cons x xs ih =>
    cases x with
    | comment t => exact ih.cons_cons t
    | token t => exact ih.cons t
    | blank => exact ih
    | body b => exact ih

/-- The token is a comment of the source: its characters are one, before those that come after them,
and stand where its span says. -/
structure Token.CommentOf (source : Text) (t : Token) : Prop where
  kind : t.kind = .comment
  covers : t.span.Covers source t.text
  whole : IsComment t.text (source.drop t.span.stop.toNat)

theorem Laid.comments {c d : Cursor} {xs : List Stretch} (h : Laid source c xs d)
    (hc : c.rest ≠ [] → Cursor.At source c) :
    ∀ t ∈ xs.filterMap Stretch.comment?, t.CommentOf source := by
  induction h with
  | nil => exact List.forall_mem_nil _
  | @cons c d e x xs hx _ ih =>
    obtain ⟨cs, hcs⟩ := hx.passes
    have hlater := ih fun hne => hcs.at hc hne
    cases hx with
    | @comment _ _ hr hk =>
      refine List.forall_mem_cons.mpr ⟨?_, hlater⟩
      have hat := hc (by
        rw [hr.rest]
        exact List.append_ne_nil_of_left_ne_nil hk.ne_nil _)
      refine ⟨rfl, ?_, ?_⟩
      · show (Span.between c.pos d.pos).Covers source _
        rw [hr.pos]
        exact Span.covers_between (hr.holds hat)
      · obtain ⟨before, hs, hp⟩ := hr.at hat
        have hoffset : (d.pos.offset : Int).toNat = before.length := by
          rw [hp, Position.after_offset]
          simp [Position.start]
        show IsComment _ (source.drop (d.pos.offset : Int).toNat)
        rwa [hoffset, hs, List.drop_left]
    | _ => exact hlater

/-! ## Comments of interpolations -/

/-- What covers characters of a part covers them in the source. -/
theorem Span.Covers.translate {inner cs : Text} {s : Span} {p : Position}
    (h : s.Covers inner cs) (hp : p.Holds source inner) : (s.translate p).Covers source cs := by
  obtain ⟨before, after, hinner, hposition⟩ := h.holds
  rw [h.placed, hposition,
    (Position.counted_start.after before).translate_between,
    (Position.counted_start.after before).translate_after,
    Position.counted_start.translate_after, Position.translate_start]
  rw [hinner] at hp
  exact Span.covers_between hp.left.right

/-- The comments that the scanner skips inside an interpolation, where they are in the source: those
of its inside. -/
def Fragment.comments (f : Fragment) : List Token :=
  match f.piece, Token.scan (f.text.drop 2).dropLast with
  | .interpolation _, .ok (_, comments) =>
    comments.map (Token.translate (f.span.position.after [.char '$', .char '\x7b']))
  | _, _ => []

namespace Fragment

theorem comments_eq {f : Fragment} {inner : Text} {ts us cs : List Token}
    (hp : f.piece = .interpolation ts)
    (htext : f.text = [.char '$', .char '\x7b'] ++ inner ++ [.char '\x7d'])
    (hscan : Token.scan inner = .ok (us, cs)) :
    f.comments = cs.map (Token.translate (f.span.position.after [.char '$', .char '\x7b'])) := by
  have hinner : (f.text.drop 2).dropLast = inner := by
    rw [htext]
    simp
  unfold comments
  rw [hp, hinner, hscan]

theorem comments_flat {f : Fragment} (h : ∀ ts, f.piece ≠ .interpolation ts) :
    f.comments = [] := by
  unfold comments
  split
  · exact absurd ‹_› (h _)
  · rfl

/-- The comments of an interpolation stand between its braces. -/
theorem Made.comments_within {f : Fragment} (h : f.Made) (hf : f.Located source) :
    ∀ t ∈ f.comments, t.span.Covers source t.text ∧ t.text ≠ [] ∧
      f.span.start < t.span.start ∧ t.span.stop < f.span.stop := by
  by_cases hp : ∃ ts, f.piece = .interpolation ts
  · obtain ⟨ts, hp⟩ := hp
    obtain ⟨-, -, -, -, -, -, inner, us, cs, htext, hscan, -⟩ := h.run hp
    rw [comments_eq hp htext hscan]
    refine List.forall_mem_map.mpr fun t ht => ?_
    obtain ⟨hcovers, hne⟩ := (Token.scan_row hscan).2 t ht
    have hholds := hf.covers.holds
    rw [htext] at hholds
    have hmoved := hcovers.translate hholds.left.right
    have hstarts := hcovers.correct.starts
    have hends := hcovers.correct.ends
    have hstart := hf.covers.start_eq
    have hstop := hf.covers.stop_eq
    rw [htext] at hstop
    simp only [List.length_append, List.length_cons, List.length_nil] at hstop
    simp only [Token.translate_span, Token.translate_text, Span.translate_start,
      Span.translate_stop, Position.after_offset, List.length_cons, List.length_nil]
    exact ⟨hmoved, hne, by omega, by omega⟩
  · rw [comments_flat fun ts hts => hp ⟨ts, hts⟩]
    exact List.forall_mem_nil _

end Fragment

theorem Token.Located.fragments_within {t : Token} (h : t.Located source) :
    ∀ f ∈ t.fragments, t.span.start ≤ f.span.start ∧ f.span.stop ≤ t.span.stop := by
  intro f hf
  have hkind : t.kind = .string := by
    rcases h.regular.shape with hd | ⟨hk, -⟩ | ⟨-, tag, body, hd⟩
    · simp [Token.fragments, hd] at hf
    · exact hk
    · simp [Token.fragments, hd] at hf
  obtain ⟨quote, inside, htext, htiles, -⟩ := h.sound.quoted hkind
  have hbounds := htiles.bounds.1 f hf
  have hstart := h.covers.start_eq
  have hstop := h.covers.stop_eq
  rw [htext] at hstop
  rw [Position.step_offset] at hbounds
  simp only [List.length_append, List.length_cons, List.length_nil] at hstop
  omega

/-! ## Comments of a tree -/

/-- What becomes of the comments of a source with these tokens, where the tree lists `comments`. -/
structure Token.KeepsComments (source : Text) (tokens comments : List Token) : Prop where
  /-- What is listed are comments, each with its own characters and span. -/
  exact : ∀ t ∈ comments, t.CommentOf source
  /-- They come in the order of the source without overlap, so each is listed once. -/
  ordered : comments.Pairwise fun t u => t.span.stop ≤ u.span.start
  /-- Outside of the tokens and the regions of heredocs no comment is left out: there is nothing
  else but white space. -/
  complete : ∀ i < source.length, (∀ t ∈ tokens.dropLast, ¬ t.span.Contains i) →
    (∀ b ∈ tokens.filterMap Token.body?, ¬ b.Takes i) →
      SpaceAt source i ∨ ∃ t ∈ comments, t.span.Contains i
  /-- The comments of an interpolation were skipped by the run that read its inside. -/
  skipped : ∀ f ∈ Token.deepAll tokens, ∀ ts, f.piece = .interpolation ts →
    ∃ fuel c after s, Fragments.interpolation (ScanState.nestedRun fuel) c = .ok (f, after) ∧
      ScanState.run fuel (ScanState.start (some (c.here 2)) (c.skip 2)) = .ok (ts, s) ∧
        f.comments = s.comments.reverse
  /-- They stand between its braces, and none of them is listed unless it comes after the closing
  line of the heredoc that the interpolation is in. -/
  lost : ∀ f ∈ Token.deepAll tokens, ∀ t ∈ f.comments, t.span.Covers source t.text ∧
    (f.span.start < t.span.start ∧ t.span.stop < f.span.stop) ∧
      (t ∈ comments → ∃ b ∈ tokens.filterMap Token.body?, f ∈ b.deepFragments ∧
        (b.resume.offset : Int) ≤ t.span.start)

theorem Fragment.Made.comments_skipped {f : Fragment} {ts : List Token} (h : f.Made)
    (hp : f.piece = .interpolation ts) :
    ∃ fuel c after s, Fragments.interpolation (ScanState.nestedRun fuel) c = .ok (f, after) ∧
      ScanState.run fuel (ScanState.start (some (c.here 2)) (c.skip 2)) = .ok (ts, s) ∧
        f.comments = s.comments.reverse := by
  obtain ⟨fuel, c, after, s, hf, hrun, inner, us, cs, htext, hscan, -, hcomments⟩ := h.run hp
  exact ⟨fuel, c, after, s, hf, hrun, (comments_eq hp htext hscan).trans hcomments.symm⟩

/-- A comment inside an interpolation is listed only if that is in a heredoc which it comes
after. -/
theorem LaidOut.comment_lost {xs : List Stretch} {tokens comments : List Token}
    (hl : LaidOut source xs tokens comments) (hrow : Token.Row source tokens.dropLast)
    {f : Fragment} (hf : f ∈ Token.deepAll tokens) {t : Token} (hne : t.span.start < t.span.stop)
    (hwithin : f.span.start < t.span.start ∧ t.span.stop < f.span.stop) (ht : t ∈ comments) :
    ∃ b ∈ tokens.filterMap Token.body?, f ∈ b.deepFragments ∧
      (b.resume.offset : Int) ≤ t.span.start := by
  obtain ⟨u, hu, hf⟩ := hl.exists_of_deep hf
  have hlocated := hrow.located u hu
  rcases Token.mem_deepFragments.mp hf with ⟨g, hg, hfg⟩ | ⟨b, hb, hfb⟩
  · -- The string would share a character with the comment.
    have hgl := hlocated.fragments g hg
    have hgu := hlocated.fragments_within g hg
    have hfg := (Fragment.deep_within hgl.sound hgl.regular f hfg).1
    have hstarts := hgl.covers.correct.starts
    have hapart := (List.pairwise_append.mp hl.disjoint).2.2 u hu t ht t.span.start.toNat
    exact absurd ⟨⟨by omega, by omega⟩, ⟨by omega, by omega⟩⟩ hapart
  · have hbt : b ∈ tokens.filterMap Token.body? :=
      List.mem_filterMap.mpr ⟨u, List.dropLast_subset _ hu, hb⟩
    have hbx := hbt
    rw [hl.bodies] at hbx
    obtain ⟨d, hlaid, -⟩ := hl.laid
    obtain ⟨e, hres, -⟩ := hlaid.resolved b hbx
    obtain ⟨g, hg, hfg⟩ := HeredocBody.mem_deepFragments.mp hfb
    have hgl := (hlocated.body b hb).1.fragments g hg
    have hfg := (Fragment.deep_within hgl.sound hgl.regular f hfg).1
    have hbegins := (hres.placement.begins g hg).1
    refine ⟨b, hbt, hfb, ?_⟩
    rcases hl.apart b hbx t (List.mem_append_right _ ht) with hbefore | hafter
    · omega
    · exact hafter

theorem Token.scan_keepsComments {tokens comments : List Token}
    (h : Token.scan source = .ok (tokens, comments)) :
    Token.KeepsComments source tokens comments := by
  obtain ⟨xs, hl⟩ := Token.scan_laidOut h
  obtain ⟨d, hlaid, -⟩ := hl.laid
  have hat : (Cursor.ofSource source).rest ≠ [] → Cursor.At source (Cursor.ofSource source) :=
    fun _ => Cursor.At.ofSource source
  constructor
  case exact =>
    rw [hl.comments]
    exact hlaid.comments hat
  case ordered =>
    rw [hl.comments]
    exact (hlaid.seen hat).2.sublist (Stretch.comment?_sublist xs)
  case complete =>
    intro i hi htokens hbodies
    by_cases hcomment : ∃ t ∈ comments, t.span.Contains i
    · exact .inr hcomment
    · have hnone : ∀ t ∈ tokens.dropLast ++ comments, ¬ t.span.Contains i :=
        List.forall_mem_append.mpr ⟨htokens, fun t ht hc => hcomment ⟨t, ht, hc⟩⟩
      refine (hl.covered hi hnone).imp_right fun hone => ?_
      rw [List.countP_eq_zero.mpr fun b hb => by simpa using hbodies b hb] at hone
      cases hone
  case skipped => exact fun f hf ts hp => (Token.scan_made h f hf).comments_skipped hp
  case lost =>
    intro f hf t ht
    obtain ⟨hcovers, hne, hwithin⟩ :=
      (Token.scan_made h f hf).comments_within (Token.scan_located h f hf) t ht
    exact ⟨hcovers, hwithin,
      hl.comment_lost (Token.scan_row h).1 hf (hcovers.nonempty hne) hwithin⟩

/-- The comments that the tree of a manifest lists. -/
def Node.comments (n : Node) : List Node :=
  match n.shape with
  | .manifest _ comments => comments
  | _ => []

/-- A tree lists the comments of its source but those inside interpolations. -/
theorem Node.parse_keepsComments {tree : Node} (h : Node.parse source = .ok tree) :
    ∃ tokens comments, Token.scan source = .ok (tokens, comments) ∧
      tree.comments = comments.map Token.commentNode ∧
      Token.KeepsComments source tokens comments := by
  obtain ⟨⟨tokens, comments⟩, hscan, h⟩ := bind_eq_ok.mp h
  obtain ⟨statements, -, h⟩ := bind_eq_ok.mp h
  cases h
  exact ⟨tokens, comments, hscan, rfl, Token.scan_keepsComments hscan⟩

/-- A comment inside an interpolation and one after the string. -/
theorem Node.parse_keepsComments_string : ∃ tree,
    Node.parse (Text.ofString "$a = \"$\x7b /* x */ b \x7d\" # c\n") = .ok tree ∧
      tree.comments.length = 1 ∧ ∃ tokens comments,
        Token.scan (Text.ofString "$a = \"$\x7b /* x */ b \x7d\" # c\n") = .ok (tokens, comments) ∧
          tree.comments = comments.map Token.commentNode ∧
          Token.KeepsComments (Text.ofString "$a = \"$\x7b /* x */ b \x7d\" # c\n")
              tokens comments := by
  have hrun : (Node.parse (Text.ofString "$a = \"$\x7b /* x */ b \x7d\" # c\n")).toOption.map
      (fun tree => tree.comments.length) = some 1 := by cbv
  obtain ⟨tree, hparse, hlength⟩ := exists_ok_of_map hrun
  exact ⟨tree, hparse, hlength, Node.parse_keepsComments hparse⟩

/-- The only comment of this source stands inside an interpolation, and its tree lists none. -/
theorem Node.parse_lostComment : ∃ tree tokens comments,
    Node.parse (Text.ofString "\"$\x7b /* x */ a \x7d\"") = .ok tree ∧ tree.comments = [] ∧
      Token.scan (Text.ofString "\"$\x7b /* x */ a \x7d\"") = .ok (tokens, comments) ∧
        ∃ f ∈ Token.deepAll tokens,
          f.comments.map (fun t => (t.text, t.span)) =
              [(Text.ofString "/* x */", ⟨4, 11, 1, 5⟩)] := by
  have hrun : (Node.parse (Text.ofString "\"$\x7b /* x */ a \x7d\"")).toOption.map
      (fun tree => tree.comments.length) = some 0 := by cbv
  have hfound : (Token.scan (Text.ofString "\"$\x7b /* x */ a \x7d\"")).toOption.map
      (fun p => (Token.deepAll p.1).any fun f =>
        decide (f.comments.map (fun t => (t.text, t.span)) =
          [(Text.ofString "/* x */", ⟨4, 11, 1, 5⟩)])) = some true := by cbv
  obtain ⟨tree, hparse, hnone⟩ := exists_ok_of_map hrun
  obtain ⟨⟨tokens, comments⟩, hscan, hfound⟩ := exists_ok_of_map hfound
  obtain ⟨f, hf, hfound⟩ := List.any_eq_true.mp hfound
  exact ⟨tree, tokens, comments, hparse, List.length_eq_zero_iff.mp hnone, hscan, f, hf,
    of_decide_eq_true hfound⟩

end ManifestTree
