import ManifestTree.Proofs.AppendedScans
import ManifestTree.Proofs.KeptComments
import ManifestTree.Proofs.ReplayedManifests

/-!
# A manifest after another

Where a closing brace ends the last statement of a manifest, another manifest may follow on the next
line: both are parsed as they are alone.  The scan of the second begins as at the start of a source,
and no token that begins a statement goes on with the last one of the first.
-/

namespace ManifestTree

open Parse

def Node.statements (n : Node) : List Node :=
  match n.shape with
  | .manifest statements _ => statements
  | _ => []

/-- The place after a text and a line end. -/
theorem Position.start_after_line (cs : Text) :
    Position.start.after (cs ++ [.char '\n']) = ⟨cs.length + 1, cs.count (.char '\n') + 2, 1⟩ := by
  rw [Position.start_after, lineStart_concat]
  simp
  omega

/-- At the start of a line the columns stay as they are. -/
theorem Span.translate_line (offset line : Nat) (s : Span) :
    s.translate ⟨offset, line + 1, 1⟩ =
      ⟨s.start + offset, s.stop + offset, s.line + line, s.column⟩ := by
  simp only [Span.translate, Span.mk.injEq]
  refine ⟨by omega, by omega, by omega, ?_⟩
  split <;> omega

theorem Token.seen_commentNode (v : View) (t : Token) :
    (t.seen v).commentNode = t.commentNode.seen v := by
  simp [commentNode, Shape.foldNodes]

/-- The tokens of a source stand in it, and an end of input comes after them. -/
theorem Token.scan_ends {source : Text} {tokens comments : List Token}
    (h : Token.scan source = .ok (tokens, comments)) :
    (∃ q, tokens = tokens.dropLast ++ [Token.endAt q]) ∧
      ∀ t ∈ tokens.dropLast, t.Located source ∧ t.Closed := by
  obtain ⟨xs, hl⟩ := Token.scan_laidOut h
  obtain ⟨q, htokens, hkinds⟩ := hl.ends
  refine ⟨⟨q, htokens⟩, fun t ht => ⟨(Token.scan_row h).1.located t ht, ?_⟩⟩
  exact (hl.sound t (List.dropLast_subset _ ht)).closed (hkinds t ht)

/-- A manifest that a brace ends, a line end and another manifest are parsed like each of them
alone, with the second one moved to the line after the first. -/
theorem Node.parse_append_line {source₁ source₂ : Text} {tree₁ tree₂ : Node}
    {tokens comments : List Token} (h₁ : Node.parse source₁ = .ok tree₁)
    (h₂ : Node.parse source₂ = .ok tree₂) (hscan : Token.scan source₁ = .ok (tokens, comments))
    (hlast : tokens.dropLast.getLast?.map Token.kind = some (.symbol .rightBrace))
    (hkind : ∃ n ∈ tree₁.statements.getLast?,
      n.kind ∈ [.if, .unless, .case, .declaration, .functionDeclaration, .nodeDefinition,
        .resourceCall, .resourceDefaults]) :
    Node.parse (source₁ ++ .char '\n' :: source₂) =
        .ok (Node.plain ⟨0, source₁.length + 1 + source₂.length, 1, 1⟩ (.manifest
          (tree₁.statements ++ tree₂.statements.map
            (Node.translate ⟨source₁.length + 1, source₁.count (.char '\n') + 2, 1⟩))
          (tree₁.comments ++ tree₂.comments.map
            (Node.translate ⟨source₁.length + 1, source₁.count (.char '\n') + 2, 1⟩)))) ∧
      ∀ s : Span, s.translate ⟨source₁.length + 1, source₁.count (.char '\n') + 2, 1⟩ =
        ⟨s.start + (source₁.length + 1), s.stop + (source₁.length + 1),
          s.line + (source₁.count (.char '\n') + 1), s.column⟩ := by
  refine ⟨?_, fun s => by exact_mod_cast Span.translate_line _ _ s⟩
  obtain ⟨p₁, hp₁, h₁⟩ := bind_eq_ok.mp h₁
  obtain rfl : p₁ = (tokens, comments) := Except.ok.inj (hp₁.symm.trans hscan)
  obtain ⟨ns₁, hns₁, h₁⟩ := bind_eq_ok.mp h₁
  cases h₁
  obtain ⟨⟨tokens₂, comments₂⟩, hscan₂, h₂⟩ := bind_eq_ok.mp h₂
  obtain ⟨ns₂, hns₂, h₂⟩ := bind_eq_ok.mp h₂
  cases h₂
  obtain ⟨⟨q₁, hends₁⟩, htokens₁⟩ := Token.scan_ends hscan
  obtain ⟨⟨q₂, hends₂⟩, htokens₂⟩ := Token.scan_ends hscan₂
  obtain ⟨n, hn, hkind⟩ := hkind
  have hbrace : ∀ m ∈ ns₁.getLast?, m.kind.endsWithBrace := by
    intro m hm
    obtain rfl : m = n := Option.some.inj ((Option.mem_def.mp hm).symm.trans hn)
    revert hkind
    generalize m.kind = kind
    cases kind <;> simp [Kind.endsWithBrace]
  have hclosing : ∀ t ∈ tokens.dropLast.getLast?, t.kind = .symbol .rightBrace := by
    intro t ht
    rw [Option.mem_def.mp ht] at hlast
    exact Option.some.inj hlast
  obtain ⟨v₁, v₂, hv₁, hv₂, hboth⟩ := Token.scan_append_line hscan hscan₂ fun t ht => by
    rw [hclosing t ht]
    decide
  rw [hends₁] at hns₁
  rw [hends₂] at hns₂
  have hstatements := Parse.tokens_append hv₁ hv₂ (by simp) htokens₁
    (fun t ht => (htokens₂ t ht).1) hclosing hbrace hns₁ hns₂
  have hplace := Position.start_after_line source₁
  have hfirst (ns : List Node) : ns.map (Node.seen v₁) = ns := by
    rw [List.map_congr_left fun n _ => n.seen_eq_self (hv₁.trans Span.translate_start_eq_id),
      List.map_id']
  have hsecond : Node.seen v₂ =
      Node.translate ⟨source₁.length + 1, source₁.count (.char '\n') + 2, 1⟩ :=
    Node.seen_congr (by rw [hv₂, hplace]; rfl)
  rw [hfirst, hsecond] at hstatements
  have htokens : tokens.dropLast.map (Token.seen v₁) ++ tokens₂.map (Token.seen v₂) =
      tokens.dropLast.map (Token.seen v₁) ++ tokens₂.dropLast.map (Token.seen v₂) ++
        [(Token.endAt q₂).seen v₂] := by
    conv_lhs => rw [hends₂]
    rw [List.map_append, List.append_assoc]
    rfl
  refine bind_eq_ok.mpr ⟨_, hboth, bind_eq_ok.mpr ⟨_, htokens ▸ hstatements, ?_⟩⟩
  have hcomments : (comments.map (Token.seen v₁) ++ comments₂.map (Token.seen v₂)).map
      Token.commentNode = comments.map Token.commentNode ++
        (comments₂.map Token.commentNode).map
          (Node.translate ⟨source₁.length + 1, source₁.count (.char '\n') + 2, 1⟩) := by
    rw [List.map_append, List.map_map, List.map_map, ← hsecond]
    simp only [Function.comp_def, Token.seen_commentNode]
    rw [← hfirst (comments.map Token.commentNode), List.map_map, List.map_map]
    rfl
  have hlength : (source₁ ++ .char '\n' :: source₂).length =
      source₁.length + 1 + source₂.length := by
    rw [List.length_append, List.length_cons, Nat.add_right_comm, Nat.add_assoc]
  rw [hcomments, hlength]
  rfl

/-- A resource within a condition, and a statement that begins with a regular expression. -/
theorem Node.parse_append_line_regex : ∃ tree₁ tree₂ tokens comments,
    Node.parse (Text.ofString "if $a \x7b b \x7b 'c': \x7d \x7d # d") = .ok tree₁ ∧
      Node.parse (Text.ofString "/e/ =~\n$f") = .ok tree₂ ∧
      Token.scan (Text.ofString "if $a \x7b b \x7b 'c': \x7d \x7d # d") = .ok (tokens, comments) ∧
      tokens.dropLast.getLast?.map Token.kind = some (.symbol .rightBrace) ∧
      tree₁.statements.map Node.kind = [.if] ∧
      Node.parse (Text.ofString "if $a \x7b b \x7b 'c': \x7d \x7d # d\n/e/ =~\n$f") =
        .ok (Node.plain ⟨0, 34, 1, 1⟩ (.manifest
          (tree₁.statements ++ tree₂.statements.map (Node.translate ⟨25, 2, 1⟩))
          (tree₁.comments ++ tree₂.comments.map (Node.translate ⟨25, 2, 1⟩)))) := by
  have hrun₁ : (Node.parse (Text.ofString "if $a \x7b b \x7b 'c': \x7d \x7d # d")).toOption.map
      (fun tree => tree.statements.map Node.kind) = some [.if] := by cbv
  have hrun₂ : (Node.parse (Text.ofString "/e/ =~\n$f")).toOption.map (fun _ => ()) =
      some () := by cbv
  have hscan : (Token.scan (Text.ofString "if $a \x7b b \x7b 'c': \x7d \x7d # d")).toOption.map
      (fun p => p.1.dropLast.getLast?.map Token.kind) = some (some (.symbol .rightBrace)) := by cbv
  obtain ⟨tree₁, h₁, hkinds⟩ := exists_ok_of_map hrun₁
  obtain ⟨tree₂, h₂, -⟩ := exists_ok_of_map hrun₂
  obtain ⟨⟨tokens, comments⟩, hscan, hlast⟩ := exists_ok_of_map hscan
  obtain ⟨n, hn, hkind⟩ : ∃ n, tree₁.statements = [n] ∧ n.kind = .if := by
    obtain ⟨n, ns, hns, hkind, hnil⟩ := List.map_eq_cons_iff.mp hkinds
    exact ⟨n, by rw [hns, List.map_eq_nil_iff.mp hnil], hkind⟩
  have hboth := (Node.parse_append_line h₁ h₂ hscan hlast
    ⟨n, by rw [hn]; rfl, by rw [hkind]; decide⟩).1
  exact ⟨tree₁, tree₂, tokens, comments, h₁, h₂, hscan, hlast, hkinds, hboth⟩

end ManifestTree
