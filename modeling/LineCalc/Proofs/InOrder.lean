import Mathlib
import LineCalc.Proofs.Decomposition
import LineCalc.Proofs.Rendering

/-!
# Nodes and tokens

The nodes of an expression are listed in order: those of its left part, its root, those
of its right part. Every node comes from one token (`Expr.token`).

Main statement: the nodes of a program come from exactly the tokens of its source, less
the parentheses, one for one and in the order of the source
(`Program.ofSource_nodes`). So no node is out of place, and each stands where the
source spells it.

The tokens of the source are those of a derivation, so the account is kept part by part:
an operand has a node for each of its tokens, and a chain of links adds its own to those
of the expression before it (`Operand.tokens_expr`, `Links.tokens_expr`).
-/

namespace LineCalc

/-! ## Nodes of an expression -/

/-- Whether tokens of a kind only group others. -/
def Token.Kind.isParen : Token.Kind → Bool
  | .leftParen | .rightParen => true
  | _ => false

namespace Expr

/-- The nodes of an expression: those of the left part, the root, those of the right
part. -/
def inOrder : Expr → List Expr
  | number text position => [number text position]
  | identifier name position => [identifier name position]
  | arith op left right position =>
    left.inOrder ++ arith op left right position :: right.inOrder
  | assign target value position =>
    target.inOrder ++ assign target value position :: value.inOrder

/-- The token that the root of an expression comes from. -/
def token : Expr → Token
  | number text position => ⟨.number, text, position⟩
  | identifier name position => ⟨.identifier, name, position⟩
  | arith op _ _ position => ⟨(Surface.operatorWord op).kind, op.symbol, position⟩
  | assign _ _ position => ⟨.assign, "=", position⟩

@[simp] theorem position_token (e : Expr) : e.token.position = e.position := by
  cases e <;> rfl

/-- The tokens that the nodes of an expression come from. -/
def tokens (e : Expr) : List Token := e.inOrder.map token

theorem tokens_arith (op : Operator) (left right : Expr) (position : Nat) :
    (arith op left right position).tokens =
      left.tokens ++ (arith op left right position).token :: right.tokens := by
  simp only [tokens, inOrder, List.map_append, List.map_cons]

theorem tokens_assign (target value : Expr) (position : Nat) :
    (assign target value position).tokens =
      target.tokens ++ (assign target value position).token :: value.tokens := by
  simp only [tokens, inOrder, List.map_append, List.map_cons]

end Expr

/-! ## Texts of marks -/

namespace Token

/-- A mark is spelled by its one character. -/
theorem Spelled.text_eq {kind : Kind} {text : String} {c : Char} (h : Spelled ⟨kind, text⟩)
    (hc : mark? c = some kind) : text = .ofList [c] := by
  have hmatch := ((spelled_iff kind text).mp h).2
  rw [pattern_of_mark? hc, RegularExpression.char_rmatch_iff] at hmatch
  rw [← hmatch, String.ofList_toList]

theorem Spelled.text_assign {text : String} (h : Spelled ⟨.assign, text⟩) : text = "=" :=
  h.text_eq (c := '=') rfl

/-- An operator is spelled by its symbol. -/
theorem Spelled.eq_operatorWord {kind : Kind} {text : String} {op : Operator}
    (h : Spelled ⟨kind, text⟩) (hop : kind.operator? = some op) :
    (⟨kind, text⟩ : Surface.Word) = Surface.operatorWord op := by
  cases kind <;> cases hop
  case plus => rw [h.text_eq (c := '+') rfl]; rfl
  case minus => rw [h.text_eq (c := '-') rfl]; rfl
  case times => rw [h.text_eq (c := '*') rfl]; rfl
  case divide => rw [h.text_eq (c := '/') rfl]; rfl
  case remainder => rw [h.text_eq (c := '%') rfl]; rfl

end Token

/-! ## Nodes of a derivation -/

namespace Grammar

/-- The tokens that are no parentheses. -/
def ungrouped (tokens : List Token) : List Token := tokens.filter fun t => !t.kind.isParen

theorem ungrouped_append (before after : List Token) :
    ungrouped (before ++ after) = ungrouped before ++ ungrouped after :=
  List.filter_append before after

theorem ungrouped_cons {t : Token} (h : t.kind.isParen = false) (rest : List Token) :
    ungrouped (t :: rest) = t :: ungrouped rest :=
  List.filter_cons_of_pos (by simp [h])

theorem ungrouped_cons_paren {t : Token} (h : t.kind.isParen = true) (rest : List Token) :
    ungrouped (t :: rest) = ungrouped rest :=
  List.filter_cons_of_neg (by simp [h])

theorem Mark.isParen {kind : Token.Kind} (m : Mark kind) : m.token.kind.isParen = kind.isParen :=
  congrArg Token.Kind.isParen m.hasKind

theorem Atom.isParen (a : Atom) : a.token.kind.isParen = false := by
  have h := a.isAtom
  cases hkind : a.token.kind <;> rw [hkind] at h <;> first | rfl | cases h

theorem Sign.isParen (s : Sign) : s.token.kind.isParen = false := by
  have h := s.spells
  cases hkind : s.token.kind <;> rw [hkind] at h <;> first | rfl | cases h

/-- An atom carries the text and the place of its token. -/
theorem Atom.tokens_expr (a : Atom) : a.expr.tokens = [a.token] := by
  obtain ⟨⟨kind, text, position⟩, hatom⟩ := a
  cases kind <;> first | rfl | cases hatom

/-- An operation carries the operator and the place of its sign. -/
theorem Sign.token_arith {s : Sign} (h : Token.Spelled s.token.word) (left right : Expr) :
    (Expr.arith s.op left right s.token.position).token = s.token := by
  have hword : s.token.word = Surface.operatorWord s.op := h.eq_operatorWord s.spells
  rw [Expr.token, ← Surface.text_operatorWord, ← hword]
  rfl

theorem Mark.token_assign (m : Mark .assign) (h : Token.Spelled m.token.word)
    (target value : Expr) : (Expr.assign target value m.token.position).token = m.token := by
  obtain ⟨⟨kind, text, position⟩, hkind⟩ := m
  cases hkind
  obtain rfl : text = "=" := Token.Spelled.text_assign h
  rfl

mutual

/-- An operand has a node for each of its tokens that is no parenthesis. -/
theorem Operand.tokens_expr : ∀ o : Operand, (∀ t ∈ o.tokens, Token.Spelled t.word) →
    o.expr.tokens = ungrouped o.tokens
  | .atom a, _ => by
    rw [Operand.expr, a.tokens_expr, Operand.tokens, ungrouped_cons a.isParen]
    rfl
  | .group p first links q, h => by
    simp only [Operand.tokens, List.mem_cons, List.mem_append] at h
    have hclosing : ungrouped [q.token] = [] := ungrouped_cons_paren q.isParen []
    rw [Operand.expr, links.tokens_expr (fun t ht => h t (by simp [ht])),
      first.tokens_expr (fun t ht => h t (by simp [ht])), Operand.tokens,
      ungrouped_cons_paren p.isParen, ungrouped_append, ungrouped_append, hclosing,
      List.append_nil]

/-- A chain of links adds its nodes to those of the expression before it. -/
theorem Links.tokens_expr : ∀ (l : Links) {left : Expr}, (∀ t ∈ l.tokens, Token.Spelled t.word) →
    (l.expr left).tokens = left.tokens ++ ungrouped l.tokens
  | .nil, left, _ => (List.append_nil left.tokens).symm
  | .cons sign right later, left, h => by
    simp only [Links.tokens, List.mem_cons, List.mem_append] at h
    -- the operation takes the place of the expression before the later links
    rw [Links.expr, later.tokens_expr (fun t ht => h t (by simp [ht])), Expr.tokens_arith,
      Sign.token_arith (h sign.token (by simp)),
      right.tokens_expr (fun t ht => h t (by simp [ht])), Links.tokens,
      ungrouped_cons sign.isParen, ungrouped_append, List.append_assoc, List.cons_append]

end

theorem Formula.tokens_expr (f : Formula) (h : ∀ t ∈ f.tokens, Token.Spelled t.word) :
    f.expr.tokens = ungrouped f.tokens := by
  simp only [Formula.tokens, List.mem_append] at h
  rw [Formula.expr, f.links.tokens_expr (fun t ht => h t (.inr ht)),
    f.first.tokens_expr (fun t ht => h t (.inl ht)), Formula.tokens, ungrouped_append]

theorem Statement.tokens_expr (s : Statement) (h : ∀ t ∈ s.tokens, Token.Spelled t.word) :
    s.expr.tokens = ungrouped s.tokens := by
  cases s with
  | formula f => exact f.tokens_expr h
  | assignment target sign value =>
    simp only [Statement.tokens, List.mem_cons] at h
    have hsign := sign.token_assign (h sign.token (by simp)) target.expr value.expr
    rw [Statement.expr, Expr.tokens_assign, hsign, target.tokens_expr,
      value.tokens_expr (fun t ht => h t (.inr (.inr ht))), Statement.tokens,
      ungrouped_cons target.isParen, ungrouped_cons sign.isParen]
    rfl

/-- The nodes of a program come from the tokens of its derivation. -/
theorem Derivation.tokens_program (d : Derivation) (h : ∀ t ∈ d.tokens, Token.Spelled t.word) :
    d.program.flatMap Expr.tokens = ungrouped d.tokens := by
  obtain ⟨ss, hne⟩ := d
  simp only [Derivation.tokens, Derivation.program] at h ⊢
  clear hne
  induction ss with
  | nil => rfl
  | cons s later ih =>
    simp only [List.flatMap_cons, List.mem_append] at h
    rw [List.map_cons, List.flatMap_cons, List.flatMap_cons, ungrouped_append,
      s.tokens_expr (fun t ht => h t (.inl ht)), ih (fun t ht => h t (.inr ht))]

end Grammar

/-! ## Nodes of a source -/

namespace Program

/-- The nodes of the statements of a program, in order. -/
def nodes (program : Program) : List Expr := program.flatMap Expr.inOrder

theorem map_token_nodes (program : Program) :
    program.nodes.map Expr.token = program.flatMap Expr.tokens :=
  List.map_flatMap

/-- **Every token has its node.** The nodes of a program that a source spells come, one for
one and in order, from the tokens of the source that are no parentheses. So their places
increase, and the source has the text of each node at its place. -/
theorem ofSource_nodes {source : String} {program : Program}
    (h : ofSource source = .ok program) :
    (∃ tokens, Token.tokenize source = .ok tokens ∧
      program.nodes.map Expr.token = Grammar.ungrouped tokens) ∧
    (program.nodes.map Expr.position).Pairwise (· < ·) ∧
    ∀ node ∈ program.nodes, node.token.StandsIn 0 source.toList := by
  obtain ⟨tokens, hscan, hparse⟩ := ofSource_eq_ok.mp h
  obtain ⟨d, -, rfl, rfl⟩ := exists_derivation hparse
  have hdecomposes := Token.tokenize_eq_ok_iff_decomposes.mp hscan
  have hnodes : d.program.nodes.map Expr.token = Grammar.ungrouped d.tokens := by
    rw [map_token_nodes]
    exact d.tokens_program fun t ht => hdecomposes.spelled ht
  refine ⟨⟨d.tokens, hscan, hnodes⟩, ?_, ?_⟩
  · have hpositions : d.program.nodes.map Expr.position =
        (Grammar.ungrouped d.tokens).map Token.position := by
      rw [← hnodes, List.map_map]
      exact List.map_congr_left fun e _ => e.position_token.symm
    rw [hpositions, List.pairwise_map]
    exact (hdecomposes.ordered.imp And.left).filter _
  · intro node hnode
    have hmem : node.token ∈ Grammar.ungrouped d.tokens := hnodes ▸ List.mem_map_of_mem hnode
    exact hdecomposes.slice _ (List.mem_of_mem_filter hmem)

/-- Two statements, the first with a group on the left of a chain. -/
theorem ofSource_nodes_assignedProduct :
    (∃ tokens, Token.tokenize "x=(1+2)*y 3" = .ok tokens ∧
      [⟨.identifier, "x", 0⟩, ⟨.assign, "=", 1⟩, ⟨.number, "1", 3⟩, ⟨.plus, "+", 4⟩,
        ⟨.number, "2", 5⟩, ⟨.times, "*", 7⟩, ⟨.identifier, "y", 8⟩, ⟨.number, "3", 10⟩] =
        Grammar.ungrouped tokens) ∧
    [0, 1, 3, 4, 5, 7, 8, 10].Pairwise (· < ·) ∧
    Token.StandsIn ⟨.number, "2", 5⟩ 0 "x=(1+2)*y 3".toList := by
  have hsource : ofSource "x=(1+2)*y 3" = .ok [.assign (.identifier "x" 0)
      (.arith .multiply (.arith .add (.number "1" 3) (.number "2" 5) 4) (.identifier "y" 8) 7) 1,
      .number "3" 10] := by cbv
  obtain ⟨htokens, hpositions, hstands⟩ := ofSource_nodes hsource
  exact ⟨htokens, hpositions, hstands (.number "2" 5) (by simp [nodes, Expr.inOrder])⟩

end Program

end LineCalc
