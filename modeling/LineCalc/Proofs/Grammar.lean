import LineCalc.Program

/-!
# The grammar

The language of programs, as a grammar over the kinds of tokens:

* program: `statement+`
* statement: `atom assign formula`, or `formula`
* formula: `operand (operator operand)*`
* operand: `leftParen formula rightParen`, or `atom`
* atom: `number`, or `identifier`

A derivation is a tree of this grammar with tokens at its leaves. `tokens` is
what it spells, `depth` how many of its groups are open at once at most, and
`expr` the expression that it stands for: operators lean to the left, and
parentheses leave no trace. `WithinLimit` bounds the groups that are open after
any of its tokens, and the depth is such a number (`Derivation.peak`).

Main statement: no list of tokens has two derivations (`Derivation.ext_tokens`).
Statements have no end mark, so this rests on what may follow a part. An operand
ends by itself; a chain of links ends where no operator follows; a statement ends
where another one begins.
-/

namespace LineCalc.Expr

/-- Whether the expression is a number or a name. -/
def isLeaf : Expr → Bool
  | number _ _ | identifier _ _ => true
  | _ => false

/-- Whether there is no assignment in the expression. -/
def isFormula : Expr → Bool
  | number _ _ | identifier _ _ => true
  | arith _ left right _ => left.isFormula && right.isFormula
  | assign _ _ _ => false

end LineCalc.Expr

namespace LineCalc.Grammar

/-! ## Derivations -/

/-- A token that is an operand by itself. -/
structure Atom where
  token : Token
  isAtom : token.kind.isAtom = true

/-- A token of the given kind. -/
structure Mark (kind : Token.Kind) where
  token : Token
  hasKind : token.kind = kind

/-- A token that stands for an arithmetic operator. -/
structure Sign where
  token : Token
  op : Operator
  spells : token.kind.operator? = some op

mutual

/-- An atom, or a formula in parentheses. -/
inductive Operand where
  | atom (a : Atom)
  | group (opening : Mark .leftParen) (first : Operand) (links : Links)
      (closing : Mark .rightParen)

/-- The operators and operands that follow the first operand of a formula. -/
inductive Links where
  | nil
  | cons (sign : Sign) (right : Operand) (later : Links)

end

/-- A chain of operands with operators between them. -/
structure Formula where
  first : Operand
  links : Links

/-- A formula, or its assignment to an atom. -/
inductive Statement where
  | formula (f : Formula)
  | assignment (target : Atom) (sign : Mark .assign) (value : Formula)

/-- The derivation of a program: one statement after the other, at least one. -/
structure Derivation where
  statements : List Statement
  nonempty : statements ≠ []

/-! ## What a derivation spells -/

mutual

/-- The tokens of an operand. -/
def Operand.tokens : Operand → List Token
  | .atom a => [a.token]
  | .group opening first links closing =>
    opening.token :: (first.tokens ++ (links.tokens ++ [closing.token]))

/-- The tokens of a chain of links. -/
def Links.tokens : Links → List Token
  | .nil => []
  | .cons sign right later => sign.token :: (right.tokens ++ later.tokens)

end

/-- The tokens of a formula. -/
def Formula.tokens (f : Formula) : List Token := f.first.tokens ++ f.links.tokens

/-- The tokens of a statement. -/
def Statement.tokens : Statement → List Token
  | .formula f => f.tokens
  | .assignment target sign value => target.token :: sign.token :: value.tokens

/-- The tokens of a program. -/
def Derivation.tokens (d : Derivation) : List Token := d.statements.flatMap Statement.tokens

/-! ## How deep it nests -/

mutual

/-- How many groups of an operand are open at once at most. -/
def Operand.depth : Operand → Nat
  | .atom _ => 0
  | .group _ first links _ => max first.depth links.depth + 1

/-- How many groups of a chain of links are open at once at most. -/
def Links.depth : Links → Nat
  | .nil => 0
  | .cons _ right later => max right.depth later.depth

end

/-- How many groups of a formula are open at once at most. -/
def Formula.depth (f : Formula) : Nat := max f.first.depth f.links.depth

/-- How many groups of a statement are open at once at most. -/
def Statement.depth : Statement → Nat
  | .formula f => f.depth
  | .assignment _ _ value => value.depth

/-! ## Groups open at a point -/

/-- What a token of the kind does to the number of open groups. -/
def groupStep : Token.Kind → Int
  | .leftParen => 1
  | .rightParen => -1
  | _ => 0

@[simp] theorem groupStep_leftParen : groupStep .leftParen = 1 := rfl

@[simp] theorem groupStep_rightParen : groupStep .rightParen = -1 := rfl

@[simp] theorem groupStep_assign : groupStep .assign = 0 := rfl

/-- How many groups are open after the tokens. -/
def openGroups : List Token → Int
  | [] => 0
  | t :: rest => groupStep t.kind + openGroups rest

/-- At no point of the program are more groups open than allowed. -/
def Derivation.WithinLimit (d : Derivation) : Prop :=
  ∀ before, before <+: d.tokens → openGroups before ≤ groupLimit

@[simp] theorem openGroups_nil : openGroups [] = 0 := rfl

@[simp] theorem openGroups_cons (t : Token) (rest : List Token) :
    openGroups (t :: rest) = groupStep t.kind + openGroups rest := rfl

@[simp] theorem openGroups_append (before after : List Token) :
    openGroups (before ++ after) = openGroups before + openGroups after := by
  induction before with
  | nil => simp
  | cons t rest ih =>
    simp only [List.cons_append, openGroups_cons, ih]
    omega

@[simp] theorem groupStep_atom (a : Atom) : groupStep a.token.kind = 0 := by
  have h := a.isAtom
  cases hkind : a.token.kind <;> rw [hkind] at h <;> first | rfl | cases h

@[simp] theorem groupStep_sign (s : Sign) : groupStep s.token.kind = 0 := by
  have h := s.spells
  cases hkind : s.token.kind <;> rw [hkind] at h <;> first | rfl | cases h

@[simp] theorem groupStep_mark {kind : Token.Kind} (m : Mark kind) :
    groupStep m.token.kind = groupStep kind := by
  rw [m.hasKind]

mutual

theorem Operand.openGroups_tokens : ∀ o : Operand, openGroups o.tokens = 0
  | .atom a => by simp [Operand.tokens]
  | .group p first links q => by
    simp [Operand.tokens, first.openGroups_tokens, links.openGroups_tokens]

theorem Links.openGroups_tokens : ∀ l : Links, openGroups l.tokens = 0
  | .nil => rfl
  | .cons s right later => by
    simp [Links.tokens, right.openGroups_tokens, later.openGroups_tokens]

end

theorem Formula.openGroups_tokens (f : Formula) : openGroups f.tokens = 0 := by
  simp [Formula.tokens, Operand.openGroups_tokens, Links.openGroups_tokens]

theorem Statement.openGroups_tokens (s : Statement) : openGroups s.tokens = 0 := by
  cases s with
  | formula f => exact f.openGroups_tokens
  | assignment target sign value => simp [Statement.tokens, Formula.openGroups_tokens]

/-- After some of the tokens so many groups are open. -/
def Peak (tokens : List Token) (depth : Nat) : Prop :=
  ∃ before, before <+: tokens ∧ openGroups before = depth

theorem Peak.append {tokens : List Token} {depth : Nat} (h : Peak tokens depth)
    (after : List Token) : Peak (tokens ++ after) depth := by
  obtain ⟨before, hinitial, hopen⟩ := h
  exact ⟨before, hinitial.trans (List.prefix_append _ _), hopen⟩

theorem Peak.after {tokens : List Token} {depth : Nat} (h : Peak tokens depth)
    {before : List Token} (hbefore : openGroups before = 0) : Peak (before ++ tokens) depth := by
  obtain ⟨inner, hinitial, hopen⟩ := h
  exact ⟨before ++ inner, (List.prefix_append_right_inj before).mpr hinitial, by simp [hbefore, hopen]⟩

theorem Peak.max {tokens : List Token} {m n : Nat} (hm : Peak tokens m) (hn : Peak tokens n) :
    Peak tokens (max m n) := by
  rcases Nat.le_total m n with h | h
  · rw [Nat.max_eq_right h]
    exact hn
  · rw [Nat.max_eq_left h]
    exact hm

mutual

/-- The depth of an operand is reached after some of its tokens. -/
theorem Operand.peak : ∀ o : Operand, Peak o.tokens o.depth
  | .atom a => ⟨[], List.nil_prefix, rfl⟩
  | .group p first links q => by
    have hfirst := first.peak.append (links.tokens ++ [q.token])
    have hlinks := (links.peak.append [q.token]).after first.openGroups_tokens
    -- the deepest point inside is one deeper from outside
    obtain ⟨before, hinitial, hopen⟩ := hfirst.max hlinks
    refine ⟨p.token :: before, ?_, ?_⟩
    · rw [Operand.tokens]
      exact (List.prefix_cons_inj p.token).mpr hinitial
    · simp only [openGroups_cons, groupStep_mark, groupStep_leftParen, hopen, Operand.depth]
      omega

theorem Links.peak : ∀ l : Links, Peak l.tokens l.depth
  | .nil => ⟨[], List.nil_prefix, rfl⟩
  | .cons s right later => by
    have hsign : openGroups [s.token] = 0 := by simp
    have hright := right.peak.append later.tokens
    have hlater := later.peak.after right.openGroups_tokens
    exact (hright.max hlater).after hsign

end

theorem Formula.peak (f : Formula) : Peak f.tokens f.depth :=
  (f.first.peak.append f.links.tokens).max (f.links.peak.after f.first.openGroups_tokens)

theorem Statement.peak (s : Statement) : Peak s.tokens s.depth := by
  cases s with
  | formula f => exact f.peak
  | assignment target sign value =>
    have htarget : openGroups [target.token, sign.token] = 0 := by simp
    exact value.peak.after htarget

/-- The depth of each statement is reached after some tokens of the program. -/
theorem Derivation.peak (d : Derivation) {s : Statement} (hs : s ∈ d.statements) :
    Peak d.tokens s.depth := by
  obtain ⟨before, after, h⟩ := List.append_of_mem hs
  have hbefore : openGroups (before.flatMap Statement.tokens) = 0 := by
    clear h hs
    induction before with
    | nil => rfl
    | cons s' later ih => simp [Statement.openGroups_tokens, ih]
  rw [Derivation.tokens, h, List.flatMap_append]
  exact (s.peak.append _).after hbefore

/-! ## What it stands for -/

/-- An atom as an expression. -/
def Atom.expr (a : Atom) : Expr :=
  if a.token.kind = .number then .number a.token.text a.token.position
  else .identifier a.token.text a.token.position

mutual

/-- An operand as an expression. -/
def Operand.expr : Operand → Expr
  | .atom a => a.expr
  | .group _ first links _ => links.expr first.expr

/-- The operations of a chain of links, the expression before them being the
leftmost operand. -/
def Links.expr : Links → Expr → Expr
  | .nil, left => left
  | .cons sign right later, left =>
    later.expr (.arith sign.op left right.expr sign.token.position)

end

/-- A formula as an expression. -/
def Formula.expr (f : Formula) : Expr := f.links.expr f.first.expr

/-- A statement as an expression. -/
def Statement.expr : Statement → Expr
  | .formula f => f.expr
  | .assignment target sign value => .assign target.expr value.expr sign.token.position

/-- The program of a derivation. -/
def Derivation.program (d : Derivation) : Program := d.statements.map Statement.expr

theorem Atom.isLeaf_expr (a : Atom) : a.expr.isLeaf = true := by
  unfold Atom.expr
  split <;> rfl

theorem Atom.isFormula_expr (a : Atom) : a.expr.isFormula = true := by
  unfold Atom.expr
  split <;> rfl

mutual

theorem Operand.isFormula_expr : ∀ o : Operand, o.expr.isFormula = true
  | .atom a => a.isFormula_expr
  | .group _ first links _ => links.isFormula_expr first.isFormula_expr

theorem Links.isFormula_expr : ∀ (l : Links) {left : Expr}, left.isFormula = true →
    (l.expr left).isFormula = true
  | .nil, left, h => h
  | .cons sign right later, left, h => by
    refine later.isFormula_expr ?_
    rw [Expr.isFormula, h, right.isFormula_expr]
    rfl

end

/-- Assignments stand at the root of a statement only. -/
theorem Formula.isFormula_expr (f : Formula) : f.expr.isFormula = true :=
  f.links.isFormula_expr f.first.isFormula_expr

/-! ## What may follow a part -/

/-- No operator comes next, so a chain of links cannot go on. -/
def NoOperator (tokens : List Token) : Prop :=
  ∀ t ∈ tokens.head?, t.kind.operator? = none

/-- Nothing comes next, or the first token of a statement does. -/
def AtBoundary (tokens : List Token) : Prop :=
  ∀ t ∈ tokens.head?, t.kind.isAtom = true ∨ t.kind = .leftParen

theorem operator?_of_isAtom {kind : Token.Kind} (h : kind.isAtom = true) :
    kind.operator? = none := by
  cases kind <;> first | rfl | cases h

theorem AtBoundary.noOperator {tokens : List Token} (h : AtBoundary tokens) :
    NoOperator tokens := by
  intro t ht
  rcases h t ht with hatom | hparen
  · exact operator?_of_isAtom hatom
  · rw [hparen]
    rfl

theorem NoOperator.nil : NoOperator [] := by
  intro t ht
  cases ht

theorem AtBoundary.nil : AtBoundary [] := by
  intro t ht
  cases ht

theorem NoOperator.mark {kind : Token.Kind} (m : Mark kind)
    (hkind : kind.operator? = none) (rest : List Token) : NoOperator (m.token :: rest) := by
  intro t ht
  cases ht
  rw [m.hasKind, hkind]

theorem Sign.not_noOperator (sign : Sign) (rest : List Token) :
    ¬ NoOperator (sign.token :: rest) := by
  intro h
  have hnone : sign.token.kind.operator? = none := h sign.token rfl
  rw [sign.spells] at hnone
  cases hnone

/-- An operand begins with an atom or a parenthesis. -/
theorem Operand.atBoundary (o : Operand) (rest : List Token) :
    AtBoundary (o.tokens ++ rest) := by
  intro t ht
  cases o with
  | atom a =>
    cases ht
    exact .inl a.isAtom
  | group opening first links closing =>
    cases ht
    exact .inr opening.hasKind

theorem Statement.atBoundary (s : Statement) (rest : List Token) :
    AtBoundary (s.tokens ++ rest) := by
  cases s with
  | formula f =>
    rw [Statement.tokens, Formula.tokens, List.append_assoc]
    exact f.first.atBoundary _
  | assignment target sign value =>
    intro t ht
    cases ht
    exact .inl target.isAtom

/-- After a statement comes the end or another statement. -/
theorem atBoundary_flatMap (ss : List Statement) :
    AtBoundary (ss.flatMap Statement.tokens) := by
  cases ss with
  | nil => exact .nil
  | cons s later => exact s.atBoundary _

/-! ## No list of tokens has two derivations -/

theorem Atom.ext_token {a b : Atom} (h : a.token = b.token) : a = b := by
  cases a
  cases b
  cases h
  rfl

theorem Mark.ext_token {kind : Token.Kind} {a b : Mark kind} (h : a.token = b.token) :
    a = b := by
  cases a
  cases b
  cases h
  rfl

/-- The operator is determined by the token that stands for it. -/
theorem Sign.ext_token {a b : Sign} (h : a.token = b.token) : a = b := by
  obtain ⟨t, op, ha⟩ := a
  obtain ⟨u, op', hb⟩ := b
  cases h
  cases ha.symm.trans hb
  rfl

/-- An atom and a parenthesis are told apart by their kinds. -/
theorem Atom.token_ne_mark (a : Atom) {kind : Token.Kind} (m : Mark kind)
    (hkind : kind.isAtom = false) : a.token ≠ m.token := by
  intro h
  have := a.isAtom
  rw [h, m.hasKind, hkind] at this
  cases this

mutual

/-- An operand ends by itself: whatever follows two operands, they are the same
if the tokens are. -/
theorem Operand.ext_tokens : ∀ (o₁ o₂ : Operand) {r₁ r₂ : List Token},
    o₁.tokens ++ r₁ = o₂.tokens ++ r₂ → o₁ = o₂ ∧ r₁ = r₂
  | .atom a, .atom b, r₁, r₂, h => by
    obtain ⟨htoken, hrest⟩ := List.cons.inj h
    exact ⟨congrArg Operand.atom (Atom.ext_token htoken), hrest⟩
  | .atom a, .group opening _ _ _, r₁, r₂, h =>
    absurd (List.cons.inj h).1 (a.token_ne_mark opening rfl)
  | .group opening _ _ _, .atom a, r₁, r₂, h =>
    absurd (List.cons.inj h).1.symm (a.token_ne_mark opening rfl)
  | .group p f l q, .group p' f' l' q', r₁, r₂, h => by
    simp only [Operand.tokens, List.cons_append, List.append_assoc, List.cons.injEq] at h
    obtain ⟨hopening, hbody⟩ := h
    obtain ⟨rfl, hlinks⟩ := Operand.ext_tokens f f' hbody
    -- the closing parenthesis is no operator, so both chains end at theirs
    obtain ⟨rfl, hclosing⟩ := Links.ext_tokens l l' hlinks
      (.mark q rfl _) (.mark q' rfl _)
    obtain ⟨hq, hrest⟩ := List.cons.inj hclosing
    rw [Mark.ext_token hopening, Mark.ext_token hq]
    exact ⟨rfl, hrest⟩

/-- A chain of links ends where no operator follows. -/
theorem Links.ext_tokens : ∀ (l₁ l₂ : Links) {r₁ r₂ : List Token},
    l₁.tokens ++ r₁ = l₂.tokens ++ r₂ → NoOperator r₁ → NoOperator r₂ → l₁ = l₂ ∧ r₁ = r₂
  | .nil, .nil, r₁, r₂, h, _, _ => ⟨rfl, h⟩
  | .nil, .cons sign right later, r₁, r₂, h, h₁, _ => by
    -- the longer chain goes on with an operator where the shorter one has ended
    have hnext : r₁ = sign.token :: (right.tokens ++ later.tokens ++ r₂) := h
    exact absurd (hnext ▸ h₁) (sign.not_noOperator _)
  | .cons sign right later, .nil, r₁, r₂, h, _, h₂ => by
    have hnext : sign.token :: (right.tokens ++ later.tokens ++ r₁) = r₂ := h
    exact absurd (hnext ▸ h₂) (sign.not_noOperator _)
  | .cons sign right later, .cons sign' right' later', r₁, r₂, h, h₁, h₂ => by
    simp only [Links.tokens, List.cons_append, List.append_assoc, List.cons.injEq] at h
    obtain ⟨hsign, hrest⟩ := h
    obtain ⟨rfl, hlater⟩ := Operand.ext_tokens right right' hrest
    obtain ⟨rfl, hend⟩ := Links.ext_tokens later later' hlater h₁ h₂
    rw [Sign.ext_token hsign]
    exact ⟨rfl, hend⟩

end

theorem Formula.ext_tokens {f g : Formula} {r₁ r₂ : List Token}
    (h : f.tokens ++ r₁ = g.tokens ++ r₂) (h₁ : NoOperator r₁) (h₂ : NoOperator r₂) :
    f = g ∧ r₁ = r₂ := by
  obtain ⟨first, links⟩ := f
  obtain ⟨first', links'⟩ := g
  simp only [Formula.tokens, List.append_assoc] at h
  obtain ⟨rfl, hlinks⟩ := Operand.ext_tokens first first' h
  obtain ⟨rfl, hrest⟩ := Links.ext_tokens links links' hlinks h₁ h₂
  exact ⟨rfl, hrest⟩

/-- A formula does not spell the beginning of an assignment: `=` neither goes on
with a formula nor begins a statement. -/
theorem Formula.tokens_ne_assignment (f : Formula) {r : List Token} (hr : AtBoundary r)
    (target : Atom) (sign : Mark .assign) (rest : List Token) :
    f.tokens ++ r ≠ target.token :: sign.token :: rest := by
  intro h
  obtain ⟨first, links⟩ := f
  rw [Formula.tokens, List.append_assoc] at h
  cases first with
  | group opening inner more closing =>
    exact absurd (List.cons.inj h).1.symm (target.token_ne_mark opening rfl)
  | atom a =>
    obtain ⟨-, hnext⟩ := List.cons.inj h
    -- what comes after the atom is `=`, which is neither an operator nor a beginning
    cases links with
    | nil =>
      have hassign : r = sign.token :: rest := hnext
      rcases hr sign.token (by rw [hassign]; rfl) with hatom | hparen
      · rw [sign.hasKind] at hatom
        cases hatom
      · rw [sign.hasKind] at hparen
        cases hparen
    | cons op right later =>
      have hspells := op.spells
      rw [(List.cons.inj hnext).1, sign.hasKind] at hspells
      cases hspells

/-- A statement ends where another one begins. -/
theorem Statement.ext_tokens {s₁ s₂ : Statement} {r₁ r₂ : List Token}
    (h : s₁.tokens ++ r₁ = s₂.tokens ++ r₂) (h₁ : AtBoundary r₁) (h₂ : AtBoundary r₂) :
    s₁ = s₂ ∧ r₁ = r₂ := by
  cases s₁ with
  | formula f =>
    cases s₂ with
    | formula g =>
      obtain ⟨rfl, hrest⟩ := Formula.ext_tokens h h₁.noOperator h₂.noOperator
      exact ⟨rfl, hrest⟩
    | assignment target sign value =>
      exact absurd h (f.tokens_ne_assignment h₁ target sign _)
  | assignment target sign value =>
    cases s₂ with
    | formula g =>
      exact absurd h.symm (g.tokens_ne_assignment h₂ target sign _)
    | assignment target' sign' value' =>
      simp only [Statement.tokens, List.cons_append, List.cons.injEq] at h
      obtain ⟨htarget, hsign, hvalue⟩ := h
      obtain ⟨rfl, hrest⟩ := Formula.ext_tokens hvalue h₁.noOperator h₂.noOperator
      rw [Atom.ext_token htarget, Mark.ext_token hsign]
      exact ⟨rfl, hrest⟩

theorem Statement.tokens_ne_nil (s : Statement) : s.tokens ≠ [] := by
  cases s with
  | formula f =>
    obtain ⟨first, links⟩ := f
    cases first <;> simp [Statement.tokens, Formula.tokens, Operand.tokens]
  | assignment target sign value => simp [Statement.tokens]

theorem statements_ext_tokens {ss₁ ss₂ : List Statement}
    (h : ss₁.flatMap Statement.tokens = ss₂.flatMap Statement.tokens) : ss₁ = ss₂ := by
  induction ss₁ generalizing ss₂ with
  | nil =>
    cases ss₂ with
    | nil => rfl
    | cons s later => exact absurd (List.append_eq_nil_iff.mp h.symm).1 s.tokens_ne_nil
  | cons s later ih =>
    cases ss₂ with
    | nil => exact absurd (List.append_eq_nil_iff.mp h).1 s.tokens_ne_nil
    | cons s' later' =>
      rw [List.flatMap_cons, List.flatMap_cons] at h
      obtain ⟨rfl, hlater⟩ :=
        Statement.ext_tokens h (atBoundary_flatMap later) (atBoundary_flatMap later')
      rw [ih hlater]

/-- **The grammar is unambiguous**: a derivation is determined by its tokens. -/
theorem Derivation.ext_tokens {d₁ d₂ : Derivation} (h : d₁.tokens = d₂.tokens) : d₁ = d₂ := by
  obtain ⟨ss₁, hne₁⟩ := d₁
  obtain ⟨ss₂, hne₂⟩ := d₂
  obtain rfl : ss₁ = ss₂ := statements_ext_tokens h
  rfl

end LineCalc.Grammar
