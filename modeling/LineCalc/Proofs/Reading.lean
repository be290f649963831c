import LineCalc.Proofs.Grammar

/-!
# Readings by what comes next

What each reading does, by the tokens that the cursor is at. The next token
decides between the forms, so every reading has one equation for each thing that
can come next, and no other module looks into the readings themselves.
-/

namespace LineCalc

/-! ## Sequences of readings -/

namespace Reading

variable {α β : Type} {x : Reading α} {f : α → Reading β} {c c' : Cursor}

theorem bind_eq_ok {b : β} : (x >>= f).run c = .ok b c' ↔
    ∃ a c₁, x.run c = .ok a c₁ ∧ (f a).run c₁ = .ok b c' := by
  rw [EStateM.run_bind]
  cases hx : x.run c with
  | ok a c₁ =>
    constructor
    · intro h
      exact ⟨a, c₁, rfl, h⟩
    · rintro ⟨a', c', ha, h⟩
      cases ha
      exact h
  | error fault c₁ =>
    constructor
    · intro h
      cases h
    · rintro ⟨a, c', ha, -⟩
      cases ha

theorem bind_eq_error {fault : ParseFault} : (x >>= f).run c = .error fault c' ↔
    x.run c = .error fault c' ∨
      ∃ a c₁, x.run c = .ok a c₁ ∧ (f a).run c₁ = .error fault c' := by
  rw [EStateM.run_bind]
  cases hx : x.run c with
  | ok a c₁ =>
    constructor
    · intro h
      exact .inr ⟨a, c₁, rfl, h⟩
    · rintro (h | ⟨a', c', ha, h⟩)
      · cases h
      · cases ha
        exact h
  | error fault' c₁ =>
    constructor
    · intro h
      cases h
      exact .inl rfl
    · rintro (h | ⟨a, c', ha, -⟩)
      · cases h
        rfl
      · cases ha

end Reading

namespace Program

open Cursor Grammar

variable {rest tokens : List Token} {finish groups bound : Nat}

/-! ## Single tokens -/

/-- The next token is not of the given kind. -/
def NotNext (kind : Token.Kind) (tokens : List Token) : Prop :=
  ∀ t ∈ tokens.head?, t.kind ≠ kind

/-- The next token begins no operand. -/
def NoOperand (tokens : List Token) : Prop :=
  ∀ t ∈ tokens.head?, t.kind.isAtom = false ∧ t.kind ≠ .leftParen

/-- The next token is of the given kind or it is not. -/
theorem mark_cases (kind : Token.Kind) (tokens : List Token) :
    (∃ (m : Mark kind) (rest : List Token), tokens = m.token :: rest) ∨
    NotNext kind tokens := by
  cases tokens with
  | nil =>
    refine .inr ?_
    intro t ht
    cases ht
  | cons t rest =>
    by_cases hkind : t.kind = kind
    · exact .inl ⟨⟨t, hkind⟩, rest, rfl⟩
    · refine .inr ?_
      intro t' ht
      cases ht
      exact hkind

theorem run_takeIf {accepts : Token.Kind → Bool} {t : Token} (h : accepts t.kind = true) :
    (takeIf accepts).run ⟨t :: rest, finish, groups⟩ = .ok (some t) ⟨rest, finish, groups⟩ :=
  if_pos h

theorem run_takeIf_none {accepts : Token.Kind → Bool}
    (h : ∀ t ∈ tokens.head?, accepts t.kind = false) :
    (takeIf accepts).run ⟨tokens, finish, groups⟩ = .ok none ⟨tokens, finish, groups⟩ := by
  cases tokens with
  | nil => rfl
  | cons t rest => exact if_neg (ne_true_of_eq_false (h t rfl))

theorem run_take_mark {kind : Token.Kind} (m : Mark kind) :
    (take kind).run ⟨m.token :: rest, finish, groups⟩ =
      .ok (some m.token) ⟨rest, finish, groups⟩ := by
  refine run_takeIf ?_
  rw [m.hasKind]
  exact beq_self_eq_true kind

theorem run_take_other {kind : Token.Kind} (h : NotNext kind tokens) :
    (take kind).run ⟨tokens, finish, groups⟩ = .ok none ⟨tokens, finish, groups⟩ := by
  refine run_takeIf_none ?_
  intro t ht
  exact beq_false_of_ne (h t ht)

theorem run_require_mark {kind : Token.Kind} (m : Mark kind) :
    (require kind).run ⟨m.token :: rest, finish, groups⟩ =
      .ok m.token ⟨rest, finish, groups⟩ := by
  rw [require, EStateM.run_bind, run_take_mark]
  rfl

theorem run_require_other {kind : Token.Kind} (h : NotNext kind tokens) :
    (require kind).run ⟨tokens, finish, groups⟩ =
      .error (.expected kind (position ⟨tokens, finish, groups⟩)) ⟨tokens, finish, groups⟩ := by
  rw [require, EStateM.run_bind, run_take_other h]
  rfl

theorem run_atom (a : Atom) :
    atom.run ⟨a.token :: rest, finish, groups⟩ = .ok a.expr ⟨rest, finish, groups⟩ := by
  rw [atom, EStateM.run_bind, run_takeIf a.isAtom, Atom.expr]
  by_cases hnumber : a.token.kind = .number
  · simp [hnumber]
  · simp [hnumber]

theorem run_atom_other (h : ∀ t ∈ tokens.head?, t.kind.isAtom = false) :
    atom.run ⟨tokens, finish, groups⟩ =
      .error (.expectedAtom (position ⟨tokens, finish, groups⟩)) ⟨tokens, finish, groups⟩ := by
  rw [atom, EStateM.run_bind, run_takeIf_none h]
  rfl

theorem run_atom_none (h : NoOperand tokens) :
    atom.run ⟨tokens, finish, groups⟩ =
      .error (.expectedAtom (position ⟨tokens, finish, groups⟩)) ⟨tokens, finish, groups⟩ :=
  run_atom_other fun t ht => (h t ht).1

/-! ## Operands -/

/-- What can come next where an operand is due. -/
theorem operand_cases (tokens : List Token) :
    (∃ (a : Atom) (rest : List Token), tokens = a.token :: rest) ∨
    (∃ (p : Mark .leftParen) (rest : List Token), tokens = p.token :: rest) ∨
    NoOperand tokens := by
  cases tokens with
  | nil =>
    refine .inr (.inr ?_)
    intro t ht
    cases ht
  | cons t rest =>
    by_cases hatom : t.kind.isAtom = true
    · exact .inl ⟨⟨t, hatom⟩, rest, rfl⟩
    · by_cases hparen : t.kind = .leftParen
      · exact .inr (.inl ⟨⟨t, hparen⟩, rest, rfl⟩)
      · refine .inr (.inr ?_)
        intro t' ht
        cases ht
        exact ⟨eq_false_of_ne_true hatom, hparen⟩

/-- What is read after the parenthesis that opens a group. -/
def groupRest (bound : Nat) : Reading Expr := do
  let first ← operandWithin bound
  let inner ← chainWithin bound first
  let _ ← require .rightParen
  closeGroup
  return inner

theorem notNext_atom (a : Atom) {kind : Token.Kind} (hkind : kind.isAtom = false) :
    NotNext kind (a.token :: rest) := by
  intro t ht
  cases ht
  intro h
  have hatom := a.isAtom
  rw [h, hkind] at hatom
  cases hatom

theorem run_operandWithin_atom (a : Atom) :
    (operandWithin bound).run ⟨a.token :: rest, finish, groups⟩ =
      .ok a.expr ⟨rest, finish, groups⟩ := by
  cases bound with
  | zero =>
    rw [operandWithin]
    exact run_atom a
  | succ bound =>
    rw [operandWithin, EStateM.run_bind, run_take_other (notNext_atom a rfl)]
    exact run_atom a

theorem run_operandWithin_none (h : NoOperand tokens) :
    (operandWithin bound).run ⟨tokens, finish, groups⟩ =
      .error (.expectedAtom (position ⟨tokens, finish, groups⟩)) ⟨tokens, finish, groups⟩ := by
  cases bound with
  | zero =>
    rw [operandWithin]
    exact run_atom_none h
  | succ bound =>
    have hparen : NotNext .leftParen tokens := fun t ht => (h t ht).2
    rw [operandWithin, EStateM.run_bind, run_take_other hparen]
    exact run_atom_none h

theorem run_operandWithin_paren (p : Mark .leftParen) :
    (operandWithin (bound + 1)).run ⟨p.token :: rest, finish, groups⟩ =
      (openGroup p.token.position >>= fun _ => groupRest bound).run ⟨rest, finish, groups⟩ := by
  rw [operandWithin, EStateM.run_bind, run_take_mark p]
  rfl

theorem run_operandWithin_group (p : Mark .leftParen) (hgroups : groups < groupLimit) :
    (operandWithin (bound + 1)).run ⟨p.token :: rest, finish, groups⟩ =
      (groupRest bound).run ⟨rest, finish, groups + 1⟩ := by
  have hopen : (openGroup p.token.position).run ⟨rest, finish, groups⟩ =
      .ok () ⟨rest, finish, groups + 1⟩ := by
    rw [openGroup, EStateM.run_bind, EStateM.run_get]
    simp [hgroups]
  rw [run_operandWithin_paren, EStateM.run_bind, hopen]

theorem run_operandWithin_tooDeep (p : Mark .leftParen) (hgroups : ¬ groups < groupLimit) :
    (operandWithin (bound + 1)).run ⟨p.token :: rest, finish, groups⟩ =
      .error (.tooDeep p.token.position) ⟨rest, finish, groups⟩ := by
  have hopen : (openGroup p.token.position).run ⟨rest, finish, groups⟩ =
      .error (.tooDeep p.token.position) ⟨rest, finish, groups⟩ := by
    rw [openGroup, EStateM.run_bind, EStateM.run_get]
    simp [hgroups]
  rw [run_operandWithin_paren, EStateM.run_bind, hopen]

/-! ## Chains -/

/-- What can come next after an operand. -/
theorem operator_cases (tokens : List Token) :
    (∃ (s : Sign) (rest : List Token), tokens = s.token :: rest) ∨ NoOperator tokens := by
  cases tokens with
  | nil => exact .inr .nil
  | cons t rest =>
    cases hop : t.kind.operator? with
    | some op => exact .inl ⟨⟨t, op, hop⟩, rest, rfl⟩
    | none =>
      refine .inr ?_
      intro t' ht
      cases ht
      exact hop

theorem run_takeOperator_sign (s : Sign) :
    takeOperator.run ⟨s.token :: rest, finish, groups⟩ =
      .ok (some (s.op, s.token.position)) ⟨rest, finish, groups⟩ := by
  simp only [EStateM.run, takeOperator, s.spells]

theorem run_takeOperator_none (h : NoOperator tokens) :
    takeOperator.run ⟨tokens, finish, groups⟩ = .ok none ⟨tokens, finish, groups⟩ := by
  cases tokens with
  | nil => rfl
  | cons t rest => simp only [EStateM.run, takeOperator, h t rfl]

theorem run_chainWithin_sign (s : Sign) (left : Expr) :
    (chainWithin (bound + 1) left).run ⟨s.token :: rest, finish, groups⟩ =
      (operandWithin bound >>= fun right =>
        chainWithin bound (.arith s.op left right s.token.position)).run
          ⟨rest, finish, groups⟩ := by
  rw [chainWithin, EStateM.run_bind, run_takeOperator_sign]

theorem run_chainWithin_stop (h : NoOperator tokens) (left : Expr) :
    (chainWithin bound left).run ⟨tokens, finish, groups⟩ = .ok left ⟨tokens, finish, groups⟩ := by
  cases bound with
  | zero => rfl
  | succ bound =>
    rw [chainWithin, EStateM.run_bind, run_takeOperator_none h]
    rfl

/-- A group is read to its end if it holds a chain and the next token after
that is a closing parenthesis. -/
theorem groupRest_eq_ok {e : Expr} {c c' : Cursor} (h : (groupRest bound).run c = .ok e c') :
    ∃ (first : Expr) (c₁ : Cursor) (q : Mark .rightParen) (rest : List Token)
        (finish groups : Nat),
      (operandWithin bound).run c = .ok first c₁ ∧
      (chainWithin bound first).run c₁ = .ok e ⟨q.token :: rest, finish, groups⟩ ∧
      c' = ⟨rest, finish, groups - 1⟩ := by
  obtain ⟨first, c₁, hfirst, h⟩ := Reading.bind_eq_ok.mp h
  obtain ⟨inner, ⟨tokens, finish, groups⟩, hinner, h⟩ := Reading.bind_eq_ok.mp h
  obtain ⟨t, c₃, hclose, h⟩ := Reading.bind_eq_ok.mp h
  cases h
  rcases mark_cases .rightParen tokens with ⟨q, rest, rfl⟩ | hnot
  · rw [run_require_mark q] at hclose
    cases hclose
    exact ⟨first, c₁, q, rest, finish, groups, hfirst, hinner, rfl⟩
  · rw [run_require_other hnot] at hclose
    cases hclose

/-- A group is not read to its end if its chain is not, or if no closing
parenthesis comes after it. -/
theorem groupRest_eq_error {fault : ParseFault} {c c' : Cursor}
    (h : (groupRest bound).run c = .error fault c') :
    (operandWithin bound).run c = .error fault c' ∨
    ∃ (first : Expr) (c₁ : Cursor), (operandWithin bound).run c = .ok first c₁ ∧
      ((chainWithin bound first).run c₁ = .error fault c' ∨
       ∃ inner : Expr, (chainWithin bound first).run c₁ = .ok inner c' ∧
         NotNext .rightParen c'.tokens ∧ fault = .expected .rightParen c'.position) := by
  rcases Reading.bind_eq_error.mp h with h | ⟨first, c₁, hfirst, h⟩
  · exact .inl h
  refine .inr ⟨first, c₁, hfirst, ?_⟩
  rcases Reading.bind_eq_error.mp h with h | ⟨inner, ⟨tokens, finish, groups⟩, hinner, h⟩
  · exact .inl h
  refine .inr ?_
  rcases mark_cases .rightParen tokens with ⟨q, rest, rfl⟩ | hnot
  · rw [EStateM.run_bind, run_require_mark q] at h
    cases h
  · rw [EStateM.run_bind, run_require_other hnot] at h
    cases h
    exact ⟨inner, hinner, hnot, rfl⟩

/-! ## Formulas and statements -/

theorem run_formula : formula.run ⟨tokens, finish, groups⟩ =
    (operandWithin tokens.length >>= chainWithin tokens.length).run ⟨tokens, finish, groups⟩ :=
  rfl

/-- What can come next where a statement begins. -/
theorem assignment_cases (tokens : List Token) :
    (∃ (target : Atom) (sign : Mark .assign) (rest : List Token),
      tokens = target.token :: sign.token :: rest) ∨
    ∀ finish groups, startsAssignment ⟨tokens, finish, groups⟩ = false := by
  match tokens with
  | [] => exact .inr fun _ _ => rfl
  | [t] =>
    refine .inr fun _ _ => ?_
    exact Bool.and_false _
  | t :: u :: rest =>
    by_cases hatom : t.kind.isAtom = true
    · by_cases hassign : u.kind = .assign
      · exact .inl ⟨⟨t, hatom⟩, ⟨u, hassign⟩, rest, rfl⟩
      · refine .inr fun _ _ => ?_
        simp [startsAssignment, kindAt?, hassign]
    · refine .inr fun _ _ => ?_
      simp [startsAssignment, kindAt?, eq_false_of_ne_true hatom]

theorem run_statement_assignment (target : Atom) (sign : Mark .assign) :
    statement.run ⟨target.token :: sign.token :: rest, finish, groups⟩ =
      (formula >>= fun value => return .assign target.expr value sign.token.position).run
        ⟨rest, finish, groups⟩ := by
  have hstarts : startsAssignment ⟨target.token :: sign.token :: rest, finish, groups⟩ = true := by
    simp [startsAssignment, kindAt?, target.isAtom, sign.hasKind]
  rw [statement, EStateM.run_bind, EStateM.run_get]
  simp only [hstarts, if_true]
  rw [EStateM.run_bind, run_atom target]
  show EStateM.run (require .assign >>= _) _ = _
  rw [EStateM.run_bind, run_require_mark sign]

theorem run_statement_formula (h : startsAssignment ⟨tokens, finish, groups⟩ = false) :
    statement.run ⟨tokens, finish, groups⟩ = formula.run ⟨tokens, finish, groups⟩ := by
  rw [statement, EStateM.run_bind, EStateM.run_get]
  simp only [h, Bool.false_eq_true, if_false]

/-! ## Programs -/

theorem isEmpty_eq_false (h : tokens ≠ []) : Cursor.isEmpty ⟨tokens, finish, groups⟩ = false :=
  List.isEmpty_eq_false_iff.mpr h

theorem run_statementsWithin_nil :
    (statementsWithin bound).run ⟨[], finish, groups⟩ = .ok [] ⟨[], finish, groups⟩ := by
  cases bound <;> rfl

theorem run_statementsWithin_cons (h : tokens ≠ []) :
    (statementsWithin (bound + 1)).run ⟨tokens, finish, groups⟩ =
      (statement >>= fun first => statementsWithin bound >>= fun later =>
        return first :: later).run ⟨tokens, finish, groups⟩ := by
  rw [statementsWithin, EStateM.run_bind, EStateM.run_get]
  simp only [isEmpty_eq_false h, Bool.false_eq_true, if_false]

theorem ofTokens_nil : ofTokens [] finish = .error .emptyInput := rfl

theorem run_read (h : tokens ≠ []) : read.run ⟨tokens, finish, groups⟩ =
    (statementsWithin tokens.length).run ⟨tokens, finish, groups⟩ := by
  rw [read, EStateM.run_bind, EStateM.run_get]
  simp only [isEmpty_eq_false h, Bool.false_eq_true, if_false]

theorem ofTokens_eq_ok (h : tokens ≠ []) {program : Program} :
    ofTokens tokens finish = .ok program ↔
      ∃ c, (statementsWithin tokens.length).run ⟨tokens, finish, 0⟩ = .ok program c := by
  rw [ofTokens, run_read h]
  cases (statementsWithin tokens.length).run ⟨tokens, finish, 0⟩ with
  | ok p c => simp
  | error fault c => simp

theorem ofTokens_eq_error (h : tokens ≠ []) {fault : ParseFault} :
    ofTokens tokens finish = .error fault ↔
      ∃ c, (statementsWithin tokens.length).run ⟨tokens, finish, 0⟩ = .error fault c := by
  rw [ofTokens, run_read h]
  cases (statementsWithin tokens.length).run ⟨tokens, finish, 0⟩ with
  | ok p c => simp
  | error fault c => simp

end Program

end LineCalc
