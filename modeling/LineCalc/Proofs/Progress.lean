import LineCalc.Proofs.Grammar

/-!
# Progress through a program

A machine that takes the tokens of a program one at a time. It remembers how many
groups are open and whether an operand is due or has just ended, and nothing
else: that is all that decides which token may come next.

* `run_statements`: the machine takes every token of a derivation within the
  limit, and stands at the end of a program after the last one;
* `run_completion`: from every state there is a way to the end of a program;
* `Reached`: what the tokens taken so far say about the state.
-/

namespace LineCalc.Grammar

/-- How far a program has been spelled. -/
inductive Progress where
  /-- No token has been taken. -/
  | start
  /-- The statement is a single atom so far, and `=` may follow. -/
  | target
  /-- An operand has to come, inside so many groups. -/
  | due (groups : Nat)
  /-- An operand has ended, inside so many groups. -/
  | ended (groups : Nat)
  deriving DecidableEq

namespace Progress

/-- How many groups are open. -/
def groups : Progress → Nat
  | start | target => 0
  | due groups | ended groups => groups

/-- Whether a program may end here. -/
def isEnd : Progress → Bool
  | target | ended 0 => true
  | _ => false

/-- One more group is opened, if the limit allows it. -/
def opened (groups : Nat) : Option Progress :=
  if groups < groupLimit then some (due (groups + 1)) else none

/-- The first token of a statement is taken. -/
def begun (kind : Token.Kind) : Option Progress :=
  if kind.isAtom then some target
  else if kind = .leftParen then opened 0
  else none

/-- One token is taken. -/
def step : Progress → Token.Kind → Option Progress
  | start, kind => begun kind
  | target, kind =>
    if kind = .assign ∨ kind.operator?.isSome then some (due 0) else begun kind
  | due groups, kind =>
    if kind.isAtom then some (ended groups)
    else if kind = .leftParen then opened groups
    else none
  | ended 0, kind => if kind.operator?.isSome then some (due 0) else begun kind
  | ended (groups + 1), kind =>
    if kind.operator?.isSome then some (due (groups + 1))
    else if kind = .rightParen then some (ended groups)
    else none

/-- Tokens are taken one after the other. -/
def run : Progress → List Token → Option Progress
  | s, [] => some s
  | s, t :: rest => (s.step t.kind).bind fun s' => s'.run rest

@[simp] theorem run_nil (s : Progress) : s.run [] = some s := rfl

theorem run_cons (s : Progress) (t : Token) (rest : List Token) :
    s.run (t :: rest) = (s.step t.kind).bind fun s' => s'.run rest := rfl

theorem run_append (s : Progress) (before after : List Token) :
    s.run (before ++ after) = (s.run before).bind fun s' => s'.run after := by
  induction before generalizing s with
  | nil => rfl
  | cons t rest ih =>
    rw [List.cons_append, run_cons, run_cons]
    cases s.step t.kind with
    | none => rfl
    | some s' => exact ih s'

/-! ## Single steps -/

section
variable {s : Progress} {kind : Token.Kind} {groups : Nat}

theorem step_due_atom (h : kind.isAtom = true) :
    (due groups).step kind = some (ended groups) := by
  rw [step, if_pos h]

theorem step_due_leftParen : (due groups).step .leftParen = opened groups := rfl

theorem step_ended_operator {op : Operator} (h : kind.operator? = some op) :
    (ended groups).step kind = some (due groups) := by
  have hsome : kind.operator?.isSome = true := by rw [h]; rfl
  cases groups with
  | zero => rw [step, if_pos hsome]
  | succ groups => rw [step, if_pos hsome]

theorem step_ended_rightParen :
    (ended (groups + 1)).step .rightParen = some (ended groups) := rfl

theorem step_target_operator {op : Operator} (h : kind.operator? = some op) :
    target.step kind = some (due 0) := by
  rw [step, if_pos (.inr (by rw [h]; rfl))]

theorem begun_atom (h : kind.isAtom = true) : begun kind = some target := by
  rw [begun, if_pos h]

theorem opened_eq (h : groups < groupLimit) : opened groups = some (due (groups + 1)) :=
  if_pos h

end

/-! ## Derivations -/

mutual

/-- The tokens of an operand are taken where an operand is due. -/
theorem run_operand : ∀ (o : Operand) {groups : Nat}, groups + o.depth ≤ groupLimit →
    (due groups).run o.tokens = some (ended groups)
  | .atom a, groups, _ => by
    rw [Operand.tokens, run_cons, step_due_atom a.isAtom]
    rfl
  | .group p first links q, groups, h => by
    simp only [Operand.depth] at h
    rw [Operand.tokens, run_cons, p.hasKind, step_due_leftParen, opened_eq (by omega)]
    show (due (groups + 1)).run _ = _
    rw [run_append, run_operand first (by omega)]
    show (ended (groups + 1)).run _ = _
    rw [run_append, run_links links (by omega)]
    show (ended (groups + 1)).run _ = _
    rw [run_cons, q.hasKind, step_ended_rightParen]
    rfl

/-- The tokens of a chain of links are taken where an operand has ended. -/
theorem run_links : ∀ (l : Links) {groups : Nat}, groups + l.depth ≤ groupLimit →
    (ended groups).run l.tokens = some (ended groups)
  | .nil, groups, _ => rfl
  | .cons s right later, groups, h => by
    simp only [Links.depth] at h
    rw [Links.tokens, run_cons, step_ended_operator s.spells]
    show (due groups).run _ = _
    rw [run_append, run_operand right (by omega)]
    exact run_links later (by omega)

end

theorem run_formula (f : Formula) {groups : Nat} (h : groups + f.depth ≤ groupLimit) :
    (due groups).run f.tokens = some (ended groups) := by
  simp only [Formula.depth] at h
  rw [Formula.tokens, run_append, run_operand f.first (by omega)]
  exact run_links f.links (by omega)

/-- Whether a statement may begin here. -/
def mayBegin : Progress → Bool
  | start | target | ended 0 => true
  | _ => false

theorem mayBegin_of_isEnd {s : Progress} (h : s.isEnd = true) : s.mayBegin = true := by
  match s, h with
  | target, _ => rfl
  | ended 0, _ => rfl

theorem groups_of_mayBegin {s : Progress} (h : s.mayBegin = true) : s.groups = 0 := by
  match s, h with
  | start, _ | target, _ | ended 0, _ => rfl

/-- Where a statement may begin, a token that begins one is taken so. -/
theorem step_boundary {s : Progress} (hs : s.mayBegin = true) {kind : Token.Kind}
    (hkind : kind.isAtom = true ∨ kind = .leftParen) : s.step kind = begun kind := by
  have hop : ¬ kind.operator?.isSome = true := by
    rcases hkind with hatom | rfl
    · rw [operator?_of_isAtom hatom]
      exact Bool.false_ne_true
    · exact Bool.false_ne_true
  have hassign : kind ≠ .assign := by
    rintro rfl
    rcases hkind with hatom | hparen
    · cases hatom
    · cases hparen
  match s, hs with
  | start, _ => rfl
  | target, _ => rw [step, if_neg (not_or.mpr ⟨hassign, hop⟩)]
  | ended 0, _ => rw [step, if_neg hop]

/-- Where a statement leaves the machine: only after a single atom may `=`
follow. -/
def after : Statement → Progress
  | .formula ⟨.atom _, .nil⟩ => target
  | _ => ended 0

theorem isEnd_after (s : Statement) : (after s).isEnd = true := by
  unfold after
  split <;> rfl

/-- The tokens of a statement are taken where a statement may begin. -/
theorem run_statement {s : Progress} (hs : s.mayBegin = true) (stmt : Statement)
    (h : stmt.depth ≤ groupLimit) : s.run stmt.tokens = some (after stmt) := by
  match stmt with
  | .assignment t sign value =>
    have hvalue : (due 0).run value.tokens = some (ended 0) :=
      run_formula value (by rw [Nat.zero_add]; exact h)
    rw [Statement.tokens, run_cons, step_boundary hs (.inl t.isAtom), begun_atom t.isAtom]
    show target.run _ = _
    rw [run_cons, sign.hasKind]
    exact hvalue
  | .formula ⟨.group p first links q, more⟩ =>
    -- the parenthesis is taken as one where an operand is due
    have hsame : s.step .leftParen = (due 0).step .leftParen :=
      step_boundary hs (.inr rfl)
    have hformula : (due 0).run (Formula.tokens ⟨.group p first links q, more⟩) =
        some (ended 0) := run_formula _ (by rw [Nat.zero_add]; exact h)
    simp only [Formula.tokens, Operand.tokens, List.cons_append, run_cons, p.hasKind] at hformula
    simp only [Statement.tokens, Formula.tokens, Operand.tokens, List.cons_append, run_cons,
      p.hasKind, hsame]
    exact hformula
  | .formula ⟨.atom a, .nil⟩ =>
    show s.run [a.token] = _
    rw [run_cons, step_boundary hs (.inl a.isAtom), begun_atom a.isAtom]
    rfl
  | .formula ⟨.atom a, .cons sign right later⟩ =>
    -- an operator follows, so the atom was no target after all
    simp only [Statement.depth, Formula.depth, Operand.depth, Links.depth] at h
    show s.run (a.token :: sign.token :: (right.tokens ++ later.tokens)) = _
    rw [run_cons, step_boundary hs (.inl a.isAtom), begun_atom a.isAtom]
    show target.run _ = _
    rw [run_cons, step_target_operator sign.spells]
    show (due 0).run _ = _
    rw [run_append, run_operand right (by omega)]
    exact run_links later (by omega)

theorem run_statements {s : Progress} (hs : s.mayBegin = true) (ss : List Statement)
    (h : ∀ stmt ∈ ss, stmt.depth ≤ groupLimit) :
    ∃ s', s.run (ss.flatMap Statement.tokens) = some s' ∧ (ss ≠ [] → s'.isEnd = true) := by
  induction ss generalizing s with
  | nil => exact ⟨s, rfl, fun hne => absurd rfl hne⟩
  | cons stmt later ih =>
    have hstmt := run_statement hs stmt (h stmt (by simp))
    obtain ⟨s', hlater, hend⟩ := ih (mayBegin_of_isEnd (isEnd_after stmt))
      (fun x hx => h x (by simp [hx]))
    refine ⟨s', ?_, ?_⟩
    · rw [List.flatMap_cons, run_append, hstmt]
      exact hlater
    · intro _
      by_cases hne : later = []
      · subst hne
        cases hlater
        exact isEnd_after stmt
      · exact hend hne

/-- The machine takes every token of a derivation that is not too deep. -/
theorem run_derivation (d : Derivation) (h : ∀ s ∈ d.statements, s.depth ≤ groupLimit) :
    ∃ s, start.run d.tokens = some s ∧ s.isEnd = true := by
  obtain ⟨s, hrun, hend⟩ := run_statements (s := start) rfl d.statements h
  exact ⟨s, hrun, hend d.nonempty⟩

/-! ## Completions -/

/-- Tokens that lead to the end of a program: the operand that is due, and the
parentheses that are open. -/
def completion : Progress → List Token
  | start => [⟨.number, "0", 0⟩]
  | target => []
  | due groups => ⟨.number, "0", 0⟩ :: List.replicate groups ⟨.rightParen, ")", 0⟩
  | ended groups => List.replicate groups ⟨.rightParen, ")", 0⟩

theorem run_closing (groups : Nat) :
    (ended groups).run (List.replicate groups ⟨.rightParen, ")", 0⟩) = some (ended 0) := by
  induction groups with
  | zero => rfl
  | succ groups ih =>
    rw [List.replicate_succ, run_cons]
    exact ih

/-- From every state there is a way to the end of a program. -/
theorem run_completion (s : Progress) : ∃ s', s.run s.completion = some s' ∧ s'.isEnd = true := by
  cases s with
  | start => exact ⟨target, rfl, rfl⟩
  | target => exact ⟨target, rfl, rfl⟩
  | due groups => exact ⟨ended 0, run_closing groups, rfl⟩
  | ended groups => exact ⟨ended 0, run_closing groups, rfl⟩

/-! ## What the tokens say about the state -/

end Progress

/-- The last token ends an operand. -/
def EndsOperand (tokens : List Token) : Prop :=
  ∃ t ∈ tokens.getLast?, t.kind.isAtom = true ∨ t.kind = .rightParen

namespace Progress

/-- Whether an operand has just ended. -/
def operandEnded : Progress → Bool
  | target | ended _ => true
  | start | due _ => false

/-- The state tells how many groups the tokens taken so far have left open, and
whether they end with an operand. -/
structure Reached (before : List Token) (s : Progress) : Prop where
  openGroups_eq : openGroups before = s.groups
  limited : s.groups ≤ groupLimit
  endsOperand : EndsOperand before ↔ s.operandEnded = true

theorem groupStep_of_isAtom {kind : Token.Kind} (h : kind.isAtom = true) :
    groupStep kind = 0 := by
  cases kind <;> first | rfl | cases h

theorem kind_of_infix {kind : Token.Kind} (h : kind = .assign ∨ kind.operator?.isSome = true) :
    kind.isAtom = false ∧ kind ≠ .rightParen ∧ groupStep kind = 0 := by
  cases kind <;> simp_all [Token.Kind.isAtom, Token.Kind.operator?, groupStep]

theorem begun_cases {kind : Token.Kind} {s : Progress} (h : begun kind = some s) :
    (kind.isAtom = true ∧ s = target) ∨ (kind = .leftParen ∧ s = due 1) := by
  unfold begun at h
  split at h
  · rename_i hatom
    cases h
    exact .inl ⟨hatom, rfl⟩
  · split at h
    · rename_i hparen
      cases h
      exact .inr ⟨hparen, rfl⟩
    · cases h

/-- What a step can do: an atom ends an operand, a parenthesis opens or closes a
group, and after `=` or an operator an operand is due. -/
theorem step_cases {s s' : Progress} {kind : Token.Kind} (h : s.step kind = some s') :
    (kind.isAtom = true ∧ s'.operandEnded = true ∧ s'.groups = s.groups) ∨
    (kind = .leftParen ∧ s.groups < groupLimit ∧ s' = due (s.groups + 1)) ∨
    (kind = .rightParen ∧ s = ended (s'.groups + 1) ∧ s'.operandEnded = true) ∨
    ((kind = .assign ∨ kind.operator?.isSome = true) ∧ s' = due s.groups) := by
  -- where a statement may begin, no group is open
  have hbegun (hs : s.groups = 0) (h : begun kind = some s') :
      (kind.isAtom = true ∧ s'.operandEnded = true ∧ s'.groups = s.groups) ∨
      (kind = .leftParen ∧ s.groups < groupLimit ∧ s' = due (s.groups + 1)) := by
    rw [hs]
    rcases begun_cases h with ⟨hatom, rfl⟩ | ⟨hparen, rfl⟩
    · exact .inl ⟨hatom, rfl, rfl⟩
    · exact .inr ⟨hparen, by decide, rfl⟩
  match s with
  | start => exact (hbegun rfl h).elim .inl (.inr ∘ .inl)
  | target =>
    rw [step] at h
    split at h
    · rename_i hnext
      cases h
      exact .inr (.inr (.inr ⟨hnext, rfl⟩))
    · exact (hbegun rfl h).elim .inl (.inr ∘ .inl)
  | ended 0 =>
    rw [step] at h
    split at h
    · rename_i hop
      cases h
      exact .inr (.inr (.inr ⟨.inr hop, rfl⟩))
    · exact (hbegun rfl h).elim .inl (.inr ∘ .inl)
  | due groups =>
    rw [step] at h
    split at h
    · rename_i hatom
      cases h
      exact .inl ⟨hatom, rfl, rfl⟩
    · split at h
      · rename_i hparen
        unfold opened at h
        split at h
        · rename_i hlimit
          cases h
          exact .inr (.inl ⟨hparen, hlimit, rfl⟩)
        · cases h
      · cases h
  | ended (groups + 1) =>
    rw [step] at h
    split at h
    · rename_i hop
      cases h
      exact .inr (.inr (.inr ⟨.inr hop, rfl⟩))
    · split at h
      · rename_i hparen
        cases h
        exact .inr (.inr (.inl ⟨hparen, rfl, rfl⟩))
      · cases h

theorem Reached.nil : Reached [] start where
  openGroups_eq := rfl
  limited := Nat.zero_le _
  endsOperand := by simp [EndsOperand, operandEnded]

theorem endsOperand_append_singleton (before : List Token) (t : Token) :
    EndsOperand (before ++ [t]) ↔ t.kind.isAtom = true ∨ t.kind = .rightParen := by
  simp [EndsOperand]

theorem Reached.step {before : List Token} {s s' : Progress} (h : Reached before s) {t : Token}
    (hstep : s.step t.kind = some s') : Reached (before ++ [t]) s' := by
  have hlimited := h.limited
  rcases step_cases hstep with ⟨hatom, hended, hgroups⟩ | ⟨hparen, hlimit, rfl⟩ |
    ⟨hparen, rfl, hended⟩ | ⟨hnext, rfl⟩
  · refine ⟨?_, by rw [hgroups]; exact hlimited, ?_⟩
    · rw [openGroups_append, h.openGroups_eq, hgroups]
      simp [groupStep_of_isAtom hatom]
    · simp [endsOperand_append_singleton, hatom, hended]
  · refine ⟨?_, hlimit, ?_⟩
    · rw [openGroups_append, h.openGroups_eq]
      simp [hparen, groups]
    · simp [endsOperand_append_singleton, hparen, operandEnded, Token.Kind.isAtom]
  · refine ⟨?_, Nat.le_of_succ_le hlimited, ?_⟩
    · have hgroups : (ended (s'.groups + 1)).groups = s'.groups + 1 := rfl
      have hclosed : openGroups [t] = -1 := by simp [hparen]
      rw [openGroups_append, h.openGroups_eq, hgroups, hclosed]
      omega
    · simp [endsOperand_append_singleton, hparen, hended]
  · obtain ⟨hatom, hright, hstay⟩ := kind_of_infix hnext
    refine ⟨?_, hlimited, ?_⟩
    · rw [openGroups_append, h.openGroups_eq]
      simp [hstay, groups]
    · simp [endsOperand_append_singleton, hatom, hright, operandEnded]

theorem Reached.run {before more : List Token} {s s' : Progress} (h : Reached before s)
    (hrun : s.run more = some s') : Reached (before ++ more) s' := by
  induction more generalizing before s with
  | nil =>
    cases hrun
    rw [List.append_nil]
    exact h
  | cons t rest ih =>
    rw [run_cons] at hrun
    obtain ⟨s₁, hstep, hrest⟩ := Option.bind_eq_some_iff.mp hrun
    have hreached := ih (h.step hstep) hrest
    rw [List.append_assoc] at hreached
    exact hreached

theorem run_initial {s s' : Progress} {before tokens : List Token} (hinitial : before <+: tokens)
    (hrun : s.run tokens = some s') : ∃ s₁, s.run before = some s₁ := by
  obtain ⟨after, rfl⟩ := hinitial
  rw [run_append] at hrun
  obtain ⟨s₁, hbefore, -⟩ := Option.bind_eq_some_iff.mp hrun
  exact ⟨s₁, hbefore⟩

end Progress

/-- The limit on open groups is one on the depth of each statement. -/
theorem Derivation.withinLimit_iff (d : Derivation) :
    d.WithinLimit ↔ ∀ s ∈ d.statements, s.depth ≤ groupLimit := by
  constructor
  · intro h s hs
    obtain ⟨before, hinitial, hopen⟩ := d.peak hs
    have hle := h before hinitial
    rw [hopen] at hle
    exact Int.ofNat_le.mp hle
  · intro h before hinitial
    obtain ⟨s, hrun, -⟩ := Progress.run_derivation d h
    obtain ⟨s₁, hbefore⟩ := Progress.run_initial hinitial hrun
    have hreached := Progress.Reached.nil.run hbefore
    rw [List.nil_append] at hreached
    rw [hreached.openGroups_eq]
    exact Int.ofNat_le.mpr hreached.limited

end LineCalc.Grammar
