import Mathlib
import LineCalc.Proofs.Acceptance
import LineCalc.Proofs.Progress
import LineCalc.Proofs.Scanning

/-!
# Viable prefixes

A list of tokens that is no program is refused at the first token that no program
has there. The tokens before it begin some program; with it they begin none.

The reader is followed by the machine of `Progress`: where a reading succeeds,
the machine takes the tokens that were read, and where it fails, the machine has
taken all tokens up to a place and cannot take the next one (`Stuck`). The state
of the machine at that place is the kind of the fault.
-/

namespace LineCalc.Program

open Cursor Grammar Progress

variable {tokens rest before : List Token} {finish groups bound : Nat} {e left : Expr}
  {s s' : Progress} {fault : ParseFault} {c : Cursor}

/-! ## Where a reading stops -/

/-- The tokens that are left cannot be taken, or none is left and the program is
not at an end. -/
def Blocked (s : Progress) : List Token → Prop
  | [] => s.isEnd = false
  | t :: _ => s.step t.kind = none

/-- The fault of a reading that is blocked: inside a group a closing parenthesis
is expected after an operand, and an operand in all other places. -/
def blockedFault (s : Progress) (finish : Nat) (rest : List Token) : ParseFault :=
  match s with
  | .ended (_ + 1) => .expected .rightParen (position ⟨rest, finish, s.groups⟩)
  | _ =>
    if (rest.head?.map Token.kind) = some .leftParen then
      .tooDeep (position ⟨rest, finish, s.groups⟩)
    else .expectedAtom (position ⟨rest, finish, s.groups⟩)

/-- Where a reading that is blocked leaves the cursor. Only the parenthesis of a
group that may not be opened is consumed. -/
def blockedCursor (s : Progress) (finish : Nat) (rest : List Token) : Cursor :=
  match blockedFault s finish rest with
  | .tooDeep _ => ⟨rest.tail, finish, s.groups⟩
  | _ => ⟨rest, finish, s.groups⟩

/-- Where no operand has just ended inside a group, only a parenthesis past the
limit is told apart. -/
theorem blockedFault_eq (hs : ¬ ∃ groups, s = .ended (groups + 1)) :
    blockedFault s finish rest =
      if rest.head?.map Token.kind = some .leftParen then
        .tooDeep (position ⟨rest, finish, s.groups⟩)
      else .expectedAtom (position ⟨rest, finish, s.groups⟩) := by
  match s with
  | .start | .target | .due _ | .ended 0 => rfl
  | .ended (groups + 1) => exact absurd ⟨groups, rfl⟩ hs

/-- A reading that begins in the state `s` has failed: some of the tokens were
taken, and then it was blocked. -/
inductive Stuck (finish : Nat) (s : Progress) : List Token → ParseFault → Cursor → Prop
  | intro {before rest : List Token} {s' : Progress} (hrun : s.run before = some s')
      (hblocked : Blocked s' rest) :
      Stuck finish s (before ++ rest) (blockedFault s' finish rest)
        (blockedCursor s' finish rest)

theorem Stuck.here (h : Blocked s rest) (hfault : blockedFault s finish rest = fault)
    (hcursor : blockedCursor s finish rest = c) : Stuck finish s rest fault c := by
  subst hfault hcursor
  exact .intro (run_nil s) h

/-- Tokens that are taken may come first. -/
theorem Stuck.after (hrun : s.run before = some s') (h : Stuck finish s' rest fault c) :
    Stuck finish s (before ++ rest) fault c := by
  obtain ⟨hrun', hblocked⟩ := h
  rw [← List.append_assoc]
  refine .intro ?_ hblocked
  rw [run_append, hrun]
  exact hrun'

theorem Stuck.after_step {t : Token} (hstep : s.step t.kind = some s')
    (h : Stuck finish s' rest fault c) : Stuck finish s (t :: rest) fault c := by
  have hrun : s.run [t] = some s' := by
    rw [run_cons, hstep]
    rfl
  exact h.after hrun

/-- An operand has to come: as such, or because a statement begins with one. -/
inductive Awaits : Progress → Nat → List Token → Prop
  | operand (groups : Nat) (tokens : List Token) : Awaits (.due groups) groups tokens
  | statement {s : Progress} {t : Token} {rest : List Token} (hs : s.mayBegin = true)
      (hstep : s.step t.kind = begun t.kind) : Awaits s 0 (t :: rest)

theorem Awaits.step_leftParen {p : Mark .leftParen} (h : Awaits s groups (p.token :: rest)) :
    s.step p.token.kind = opened groups := by
  cases h with
  | operand => rw [p.hasKind]; rfl
  | statement hs hstep => rw [hstep, p.hasKind]; rfl

theorem Awaits.groups_eq (h : Awaits s groups tokens) : s.groups = groups := by
  cases h with
  | operand => rfl
  | statement hs _ => exact groups_of_mayBegin hs

theorem Awaits.not_ended (h : Awaits s groups tokens) : ¬ ∃ groups, s = .ended (groups + 1) := by
  intro hended
  obtain ⟨inner, rfl⟩ := hended
  cases h with
  | statement hs _ => cases hs

theorem Awaits.stuck_none (h : Awaits s groups tokens) (hnone : NoOperand tokens) :
    Stuck finish s tokens (.expectedAtom (position ⟨tokens, finish, groups⟩))
      ⟨tokens, finish, groups⟩ := by
  have hblocked : Blocked s tokens := by
    cases h with
    | operand =>
      cases tokens with
      | nil => rfl
      | cons t rest => simp [Blocked, step, hnone t rfl]
    | @statement _ t _ _ hstep => simp [Blocked, hstep, begun, hnone t rfl]
  have hparen : ¬ tokens.head?.map Token.kind = some .leftParen := by
    intro hkind
    obtain ⟨t, ht, hkind⟩ := Option.map_eq_some_iff.mp hkind
    exact (hnone t ht).2 hkind
  have hfault : blockedFault s finish tokens =
      .expectedAtom (position ⟨tokens, finish, groups⟩) := by
    rw [blockedFault_eq h.not_ended, if_neg hparen, h.groups_eq]
  refine .here hblocked hfault ?_
  rw [blockedCursor, hfault, h.groups_eq]

theorem Awaits.stuck_tooDeep {p : Mark .leftParen} (h : Awaits s groups (p.token :: rest))
    (hlimit : ¬ groups < groupLimit) :
    Stuck finish s (p.token :: rest) (.tooDeep p.token.position) ⟨rest, finish, groups⟩ := by
  have hblocked : Blocked s (p.token :: rest) := by
    show s.step p.token.kind = none
    rw [h.step_leftParen]
    exact if_neg hlimit
  have hparen : (p.token :: rest).head?.map Token.kind = some .leftParen := by
    simp [p.hasKind]
  have hfault : blockedFault s finish (p.token :: rest) = .tooDeep p.token.position := by
    rw [blockedFault_eq h.not_ended, if_pos hparen]
    rfl
  refine .here hblocked hfault ?_
  rw [blockedCursor, hfault, h.groups_eq, List.tail_cons]

/-- An operand and an operator after it are taken. -/
theorem Awaits.run_operand_sign {o : Operand} {sign : Sign}
    (h : Awaits s groups (o.tokens ++ sign.token :: rest)) (hdepth : groups + o.depth ≤ groupLimit) :
    s.run (o.tokens ++ [sign.token]) = some (.due groups) := by
  generalize htokens : o.tokens ++ sign.token :: rest = tokens at h
  cases h with
  | operand =>
    rw [run_append, run_operand o hdepth]
    show (ended groups).run [sign.token] = _
    rw [run_cons, step_ended_operator sign.spells]
    rfl
  | statement hs _ =>
    rw [Nat.zero_add] at hdepth
    have hrun := run_statement hs (.formula ⟨o, .nil⟩)
      (by simpa [Statement.depth, Formula.depth, Links.depth] using hdepth)
    rw [Statement.tokens, Formula.tokens, Links.tokens, List.append_nil] at hrun
    rw [run_append, hrun]
    cases o with
    | atom a =>
      show target.run [sign.token] = _
      rw [run_cons, step_target_operator sign.spells]
      rfl
    | group p first links q =>
      show (ended 0).run [sign.token] = _
      rw [run_cons, step_ended_operator sign.spells]
      rfl

/-- After an operand inside a group, neither an operator nor the closing
parenthesis comes. -/
theorem stuck_unclosed (hop : NoOperator rest) (hclose : NotNext .rightParen rest) :
    Stuck finish (.ended (groups + 1)) rest
      (.expected .rightParen (position ⟨rest, finish, groups + 1⟩))
      ⟨rest, finish, groups + 1⟩ := by
  have hblocked : Blocked (.ended (groups + 1)) rest := by
    cases rest with
    | nil => rfl
    | cons t later => simp [Blocked, step, hop t rfl, hclose t rfl]
  exact .here hblocked rfl rfl

/-- A reading of an operand that fails is stuck where the operand was due, and
one of a chain is stuck after one of its operators. -/
theorem within_stuck (bound : Nat) :
    (∀ {tokens : List Token} {groups : Nat} {s : Progress} {fault : ParseFault} {c : Cursor},
      tokens.length ≤ bound → groups ≤ groupLimit → Awaits s groups tokens →
      (operandWithin bound).run ⟨tokens, finish, groups⟩ = .error fault c →
      Stuck finish s tokens fault c) ∧
    (∀ {tokens : List Token} {groups : Nat} {left : Expr} {fault : ParseFault} {c : Cursor},
      tokens.length ≤ bound → groups ≤ groupLimit →
      (chainWithin bound left).run ⟨tokens, finish, groups⟩ = .error fault c →
      ∃ (sign : Sign) (rest : List Token), tokens = sign.token :: rest ∧
        Stuck finish (.due groups) rest fault c) := by
  induction bound with
  | zero =>
    constructor
    · intro tokens groups s fault c hbound _ hawaits h
      obtain rfl : tokens = [] := List.length_eq_zero_iff.mp (Nat.le_zero.mp hbound)
      have hnone : NoOperand [] := fun t ht => by cases ht
      rw [run_operandWithin_none hnone] at h
      cases h
      exact hawaits.stuck_none hnone
    · intro tokens groups left fault c _ _ h
      cases h
  | succ bound ih =>
    obtain ⟨ihOperand, ihChain⟩ := ih
    constructor
    · intro tokens groups s fault c hbound hgroups hawaits h
      rcases operand_cases tokens with ⟨a, rest, rfl⟩ | ⟨p, rest, rfl⟩ | hnone
      · rw [run_operandWithin_atom a] at h
        cases h
      · simp only [List.length_cons] at hbound
        by_cases hlimit : groups < groupLimit
        · rw [run_operandWithin_group p hlimit] at h
          refine Stuck.after_step (hawaits.step_leftParen.trans (opened_eq hlimit)) ?_
          -- the first operand is stuck, or a later one, or the group is not closed
          rcases groupRest_eq_error h with h | ⟨first, c₁, hfirst, h⟩
          · exact ihOperand (by omega) hlimit (.operand _ _) h
          obtain ⟨o, rest₁, rfl, rfl, rfl, ho⟩ :=
            (within_sound bound).1 (by omega) hlimit hfirst
          simp only [List.length_append] at hbound
          refine Stuck.after (run_operand o ho) ?_
          rcases h with h | ⟨inner, hinner, hclose, rfl⟩
          · obtain ⟨sign, rest₂, rfl, hstuck⟩ := ihChain (by omega) hlimit h
            exact hstuck.after_step (step_ended_operator sign.spells)
          · obtain ⟨l, rest₂, rfl, hop, rfl, rfl, hl⟩ :=
              (within_sound bound).2 (by omega) hlimit hinner
            exact (stuck_unclosed hop hclose).after (run_links l hl)
        · rw [run_operandWithin_tooDeep p hlimit] at h
          cases h
          exact hawaits.stuck_tooDeep hlimit
      · rw [run_operandWithin_none hnone] at h
        cases h
        exact hawaits.stuck_none hnone
    · intro tokens groups left fault c hbound hgroups h
      rcases operator_cases tokens with ⟨sign, rest, rfl⟩ | hstop
      · simp only [List.length_cons] at hbound
        refine ⟨sign, rest, rfl, ?_⟩
        rw [run_chainWithin_sign sign] at h
        rcases Reading.bind_eq_error.mp h with h | ⟨right, c₁, hright, h⟩
        · exact ihOperand (by omega) hgroups (.operand _ _) h
        · obtain ⟨o, rest₁, rfl, rfl, rfl, ho⟩ :=
            (within_sound bound).1 (by omega) hgroups hright
          simp only [List.length_append] at hbound
          obtain ⟨sign', rest₂, rfl, hstuck⟩ := ihChain (by omega) hgroups h
          exact (hstuck.after_step (step_ended_operator sign'.spells)).after (run_operand o ho)
      · rw [run_chainWithin_stop hstop] at h
        cases h

theorem formula_stuck (hgroups : groups ≤ groupLimit) (hawaits : Awaits s groups tokens)
    (h : formula.run ⟨tokens, finish, groups⟩ = .error fault c) :
    Stuck finish s tokens fault c := by
  rw [run_formula] at h
  rcases Reading.bind_eq_error.mp h with h | ⟨first, c₁, hfirst, h⟩
  · exact (within_stuck _).1 (Nat.le_refl _) hgroups hawaits h
  · obtain ⟨o, rest₁, rfl, rfl, rfl, ho⟩ := (within_sound _).1 (Nat.le_refl _) hgroups hfirst
    obtain ⟨sign, rest₂, rfl, hstuck⟩ := (within_stuck _).2 (by simp) hgroups h
    have hrun := hawaits.run_operand_sign ho
    rw [List.append_cons]
    exact hstuck.after hrun

theorem statement_stuck {t : Token} (hs : s.mayBegin = true)
    (hstep : s.step t.kind = begun t.kind)
    (h : statement.run ⟨t :: rest, finish, 0⟩ = .error fault c) :
    Stuck finish s (t :: rest) fault c := by
  rcases assignment_cases (t :: rest) with ⟨target, sign, later, heq⟩ | hnot
  · cases heq
    rw [run_statement_assignment] at h
    rcases Reading.bind_eq_error.mp h with h | ⟨value, c₁, hvalue, h⟩
    · have hstuck := formula_stuck (Nat.zero_le _) (.operand 0 later) h
      have hassign : Progress.target.step sign.token.kind = some (.due 0) := by
        rw [sign.hasKind]
        rfl
      exact (hstuck.after_step hassign).after_step (hstep.trans (begun_atom target.isAtom))
    · cases h
  · rw [run_statement_formula (hnot finish 0)] at h
    exact formula_stuck (Nat.zero_le _) (.statement hs hstep) h

theorem step_after {stmt : Statement} {t : Token} (h : Complete stmt (t :: rest)) :
    (after stmt).step t.kind = begun t.kind := by
  have hop : t.kind.operator?.isSome = false := by rw [h.1 t rfl]; rfl
  unfold after
  split
  · rename_i a
    have hassign : t.kind ≠ .assign := h.2 a rfl t rfl
    simp [step, hop, hassign]
  · simp [step, hop]

theorem statementsWithin_stuck (hbound : tokens.length ≤ bound) (hs : s.mayBegin = true)
    (hstep : ∀ t ∈ tokens.head?, s.step t.kind = begun t.kind)
    (h : (statementsWithin bound).run ⟨tokens, finish, 0⟩ = .error fault c) :
    Stuck finish s tokens fault c := by
  induction bound generalizing tokens s with
  | zero => cases h
  | succ bound ih =>
    cases tokens with
    | nil =>
      rw [run_statementsWithin_nil] at h
      cases h
    | cons t rest =>
      rw [run_statementsWithin_cons (List.cons_ne_nil t rest)] at h
      rcases Reading.bind_eq_error.mp h with h | ⟨first, c₁, hfirst, h⟩
      · exact statement_stuck hs (hstep t rfl) h
      -- the first statement is complete, so the next token begins another one
      obtain ⟨stmt, rest₁, htokens, hcomplete, rfl, rfl, hdepth⟩ :=
        statement_sound (Nat.zero_le _) hfirst
      rcases Reading.bind_eq_error.mp h with h | ⟨later, c₂, -, h⟩
      · have hshorter : rest₁.length ≤ bound := by
          have := List.length_pos_iff.mpr stmt.tokens_ne_nil
          rw [htokens, List.length_append] at hbound
          omega
        rw [htokens]
        rw [Nat.zero_add] at hdepth
        refine Stuck.after (run_statement hs stmt hdepth) ?_
        refine ih hshorter (mayBegin_of_isEnd (isEnd_after stmt)) ?_ h
        intro t' ht'
        obtain ⟨rest₂, rfl⟩ := List.head?_eq_some_iff.mp ht'
        exact step_after hcomplete
      · cases h

/-- A list of tokens that is refused is stuck at some place. -/
theorem ofTokens_stuck (hne : tokens ≠ []) (h : ofTokens tokens finish = .error fault) :
    ∃ c, Stuck finish .start tokens fault c := by
  obtain ⟨c, h⟩ := (ofTokens_eq_error hne).mp h
  exact ⟨c, statementsWithin_stuck (Nat.le_refl _) rfl (fun _ _ => rfl) h⟩

/-! ## Prefixes of programs -/

/-- The tokens are those of a program within the limit. -/
def Derivable (tokens : List Token) : Prop :=
  ∃ d : Derivation, d.WithinLimit ∧ d.tokens = tokens

/-- The tokens are the first ones of some program within the limit. -/
def Viable (tokens : List Token) : Prop := ∃ later, Derivable (tokens ++ later)

theorem run_of_derivable (h : Derivable tokens) :
    ∃ s, Progress.start.run tokens = some s ∧ s.isEnd = true := by
  obtain ⟨d, hlimit, rfl⟩ := h
  exact run_derivation d (d.withinLimit_iff.mp hlimit)

/-- Where the machine stands at the end of a program, it has taken one: the
reader is not stuck, so it has found a derivation. -/
theorem derivable_of_run (hrun : Progress.start.run tokens = some s) (hend : s.isEnd = true) :
    Derivable tokens := by
  have hne : tokens ≠ [] := by
    rintro rfl
    cases hrun
    cases hend
  cases h : ofTokens tokens 0 with
  | ok program =>
    obtain ⟨d, hlimit, htokens, -⟩ := exists_derivation h
    exact ⟨d, hlimit, htokens⟩
  | error fault =>
    obtain ⟨c, hstuck⟩ := ofTokens_stuck hne h
    cases hstuck with
    | @intro before rest s' hbefore hblocked =>
      rw [run_append, hbefore] at hrun
      cases rest with
      | nil =>
        cases hrun
        have hnot : s.isEnd = false := hblocked
        rw [hend] at hnot
        cases hnot
      | cons t later =>
        have hstep : s'.step t.kind = none := hblocked
        simp only [Option.bind_some, run_cons, hstep, Option.bind_none] at hrun
        cases hrun

/-- Whatever the machine takes begins a program. -/
theorem viable_of_run (hrun : Progress.start.run tokens = some s) : Viable tokens := by
  obtain ⟨s', hcompletion, hend⟩ := run_completion s
  refine ⟨s.completion, derivable_of_run ?_ hend⟩
  rw [run_append, hrun]
  exact hcompletion

/-- What the machine does not take begins no program. -/
theorem not_viable_of_run (hrun : Progress.start.run tokens = none) : ¬ Viable tokens := by
  rintro ⟨later, h⟩
  obtain ⟨s, hrun', -⟩ := run_of_derivable h
  rw [run_append, hrun] at hrun'
  cases hrun'

theorem not_viable_of_blocked {t : Token} {later : List Token}
    (hrun : Progress.start.run before = some s) (hblocked : Blocked s (t :: later)) :
    ¬ Viable (before ++ [t]) := by
  refine not_viable_of_run ?_
  have hstep : s.step t.kind = none := hblocked
  rw [run_append, hrun]
  simp [run_cons, hstep]

theorem not_derivable_of_blocked (hrun : Progress.start.run tokens = some s)
    (hblocked : Blocked s []) : ¬ Derivable tokens := by
  intro h
  obtain ⟨s', hrun', hend⟩ := run_of_derivable h
  cases hrun.symm.trans hrun'
  have hnot : s.isEnd = false := hblocked
  rw [hend] at hnot
  cases hnot

/-! ## The place and the kind of a fault -/

/-- The tokens end with an operand, inside at least one open group. -/
def InsideGroup (tokens : List Token) : Prop :=
  EndsOperand tokens ∧ 0 < openGroups tokens

/-- The kind of the token with an index, if there is such a token. -/
def kindAt (tokens : List Token) (i : Nat) : Option Token.Kind := tokens[i]?.map Token.kind

/-- The place of the token with an index, or the end of the source. -/
def positionAt (tokens : List Token) (finish i : Nat) : Nat :=
  (tokens[i]?.map Token.position).getD finish

/-- The fault points at the first token that no program has there, and the tokens
before it decide its kind. -/
structure PointsAt (tokens : List Token) (finish : Nat) (fault : ParseFault) (i : Nat) :
    Prop where
  le_length : i ≤ tokens.length
  position_eq : fault.position? = some (positionAt tokens finish i)
  viable : Viable (tokens.take i)
  not_viable : i < tokens.length → ¬ Viable (tokens.take (i + 1))
  not_derivable : i = tokens.length → ¬ Derivable tokens
  expected_iff : (∃ p, fault = .expected .rightParen p) ↔ InsideGroup (tokens.take i)
  operand_due : ¬ InsideGroup (tokens.take i) ↔ ∀ a : Atom, Viable (tokens.take i ++ [a.token])
  tooDeep_iff : ¬ InsideGroup (tokens.take i) →
    ((∃ p, fault = .tooDeep p) ↔ kindAt tokens i = some .leftParen)
  expectedAtom_iff : ¬ InsideGroup (tokens.take i) →
    ((∃ p, fault = .expectedAtom p) ↔ kindAt tokens i ≠ some .leftParen)
  openGroups_eq : (∃ p, fault = .tooDeep p) → openGroups (tokens.take i) = groupLimit

theorem blockedFault_position (s : Progress) :
    (blockedFault s finish rest).position? = some (position ⟨rest, finish, s.groups⟩) := by
  unfold blockedFault
  split
  · rfl
  · split <;> rfl

theorem insideGroup_iff (h : Reached before s) :
    InsideGroup before ↔ ∃ groups, s = .ended (groups + 1) := by
  rw [InsideGroup, h.endsOperand, h.openGroups_eq]
  match s with
  | .start | .target | .due _ | .ended 0 => simp [operandEnded, Progress.groups]
  | .ended (groups + 1) => simp [operandEnded, Progress.groups]

section
variable (hs : ¬ ∃ groups, s = .ended (groups + 1))
include hs

theorem blockedFault_eq_tooDeep_iff : (∃ p, blockedFault s finish rest = .tooDeep p) ↔
    rest.head?.map Token.kind = some .leftParen := by
  rw [blockedFault_eq hs]
  split <;> simp_all

theorem blockedFault_eq_expectedAtom_iff : (∃ p, blockedFault s finish rest = .expectedAtom p) ↔
    rest.head?.map Token.kind ≠ some .leftParen := by
  rw [blockedFault_eq hs]
  split <;> simp_all

theorem exists_step_atom {kind : Token.Kind} (hatom : kind.isAtom = true) :
    ∃ s', s.step kind = some s' := by
  match s with
  | .start | .target | .ended 0 =>
    exact ⟨.target, (step_boundary rfl (.inl hatom)).trans (begun_atom hatom)⟩
  | .due groups => exact ⟨.ended groups, step_due_atom hatom⟩
  | .ended (groups + 1) => exact absurd ⟨groups, rfl⟩ hs

theorem groups_of_blocked_leftParen (hstep : s.step .leftParen = none) :
    groupLimit ≤ s.groups := by
  match s with
  | .start | .target | .ended 0 => cases hstep
  | .due groups =>
    rw [step_due_leftParen, opened] at hstep
    split at hstep
    · cases hstep
    · rename_i hlimit
      exact Nat.not_lt.mp hlimit
  | .ended (groups + 1) => exact absurd ⟨groups, rfl⟩ hs

end

/-- Any operand may come next, unless one has just ended inside a group. -/
theorem viable_atom_iff (hrun : Progress.start.run before = some s) :
    (¬ ∃ groups, s = .ended (groups + 1)) ↔ ∀ a : Atom, Viable (before ++ [a.token]) := by
  constructor
  · intro hs a
    obtain ⟨s', hstep⟩ := exists_step_atom hs a.isAtom
    refine viable_of_run (s := s') ?_
    rw [run_append, hrun]
    simp [run_cons, hstep]
  · rintro h ⟨groups, rfl⟩
    have hblocked : Blocked (.ended (groups + 1)) [⟨.number, "0", 0⟩] := rfl
    exact not_viable_of_blocked hrun hblocked (h ⟨⟨.number, "0", 0⟩, rfl⟩)

theorem blockedFault_eq_expected_iff :
    (∃ p, blockedFault s finish rest = .expected .rightParen p) ↔
      ∃ groups, s = .ended (groups + 1) := by
  by_cases hs : ∃ groups, s = .ended (groups + 1)
  · obtain ⟨groups, rfl⟩ := hs
    exact ⟨fun _ => ⟨groups, rfl⟩, fun _ => ⟨_, rfl⟩⟩
  · rw [blockedFault_eq hs]
    split <;> simp [hs]

theorem groups_of_blockedFault_eq_tooDeep (hblocked : Blocked s rest)
    (h : ∃ p, blockedFault s finish rest = .tooDeep p) : groupLimit ≤ s.groups := by
  have hs : ¬ ∃ groups, s = .ended (groups + 1) := by
    rintro ⟨groups, rfl⟩
    obtain ⟨p, hp⟩ := h
    cases hp
  obtain ⟨t, ht, hkind⟩ := Option.map_eq_some_iff.mp ((blockedFault_eq_tooDeep_iff hs).mp h)
  obtain ⟨later, rfl⟩ := List.head?_eq_some_iff.mp ht
  have hstep : s.step t.kind = none := hblocked
  rw [hkind] at hstep
  exact groups_of_blocked_leftParen hs hstep

theorem Stuck.pointsAt (h : Stuck finish .start tokens fault c) :
    ∃ i, PointsAt tokens finish fault i := by
  cases h with
  | @intro before rest s hrun hblocked =>
    have hreached : Reached before s := Reached.nil.run hrun
    have htake : (before ++ rest).take before.length = before := List.take_left
    have hnext : (before ++ rest)[before.length]? = rest.head? := by
      rw [List.getElem?_append_right (Nat.le_refl _), Nat.sub_self, List.head?_eq_getElem?]
    refine ⟨before.length, ?_, ?_, ?_, ?_, ?_, ?_, ?_, ?_, ?_, ?_⟩
    · simp
    · rw [blockedFault_position, positionAt, hnext]
      cases rest <;> rfl
    · rw [htake]
      exact viable_of_run hrun
    · intro hlt
      cases rest with
      | nil => simp at hlt
      | cons t later =>
        rw [List.append_cons, List.take_left' (by simp)]
        exact not_viable_of_blocked hrun hblocked
    · intro hlength
      obtain rfl : rest = [] := by simpa using hlength
      rw [List.append_nil]
      exact not_derivable_of_blocked hrun hblocked
    · rw [htake, insideGroup_iff hreached]
      exact blockedFault_eq_expected_iff
    · rw [htake, insideGroup_iff hreached]
      exact viable_atom_iff hrun
    · rw [htake, insideGroup_iff hreached, kindAt, hnext]
      exact fun hs => blockedFault_eq_tooDeep_iff hs
    · rw [htake, insideGroup_iff hreached, kindAt, hnext]
      exact fun hs => blockedFault_eq_expectedAtom_iff hs
    · intro h
      have hgroups : s.groups = groupLimit :=
        Nat.le_antisymm hreached.limited (groups_of_blockedFault_eq_tooDeep hblocked h)
      rw [htake, hreached.openGroups_eq, hgroups]

theorem exists_pointsAt (hne : tokens ≠ []) (h : ofTokens tokens finish = .error fault) :
    ∃ i, PointsAt tokens finish fault i := by
  obtain ⟨c, hstuck⟩ := ofTokens_stuck hne h
  exact hstuck.pointsAt

/-- **A fault points at the first token that no program has there.** The tokens
before it begin a program, and with it they begin none; at the end of the source
it is the program that is not complete. After an operand inside a group a closing
parenthesis is missing, and in all other places an operand. For the tokens of a
source the fault therefore points at a token of it or at its end. -/
theorem ofTokens_error_pointsAt (tokens : List Token) (finish : Nat) :
    (ofTokens tokens finish = .error .emptyInput ↔ tokens = []) ∧
    (∀ fault, tokens ≠ [] → ofTokens tokens finish = .error fault →
      ∃ i, PointsAt tokens finish fault i) ∧
    (∀ source fault, Token.tokenize source = .ok tokens → tokens ≠ [] →
      ofTokens tokens (Text.byteSize source.toList) = .error fault →
      fault.position? = some (Text.byteSize source.toList) ∨
        ∃ t ∈ tokens, fault.position? = some t.position ∧ t.StandsIn 0 source.toList) := by
  refine ⟨?_, ?_, ?_⟩
  · constructor
    · intro h
      by_cases hne : tokens = []
      · exact hne
      · obtain ⟨i, hi⟩ := exists_pointsAt hne h
        cases hi.position_eq
    · intro hempty
      rw [hempty]
      exact ofTokens_nil
  · intro fault hne h
    exact exists_pointsAt hne h
  · intro source fault hscan hne h
    obtain ⟨i, hi⟩ := exists_pointsAt hne h
    rw [hi.position_eq, positionAt]
    cases ht : tokens[i]? with
    | none => exact .inl rfl
    | some t =>
      have hmem := List.mem_of_getElem? ht
      exact .inr ⟨t, hmem, rfl, Token.tokenize_starts hscan t hmem⟩

/-- The tokens of `(1 2`. -/
def unclosedGroup : List Token :=
  [⟨.leftParen, "(", 0⟩, ⟨.number, "1", 1⟩, ⟨.number, "2", 3⟩]

theorem pointsAt_unclosedGroup :
    ofTokens unclosedGroup 4 = .error (.expected .rightParen 3) ∧
    (∃ i, PointsAt unclosedGroup 4 (.expected .rightParen 3) i) ∧
    Token.tokenize "(1 2" = .ok unclosedGroup ∧
    ((ParseFault.expected .rightParen 3).position? = some (Text.byteSize "(1 2".toList) ∨
      ∃ t ∈ unclosedGroup, (ParseFault.expected .rightParen 3).position? = some t.position ∧
        t.StandsIn 0 "(1 2".toList) := by
  have hne : unclosedGroup ≠ [] := List.cons_ne_nil _ _
  have hfault : ofTokens unclosedGroup 4 = .error (.expected .rightParen 3) := rfl
  have hscan : Token.tokenize "(1 2" = .ok unclosedGroup := by cbv
  obtain ⟨-, hpoints, hplace⟩ := ofTokens_error_pointsAt unclosedGroup 4
  exact ⟨hfault, hpoints _ hne hfault, hscan, hplace _ _ hscan hne hfault⟩

end LineCalc.Program
