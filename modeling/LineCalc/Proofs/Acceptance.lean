import LineCalc.Proofs.Progress
import LineCalc.Proofs.Reading

/-!
# Acceptance

The reader accepts exactly the lists of tokens that the grammar derives with no
more groups open at once than allowed, and returns what the derivation stands
for.

*Complete*: what a part of a derivation spells is read as that part, whatever
follows it that cannot belong to it. *Sound*: what has been read is spelled by
some part of a derivation. Both are proved for operands and chains of links
together, and carried on to formulas, statements and programs.
-/

namespace LineCalc.Program

open Cursor Grammar

variable {tokens rest : List Token} {finish groups bound : Nat} {e left : Expr} {c : Cursor}

/-! ## Everything derived is read -/

theorem run_groupRest {first inner : Expr} (q : Mark .rightParen) {c₁ : Cursor}
    (hfirst : (operandWithin bound).run c = .ok first c₁)
    (hinner : (chainWithin bound first).run c₁ =
      .ok inner ⟨q.token :: rest, finish, groups + 1⟩) :
    (groupRest bound).run c = .ok inner ⟨rest, finish, groups⟩ := by
  rw [groupRest, EStateM.run_bind, hfirst]
  show EStateM.run (chainWithin bound first >>= _) c₁ = _
  rw [EStateM.run_bind, hinner]
  show EStateM.run (require .rightParen >>= _) _ = _
  rw [EStateM.run_bind, run_require_mark q]
  rfl

mutual

/-- What an operand spells is read as that operand. -/
theorem run_operandWithin : ∀ (o : Operand) {bound groups : Nat} (rest : List Token),
    o.tokens.length ≤ bound → groups + o.depth ≤ groupLimit →
    (operandWithin bound).run ⟨o.tokens ++ rest, finish, groups⟩ =
      .ok o.expr ⟨rest, finish, groups⟩
  | .atom a, bound, groups, rest, _, _ => run_operandWithin_atom a
  | .group p first links q, 0, groups, rest, hbound, _ => absurd hbound (Nat.not_succ_le_zero _)
  | .group p first links q, bound + 1, groups, rest, hbound, hdepth => by
    simp only [Operand.tokens, List.length_cons, List.length_append] at hbound
    simp only [Operand.depth] at hdepth
    have hfirst : (operandWithin bound).run
        ⟨first.tokens ++ (links.tokens ++ q.token :: rest), finish, groups + 1⟩ =
          .ok first.expr ⟨links.tokens ++ q.token :: rest, finish, groups + 1⟩ :=
      run_operandWithin first _ (by omega) (by omega)
    have hlinks : (chainWithin bound first.expr).run
        ⟨links.tokens ++ q.token :: rest, finish, groups + 1⟩ =
          .ok (links.expr first.expr) ⟨q.token :: rest, finish, groups + 1⟩ :=
      run_chainWithin links _ (.mark q rfl rest) (by omega) (by omega)
    simp only [Operand.tokens, List.cons_append, List.append_assoc, List.nil_append]
    rw [run_operandWithin_group p (by omega)]
    exact run_groupRest q hfirst hlinks

/-- What a chain of links spells is read as that chain, if no operator
follows. -/
theorem run_chainWithin : ∀ (l : Links) {bound groups : Nat} {rest : List Token} (left : Expr),
    NoOperator rest → l.tokens.length ≤ bound → groups + l.depth ≤ groupLimit →
    (chainWithin bound left).run ⟨l.tokens ++ rest, finish, groups⟩ =
      .ok (l.expr left) ⟨rest, finish, groups⟩
  | .nil, bound, groups, rest, left, hrest, _, _ => run_chainWithin_stop hrest left
  | .cons s right later, 0, groups, rest, left, _, hbound, _ =>
    absurd hbound (Nat.not_succ_le_zero _)
  | .cons s right later, bound + 1, groups, rest, left, hrest, hbound, hdepth => by
    simp only [Links.tokens, List.length_cons, List.length_append] at hbound
    simp only [Links.depth] at hdepth
    simp only [Links.tokens, List.cons_append, List.append_assoc]
    rw [run_chainWithin_sign s, EStateM.run_bind,
      run_operandWithin right (later.tokens ++ rest) (by omega) (by omega)]
    exact run_chainWithin later _ hrest (by omega) (by omega)

end

theorem run_formula_tokens (f : Formula) (hrest : NoOperator rest)
    (hdepth : groups + f.depth ≤ groupLimit) :
    formula.run ⟨f.tokens ++ rest, finish, groups⟩ = .ok f.expr ⟨rest, finish, groups⟩ := by
  obtain ⟨first, links⟩ := f
  simp only [Formula.depth] at hdepth
  rw [run_formula]
  simp only [Formula.tokens, List.append_assoc, List.length_append]
  rw [EStateM.run_bind, run_operandWithin first _ (by omega) (by omega)]
  exact run_chainWithin links _ hrest (by omega) (by omega)

theorem run_statement_tokens (s : Statement) (hrest : AtBoundary rest)
    (hdepth : groups + s.depth ≤ groupLimit) :
    statement.run ⟨s.tokens ++ rest, finish, groups⟩ = .ok s.expr ⟨rest, finish, groups⟩ := by
  cases s with
  | formula f =>
    -- two tokens are looked at before the forms are told apart
    rcases assignment_cases (f.tokens ++ rest) with ⟨target, sign, later, h⟩ | hnot
    · exact absurd h (f.tokens_ne_assignment hrest target sign later)
    · simp only [Statement.tokens]
      rw [run_statement_formula (hnot finish groups)]
      exact run_formula_tokens f hrest.noOperator hdepth
  | assignment target sign value =>
    simp only [Statement.tokens, List.cons_append]
    rw [run_statement_assignment, EStateM.run_bind,
      run_formula_tokens value hrest.noOperator hdepth]
    rfl

theorem run_statementsWithin (ss : List Statement) (hbound : ss.length ≤ bound)
    (hdepth : ∀ s ∈ ss, groups + s.depth ≤ groupLimit) :
    (statementsWithin bound).run ⟨ss.flatMap Statement.tokens, finish, groups⟩ =
      .ok (ss.map Statement.expr) ⟨[], finish, groups⟩ := by
  induction ss generalizing bound with
  | nil => exact run_statementsWithin_nil
  | cons s later ih =>
    obtain ⟨bound, rfl⟩ : ∃ n, bound = n + 1 := ⟨bound - 1, by simp at hbound; omega⟩
    have hne : (s :: later).flatMap Statement.tokens ≠ [] := fun h =>
      s.tokens_ne_nil (List.append_eq_nil_iff.mp h).1
    rw [run_statementsWithin_cons hne, List.flatMap_cons, EStateM.run_bind,
      run_statement_tokens s (atBoundary_flatMap later) (hdepth s (by simp))]
    show EStateM.run (statementsWithin bound >>= _) _ = _
    rw [EStateM.run_bind, ih (by simpa using hbound) (fun s' hs => hdepth s' (by simp [hs]))]
    rfl

/-! ## Everything read is derived -/

/-- What has been read as an operand, or as the links after one, is spelled by a
part of a derivation, and no group is left open. The bound is the number of
tokens that are left at least, which is what every step lowers. -/
theorem within_sound (bound : Nat) :
    (∀ {tokens : List Token} {groups : Nat} {e : Expr} {c : Cursor},
      tokens.length ≤ bound → groups ≤ groupLimit →
      (operandWithin bound).run ⟨tokens, finish, groups⟩ = .ok e c →
      ∃ (o : Operand) (rest : List Token), tokens = o.tokens ++ rest ∧
        c = ⟨rest, finish, groups⟩ ∧ e = o.expr ∧ groups + o.depth ≤ groupLimit) ∧
    (∀ {tokens : List Token} {groups : Nat} {left e : Expr} {c : Cursor},
      tokens.length ≤ bound → groups ≤ groupLimit →
      (chainWithin bound left).run ⟨tokens, finish, groups⟩ = .ok e c →
      ∃ (l : Links) (rest : List Token), tokens = l.tokens ++ rest ∧ NoOperator rest ∧
        c = ⟨rest, finish, groups⟩ ∧ e = l.expr left ∧ groups + l.depth ≤ groupLimit) := by
  induction bound with
  | zero =>
    constructor
    · intro tokens groups e c hbound _ h
      obtain rfl : tokens = [] := List.length_eq_zero_iff.mp (Nat.le_zero.mp hbound)
      rw [run_operandWithin_none (fun t ht => by cases ht)] at h
      cases h
    · intro tokens groups left e c hbound hgroups h
      obtain rfl : tokens = [] := List.length_eq_zero_iff.mp (Nat.le_zero.mp hbound)
      cases h
      exact ⟨.nil, [], rfl, .nil, rfl, rfl, hgroups⟩
  | succ bound ih =>
    obtain ⟨ihOperand, ihChain⟩ := ih
    constructor
    · intro tokens groups e c hbound hgroups h
      rcases operand_cases tokens with ⟨a, rest, rfl⟩ | ⟨p, rest, rfl⟩ | hnone
      · rw [run_operandWithin_atom a] at h
        cases h
        exact ⟨.atom a, rest, rfl, rfl, rfl, hgroups⟩
      · simp only [List.length_cons] at hbound
        by_cases hlimit : groups < groupLimit
        · rw [run_operandWithin_group p hlimit] at h
          obtain ⟨first, c₁, q, rest', finish', groups', hfirst, hinner, rfl⟩ :=
            groupRest_eq_ok h
          obtain ⟨o, rest₁, rfl, rfl, rfl, ho⟩ := ihOperand (by omega) (by omega) hfirst
          simp only [List.length_append] at hbound
          obtain ⟨l, rest₂, rfl, -, hc, rfl, hl⟩ := ihChain (by omega) (by omega) hinner
          -- the chain has left one group open, which the parenthesis closes
          cases hc
          refine ⟨.group p o l q, rest', ?_, rfl, rfl, ?_⟩
          · simp [Operand.tokens]
          · simp only [Operand.depth]
            omega
        · rw [run_operandWithin_tooDeep p hlimit] at h
          cases h
      · rw [run_operandWithin_none hnone] at h
        cases h
    · intro tokens groups left e c hbound hgroups h
      rcases operator_cases tokens with ⟨s, rest, rfl⟩ | hstop
      · simp only [List.length_cons] at hbound
        rw [run_chainWithin_sign s] at h
        obtain ⟨right, c₁, hright, hlater⟩ := Reading.bind_eq_ok.mp h
        obtain ⟨o, rest₁, rfl, rfl, rfl, ho⟩ := ihOperand (by omega) hgroups hright
        simp only [List.length_append] at hbound
        obtain ⟨l, rest₂, rfl, hrest, rfl, rfl, hl⟩ := ihChain (by omega) hgroups hlater
        refine ⟨.cons s o l, rest₂, ?_, hrest, rfl, rfl, ?_⟩
        · simp [Links.tokens]
        · simp only [Links.depth]
          omega
      · rw [run_chainWithin_stop hstop] at h
        cases h
        exact ⟨.nil, tokens, rfl, hstop, rfl, rfl, hgroups⟩

theorem formula_sound (hgroups : groups ≤ groupLimit)
    (h : formula.run ⟨tokens, finish, groups⟩ = .ok e c) :
    ∃ (f : Formula) (rest : List Token), tokens = f.tokens ++ rest ∧ NoOperator rest ∧
      c = ⟨rest, finish, groups⟩ ∧ e = f.expr ∧ groups + f.depth ≤ groupLimit := by
  rw [run_formula] at h
  obtain ⟨first, c₁, hfirst, hlinks⟩ := Reading.bind_eq_ok.mp h
  obtain ⟨o, rest₁, rfl, rfl, rfl, ho⟩ := (within_sound _).1 (Nat.le_refl _) hgroups hfirst
  obtain ⟨l, rest₂, rfl, hrest, rfl, rfl, hl⟩ :=
    (within_sound _).2 (by simp) hgroups hlinks
  refine ⟨⟨o, l⟩, rest₂, ?_, hrest, rfl, rfl, ?_⟩
  · simp [Formula.tokens]
  · simp only [Formula.depth]
    omega

/-- A statement has been read as far as it goes: no operator follows, and no `=`
after a single atom. -/
def Complete (s : Statement) (rest : List Token) : Prop :=
  NoOperator rest ∧ ∀ a : Atom, s = .formula ⟨.atom a, .nil⟩ → NotNext .assign rest

theorem statement_sound (hgroups : groups ≤ groupLimit)
    (h : statement.run ⟨tokens, finish, groups⟩ = .ok e c) :
    ∃ (s : Statement) (rest : List Token), tokens = s.tokens ++ rest ∧ Complete s rest ∧
      c = ⟨rest, finish, groups⟩ ∧ e = s.expr ∧ groups + s.depth ≤ groupLimit := by
  rcases assignment_cases tokens with ⟨target, sign, later, rfl⟩ | hnot
  · rw [run_statement_assignment] at h
    obtain ⟨value, c₁, hvalue, h⟩ := Reading.bind_eq_ok.mp h
    cases h
    obtain ⟨f, rest, rfl, hrest, rfl, rfl, hf⟩ := formula_sound hgroups hvalue
    refine ⟨.assignment target sign f, rest, rfl, ⟨hrest, ?_⟩, rfl, rfl, hf⟩
    intro a ha
    cases ha
  · rw [run_statement_formula (hnot finish groups)] at h
    obtain ⟨f, rest, rfl, hrest, rfl, rfl, hf⟩ := formula_sound hgroups h
    refine ⟨.formula f, rest, rfl, ⟨hrest, ?_⟩, rfl, rfl, hf⟩
    -- an atom with `=` after it would have been read as an assignment
    intro a ha t ht hassign
    cases ha
    obtain ⟨later, rfl⟩ := List.head?_eq_some_iff.mp ht
    have hstarts := hnot finish groups
    simp [startsAssignment, kindAt?, Formula.tokens, Operand.tokens, Links.tokens, a.isAtom,
      hassign] at hstarts

theorem statementsWithin_sound (hbound : tokens.length ≤ bound) (hgroups : groups ≤ groupLimit)
    {program : Program} (h : (statementsWithin bound).run ⟨tokens, finish, groups⟩ = .ok program c) :
    ∃ ss : List Statement, tokens = ss.flatMap Statement.tokens ∧
      program = ss.map Statement.expr ∧ ∀ s ∈ ss, groups + s.depth ≤ groupLimit := by
  induction bound generalizing tokens program c with
  | zero =>
    obtain rfl : tokens = [] := List.length_eq_zero_iff.mp (Nat.le_zero.mp hbound)
    cases h
    exact ⟨[], rfl, rfl, by simp⟩
  | succ bound ih =>
    by_cases hne : tokens = []
    · subst hne
      rw [run_statementsWithin_nil] at h
      cases h
      exact ⟨[], rfl, rfl, by simp⟩
    · rw [run_statementsWithin_cons hne] at h
      obtain ⟨first, c₁, hfirst, h⟩ := Reading.bind_eq_ok.mp h
      obtain ⟨later, c₂, hlater, h⟩ := Reading.bind_eq_ok.mp h
      cases h
      obtain ⟨s, rest, rfl, -, rfl, rfl, hs⟩ := statement_sound hgroups hfirst
      -- a statement takes at least one token, so the bound is enough for the rest
      have hshorter : rest.length ≤ bound := by
        have := List.length_pos_iff.mpr s.tokens_ne_nil
        simp only [List.length_append] at hbound
        omega
      obtain ⟨ss, rfl, rfl, hss⟩ := ih hshorter hlater
      refine ⟨s :: ss, rfl, rfl, ?_⟩
      intro s' hs'
      rcases List.mem_cons.mp hs' with rfl | hs'
      · exact hs
      · exact hss s' hs'

/-! ## Acceptance -/

theorem length_le_flatMap_tokens (ss : List Statement) :
    ss.length ≤ (ss.flatMap Statement.tokens).length := by
  induction ss with
  | nil => exact Nat.le_refl 0
  | cons s later ih =>
    have := List.length_pos_iff.mpr s.tokens_ne_nil
    simp only [List.flatMap_cons, List.length_append, List.length_cons]
    omega

theorem ofTokens_derivation (d : Derivation) (hlimit : d.WithinLimit) :
    ofTokens d.tokens finish = .ok d.program := by
  have hne : d.tokens ≠ [] := by
    obtain ⟨ss, hss⟩ := d
    cases ss with
    | nil => exact absurd rfl hss
    | cons s later => exact fun h => s.tokens_ne_nil (List.append_eq_nil_iff.mp h).1
  refine (ofTokens_eq_ok hne).mpr ⟨⟨[], finish, 0⟩, ?_⟩
  refine run_statementsWithin d.statements (length_le_flatMap_tokens _) ?_
  intro s hs
  rw [Nat.zero_add]
  exact d.withinLimit_iff.mp hlimit s hs

theorem exists_derivation {program : Program} (h : ofTokens tokens finish = .ok program) :
    ∃ d : Derivation, d.WithinLimit ∧ d.tokens = tokens ∧ d.program = program := by
  have hne : tokens ≠ [] := by
    rintro rfl
    cases h
  obtain ⟨c, h⟩ := (ofTokens_eq_ok hne).mp h
  obtain ⟨ss, rfl, rfl, hss⟩ :=
    statementsWithin_sound (Nat.le_refl _) (Nat.zero_le _) h
  refine ⟨⟨ss, ?_⟩, ?_, rfl, rfl⟩
  · rintro rfl
    exact hne rfl
  · refine (Derivation.withinLimit_iff _).mpr ?_
    intro s hs
    rw [← Nat.zero_add s.depth]
    exact hss s hs

/-- **The reader accepts exactly the grammar.** A list of tokens is read as a
program just if it has a derivation with no more groups open at once than
allowed, and the program is then the one that the derivation stands for. There is
at most one derivation to speak of. -/
theorem ofTokens_eq_ok_iff_derivation (tokens : List Token) (finish : Nat) :
    (∀ program : Program, ofTokens tokens finish = .ok program ↔
      ∃ d : Derivation, d.WithinLimit ∧ d.tokens = tokens ∧ d.program = program) ∧
    (∀ d₁ d₂ : Derivation, d₁.tokens = tokens → d₂.tokens = tokens → d₁ = d₂) := by
  refine ⟨fun program => ⟨exists_derivation, ?_⟩, ?_⟩
  · rintro ⟨d, hlimit, rfl, rfl⟩
    exact ofTokens_derivation d hlimit
  · intro d₁ d₂ h₁ h₂
    exact Derivation.ext_tokens (h₁.trans h₂.symm)

/-- The tokens of `x=(1)` have one derivation. -/
theorem exists_derivation_assigned_group :
    ∃ d : Derivation, d.WithinLimit ∧
      d.tokens = [⟨.identifier, "x", 0⟩, ⟨.assign, "=", 1⟩, ⟨.leftParen, "(", 2⟩,
        ⟨.number, "1", 3⟩, ⟨.rightParen, ")", 4⟩] ∧
      d.program = [.assign (.identifier "x" 0) (.number "1" 3) 1] ∧
      ∀ d' : Derivation, d'.tokens = d.tokens → d' = d := by
  obtain ⟨hread, hunique⟩ := ofTokens_eq_ok_iff_derivation [⟨.identifier, "x", 0⟩,
    ⟨.assign, "=", 1⟩, ⟨.leftParen, "(", 2⟩, ⟨.number, "1", 3⟩, ⟨.rightParen, ")", 4⟩] 5
  obtain ⟨d, hlimit, htokens, hprogram⟩ := (hread _).mp rfl
  refine ⟨d, hlimit, htokens, hprogram, ?_⟩
  intro d' h
  exact hunique d' d (h.trans htokens) htokens

end LineCalc.Program
