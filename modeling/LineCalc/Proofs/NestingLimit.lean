import LineCalc.Proofs.Acceptance

/-!
# The limit on open groups

Tokens that have a derivation are refused for one reason only: a group too many is
open (`ofTokens_eq_tooDeep`). The reader follows the derivation as far as it is
within the limit, part by part, and the first part that is not stops it at a
parenthesis.
-/

namespace LineCalc.Program

open Cursor Grammar

variable {α β : Type} {rest : List Token} {finish groups bound : Nat} {c : Cursor}

/-- The reading stops at a parenthesis that opens one group too many. -/
def StopsTooDeep (x : Reading α) (c : Cursor) : Prop :=
  ∃ position c', x.run c = .error (.tooDeep position) c'

theorem StopsTooDeep.bind {x : Reading α} (h : StopsTooDeep x c) (f : α → Reading β) :
    StopsTooDeep (x >>= f) c := by
  obtain ⟨position, c', h⟩ := h
  exact ⟨position, c', Reading.bind_eq_error.mpr (.inl h)⟩

theorem StopsTooDeep.after {x : Reading α} {f : α → Reading β} {a : α} {c₁ : Cursor}
    (hx : x.run c = .ok a c₁) (h : StopsTooDeep (f a) c₁) : StopsTooDeep (x >>= f) c := by
  obtain ⟨position, c', h⟩ := h
  exact ⟨position, c', Reading.bind_eq_error.mpr (.inr ⟨a, c₁, hx, h⟩)⟩

mutual

/-- An operand that nests too deep is not read to its end. -/
theorem operandWithin_stopsTooDeep : ∀ (o : Operand) {bound groups : Nat} (rest : List Token),
    o.tokens.length ≤ bound → groups ≤ groupLimit → groupLimit < groups + o.depth →
    StopsTooDeep (operandWithin bound) ⟨o.tokens ++ rest, finish, groups⟩
  | .atom a, bound, groups, rest, _, hgroups, hdeep => absurd hdeep (Nat.not_lt.mpr hgroups)
  | .group p first links q, 0, groups, rest, hbound, _, _ =>
    absurd hbound (Nat.not_succ_le_zero _)
  | .group p first links q, bound + 1, groups, rest, hbound, hgroups, hdeep => by
    simp only [Operand.tokens, List.length_cons, List.length_append] at hbound
    simp only [Operand.depth] at hdeep
    simp only [Operand.tokens, List.cons_append, List.append_assoc, List.nil_append]
    by_cases hlimit : groups < groupLimit
    · rw [StopsTooDeep, run_operandWithin_group p hlimit]
      by_cases hfirst : groupLimit < groups + 1 + first.depth
      · exact (operandWithin_stopsTooDeep first _ (by omega) hlimit hfirst).bind _
      · -- the first operand is read, so the links after it nest too deep
        refine StopsTooDeep.after (run_operandWithin first _ (by omega) (by omega)) ?_
        exact (chainWithin_stopsTooDeep links _ _ (by omega) hlimit (by omega)).bind _
    · exact ⟨_, _, run_operandWithin_tooDeep p hlimit⟩

/-- A chain of links that nests too deep is not read to its end. -/
theorem chainWithin_stopsTooDeep : ∀ (l : Links) {bound groups : Nat} (rest : List Token)
    (left : Expr), l.tokens.length ≤ bound → groups ≤ groupLimit →
    groupLimit < groups + l.depth →
    StopsTooDeep (chainWithin bound left) ⟨l.tokens ++ rest, finish, groups⟩
  | .nil, bound, groups, rest, left, _, hgroups, hdeep => absurd hdeep (Nat.not_lt.mpr hgroups)
  | .cons s right later, 0, groups, rest, left, hbound, _, _ =>
    absurd hbound (Nat.not_succ_le_zero _)
  | .cons s right later, bound + 1, groups, rest, left, hbound, hgroups, hdeep => by
    simp only [Links.tokens, List.length_cons, List.length_append] at hbound
    simp only [Links.depth] at hdeep
    simp only [Links.tokens, List.cons_append, List.append_assoc]
    rw [StopsTooDeep, run_chainWithin_sign s]
    by_cases hright : groupLimit < groups + right.depth
    · exact (operandWithin_stopsTooDeep right _ (by omega) hgroups hright).bind _
    · refine StopsTooDeep.after (run_operandWithin right _ (by omega) (by omega)) ?_
      exact chainWithin_stopsTooDeep later _ _ (by omega) hgroups (by omega)

end

theorem formula_stopsTooDeep (f : Formula) (rest : List Token) (hgroups : groups ≤ groupLimit)
    (hdeep : groupLimit < groups + f.depth) :
    StopsTooDeep formula ⟨f.tokens ++ rest, finish, groups⟩ := by
  obtain ⟨first, links⟩ := f
  simp only [Formula.depth] at hdeep
  rw [StopsTooDeep, run_formula]
  simp only [Formula.tokens, List.append_assoc, List.length_append]
  by_cases hfirst : groupLimit < groups + first.depth
  · exact (operandWithin_stopsTooDeep first _ (by omega) hgroups hfirst).bind _
  · refine StopsTooDeep.after (run_operandWithin first _ (by omega) (by omega)) ?_
    exact chainWithin_stopsTooDeep links _ _ (by omega) hgroups (by omega)

theorem statement_stopsTooDeep (s : Statement) (hrest : AtBoundary rest)
    (hgroups : groups ≤ groupLimit) (hdeep : groupLimit < groups + s.depth) :
    StopsTooDeep statement ⟨s.tokens ++ rest, finish, groups⟩ := by
  cases s with
  | formula f =>
    rcases assignment_cases (f.tokens ++ rest) with ⟨target, sign, later, h⟩ | hnot
    · exact absurd h (f.tokens_ne_assignment hrest target sign later)
    · rw [StopsTooDeep, Statement.tokens, run_statement_formula (hnot finish groups)]
      exact formula_stopsTooDeep f rest hgroups hdeep
  | assignment target sign value =>
    rw [StopsTooDeep, Statement.tokens, List.cons_append, List.cons_append,
      run_statement_assignment]
    exact (formula_stopsTooDeep value rest hgroups hdeep).bind _

/-- The first statement that nests too deep stops the reading of all. -/
theorem statementsWithin_stopsTooDeep (ss : List Statement) (hbound : ss.length ≤ bound)
    (hgroups : groups ≤ groupLimit) (hdeep : ∃ s ∈ ss, groupLimit < groups + s.depth) :
    StopsTooDeep (statementsWithin bound) ⟨ss.flatMap Statement.tokens, finish, groups⟩ := by
  induction ss generalizing bound with
  | nil =>
    obtain ⟨s, hs, -⟩ := hdeep
    cases hs
  | cons s later ih =>
    obtain ⟨bound, rfl⟩ : ∃ n, bound = n + 1 := ⟨bound - 1, by simp at hbound; omega⟩
    have hne : (s :: later).flatMap Statement.tokens ≠ [] := fun h =>
      s.tokens_ne_nil (List.append_eq_nil_iff.mp h).1
    rw [StopsTooDeep, run_statementsWithin_cons hne, List.flatMap_cons]
    by_cases hs : groupLimit < groups + s.depth
    · exact (statement_stopsTooDeep s (atBoundary_flatMap later) hgroups hs).bind _
    · have hlater : ∃ s' ∈ later, groupLimit < groups + s'.depth := by
        obtain ⟨s', hs', hdeep⟩ := hdeep
        rcases List.mem_cons.mp hs' with rfl | hs'
        · exact absurd hdeep hs
        · exact ⟨s', hs', hdeep⟩
      refine StopsTooDeep.after
        (run_statement_tokens s (atBoundary_flatMap later) (Nat.not_lt.mp hs)) ?_
      exact (ih (by simpa using hbound) hlater).bind _

/-- The tokens of a derivation past the limit are refused at a parenthesis. -/
theorem ofTokens_eq_tooDeep (d : Derivation) (hdeep : ∃ s ∈ d.statements, groupLimit < s.depth) :
    ∃ position, ofTokens d.tokens finish = .error (.tooDeep position) := by
  have hne : d.tokens ≠ [] := by
    obtain ⟨s, hs, -⟩ := hdeep
    intro h
    exact s.tokens_ne_nil (List.flatMap_eq_nil_iff.mp h s hs)
  have hstops : StopsTooDeep (statementsWithin d.tokens.length) ⟨d.tokens, finish, 0⟩ :=
    statementsWithin_stopsTooDeep d.statements (length_le_flatMap_tokens _) (Nat.zero_le _)
      (by simpa using hdeep)
  obtain ⟨position, c, h⟩ := hstops
  exact ⟨position, (ofTokens_eq_error hne).mpr ⟨c, h⟩⟩

end LineCalc.Program
