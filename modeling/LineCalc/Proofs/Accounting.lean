import LineCalc.Proofs.Acceptance

/-!
# What a reading consumes and leaves open

A reading takes tokens from the front of its cursor and counts the groups that it opens
and closes. Where it gives a value, it has taken at least one token, and every group that
it opened is closed again. Where it stops at a fault, the groups that it was inside of
stay open, and the parenthesis that opens one group too many has been taken without being
counted.

* `Grammar.unmatched` counts the left parentheses that no right one among the tokens
  matches. Where the tokens close no group but their own, these are the groups that they
  leave open (`Grammar.unmatched_eq`).
* `Halts` is what holds where a reading has stopped, and `within_halts` carries it through
  operands and chains.
* `Rounds` is the loop over the statements of a program, with no bound on how often it goes
  round.

Main statement: `readings_accounted`.
-/

namespace LineCalc.Grammar

variable {tokens before : List Token}

/-! ## Parentheses that are not matched -/

/-- One of the tokens closes the group that was open before them: after it, fewer groups
are open than before. -/
def ClosesGroup (tokens : List Token) : Prop :=
  ∃ before, before <+: tokens ∧ openGroups before < 0

/-- The fewest groups that are open after some of the tokens, counted from none. -/
def lowest : List Token → Int
  | [] => 0
  | t :: rest => min 0 (groupStep t.kind + lowest rest)

theorem lowest_nonpos (tokens : List Token) : lowest tokens ≤ 0 := by
  cases tokens with
  | nil => exact Int.le_refl 0
  | cons t rest => exact Int.min_le_left _ _

theorem lowest_le (h : before <+: tokens) : lowest tokens ≤ openGroups before := by
  induction tokens generalizing before with
  | nil =>
    rw [List.prefix_nil.mp h]
    exact Int.le_refl 0
  | cons t rest ih =>
    rcases List.prefix_cons_iff.mp h with rfl | ⟨more, rfl, hmore⟩
    · exact lowest_nonpos _
    · have hle := ih hmore
      rw [lowest, openGroups_cons]
      omega

theorem exists_openGroups_eq_lowest (tokens : List Token) :
    ∃ before, before <+: tokens ∧ openGroups before = lowest tokens := by
  induction tokens with
  | nil => exact ⟨[], List.nil_prefix, rfl⟩
  | cons t rest ih =>
    obtain ⟨more, hmore, hopen⟩ := ih
    rcases Int.le_total 0 (groupStep t.kind + lowest rest) with hle | hle
    · exact ⟨[], List.nil_prefix, (Int.min_eq_left hle).symm⟩
    · refine ⟨t :: more, (List.prefix_cons_inj t).mpr hmore, ?_⟩
      rw [lowest, Int.min_eq_right hle, openGroups_cons, hopen]

theorem lowest_neg_iff : lowest tokens < 0 ↔ ClosesGroup tokens := by
  constructor
  · intro h
    obtain ⟨before, hinitial, hopen⟩ := exists_openGroups_eq_lowest tokens
    exact ⟨before, hinitial, hopen ▸ h⟩
  · rintro ⟨before, hinitial, hopen⟩
    exact Int.lt_of_le_of_lt (lowest_le hinitial) hopen

instance : Decidable (ClosesGroup tokens) := decidable_of_iff _ lowest_neg_iff

/-- How many left parentheses among the tokens are not matched by a right one among
them. -/
def unmatched : List Token → Nat
  | [] => 0
  | t :: rest => unmatched rest + if t.kind = .leftParen ∧ ¬ ClosesGroup rest then 1 else 0

/-- The groups that are open after the tokens and were not open at the lowest point are those
of the parentheses that are not matched. -/
theorem unmatched_eq (tokens : List Token) :
    (unmatched tokens : Int) = openGroups tokens - lowest tokens := by
  induction tokens with
  | nil => rfl
  | cons t rest ih =>
    have hlow := lowest_nonpos rest
    rw [unmatched, lowest, openGroups_cons]
    by_cases hparen : t.kind = .leftParen
    · rw [hparen, groupStep_leftParen]
      by_cases hclosed : ClosesGroup rest
      · have hneg := lowest_neg_iff.mpr hclosed
        rw [if_neg (fun h => h.2 hclosed)]
        omega
      · have hzero := mt lowest_neg_iff.mp hclosed
        rw [if_pos ⟨rfl, hclosed⟩]
        omega
    · have hstep : groupStep t.kind ≤ 0 := by
        cases hkind : t.kind <;> simp_all [groupStep]
      rw [if_neg (fun h => hparen h.1)]
      omega

example : unmatched [⟨.leftParen, "(", 0⟩, ⟨.leftParen, "(", 1⟩, ⟨.rightParen, ")", 2⟩,
    ⟨.leftParen, "(", 3⟩] = 2 := by decide

/-! ## Parts of a derivation -/

theorem lowest_append (before after : List Token) :
    lowest (before ++ after) = min (lowest before) (openGroups before + lowest after) := by
  induction before with
  | nil =>
    have hlow := lowest_nonpos after
    rw [List.nil_append, lowest, openGroups_nil]
    omega
  | cons t rest ih =>
    rw [List.cons_append, lowest, lowest, openGroups_cons, ih]
    omega

/-- As many groups are closed by the tokens as are opened, and only such as are opened by
them. -/
structure Balanced (tokens : List Token) : Prop where
  openGroups_eq : openGroups tokens = 0
  lowest_eq : lowest tokens = 0

theorem Balanced.nil : Balanced [] := ⟨rfl, rfl⟩

theorem Balanced.cons {t : Token} (ht : groupStep t.kind = 0) (h : Balanced tokens) :
    Balanced (t :: tokens) where
  openGroups_eq := by rw [openGroups_cons, ht, h.openGroups_eq]; rfl
  lowest_eq := by rw [lowest, ht, h.lowest_eq]; rfl

theorem Balanced.append {later : List Token} (h : Balanced tokens) (hlater : Balanced later) :
    Balanced (tokens ++ later) where
  openGroups_eq := by rw [openGroups_append, h.openGroups_eq, hlater.openGroups_eq]; rfl
  lowest_eq := by rw [lowest_append, h.lowest_eq, h.openGroups_eq, hlater.lowest_eq]; rfl

theorem Balanced.group (p : Mark .leftParen) (q : Mark .rightParen) (h : Balanced tokens) :
    Balanced (p.token :: (tokens ++ [q.token])) where
  openGroups_eq := by simp [h.openGroups_eq]
  lowest_eq := by
    simp only [lowest, lowest_append, h.openGroups_eq, h.lowest_eq, groupStep_mark,
      groupStep_leftParen, groupStep_rightParen]
    rfl

mutual

theorem Operand.balanced : ∀ o : Operand, Balanced o.tokens
  | .atom a => .cons (groupStep_atom a) .nil
  | .group p first links q => by
    have hinner := (first.balanced.append links.balanced).group p q
    rw [List.append_assoc] at hinner
    exact hinner

theorem Links.balanced : ∀ l : Links, Balanced l.tokens
  | .nil => .nil
  | .cons s right later => .cons (groupStep_sign s) (right.balanced.append later.balanced)

end

theorem Operand.tokens_ne_nil (o : Operand) : o.tokens ≠ [] := by
  cases o <;> exact List.cons_ne_nil _ _

theorem Formula.tokens_ne_nil (f : Formula) : f.tokens ≠ [] :=
  Statement.tokens_ne_nil (.formula f)

end LineCalc.Grammar

namespace LineCalc

/-- How many parentheses the fault refuses to open a group for. -/
def ParseFault.refused : ParseFault → Nat
  | tooDeep _ => 1
  | _ => 0

namespace Program

open Cursor Grammar

variable {tokens rest : List Token} {finish groups bound : Nat} {fault : ParseFault}
  {c c' : Cursor}

/-! ## Readings that fail -/

/-- A reading that began inside so many groups has stopped at a fault. It has closed no
group but its own, and the groups that it has left open are counted, all but one that was
refused. -/
def Halts (finish groups : Nat) (tokens : List Token) (fault : ParseFault) (c : Cursor) :
    Prop :=
  ∃ consumed : List Token, tokens = consumed ++ c.tokens ∧ lowest consumed = 0 ∧
    (c.openGroups : Int) + fault.refused = groups + openGroups consumed ∧
    c.openGroups ≤ groupLimit ∧ c.finish = finish

theorem Halts.here (hgroups : groups ≤ groupLimit) (hfault : fault.refused = 0) :
    Halts finish groups tokens fault ⟨tokens, finish, groups⟩ :=
  ⟨[], rfl, rfl, by simp [hfault], hgroups, rfl⟩

/-- The group that a parenthesis has opened is left open. -/
theorem Halts.inside (p : Mark .leftParen) (h : Halts finish (groups + 1) rest fault c) :
    Halts finish groups (p.token :: rest) fault c := by
  obtain ⟨consumed, rfl, hlow, hopen, hrest⟩ := h
  refine ⟨p.token :: consumed, rfl, ?_, ?_, hrest⟩
  · rw [lowest, p.hasKind, groupStep_leftParen, hlow]
    rfl
  · rw [hopen, openGroups_cons, p.hasKind, groupStep_leftParen]
    omega

/-- A parenthesis that opens one group too many is consumed, but its group is not
counted. -/
theorem Halts.tooDeep (p : Mark .leftParen) (hgroups : groups ≤ groupLimit) :
    Halts finish groups (p.token :: rest) (.tooDeep p.token.position)
      ⟨rest, finish, groups⟩ :=
  .inside p ⟨[], rfl, rfl, by simp [ParseFault.refused], hgroups, rfl⟩

/-- Tokens whose groups are all closed may come first. -/
theorem Halts.after (hbefore : Balanced tokens) (h : Halts finish groups rest fault c) :
    Halts finish groups (tokens ++ rest) fault c := by
  obtain ⟨consumed, rfl, hlow, hopen, hrest⟩ := h
  refine ⟨tokens ++ consumed, (List.append_assoc ..).symm, ?_, ?_, hrest⟩
  · rw [lowest_append, hbefore.lowest_eq, hbefore.openGroups_eq, hlow]
    rfl
  · rw [openGroups_append, hbefore.openGroups_eq, hopen]
    omega

theorem Halts.after_sign (sign : Sign) (h : Halts finish groups rest fault c) :
    Halts finish groups (sign.token :: rest) fault c :=
  h.after (.cons (groupStep_sign sign) .nil)

/-- An operand or a chain that fails halts. The parts that were read before the fault are
parts of a derivation, so their groups are closed again. -/
theorem within_halts (bound : Nat) :
    (∀ {tokens : List Token} {groups : Nat} {fault : ParseFault} {c : Cursor},
      tokens.length ≤ bound → groups ≤ groupLimit →
      (operandWithin bound).run ⟨tokens, finish, groups⟩ = .error fault c →
      Halts finish groups tokens fault c) ∧
    (∀ {tokens : List Token} {groups : Nat} {left : Expr} {fault : ParseFault} {c : Cursor},
      tokens.length ≤ bound → groups ≤ groupLimit →
      (chainWithin bound left).run ⟨tokens, finish, groups⟩ = .error fault c →
      Halts finish groups tokens fault c) := by
  induction bound with
  | zero =>
    constructor
    · intro tokens groups fault c hbound hgroups h
      obtain rfl : tokens = [] := List.length_eq_zero_iff.mp (Nat.le_zero.mp hbound)
      rw [run_operandWithin_none (fun t ht => by cases ht)] at h
      cases h
      exact .here hgroups rfl
    · intro tokens groups left fault c _ _ h
      cases h
  | succ bound ih =>
    obtain ⟨ihOperand, ihChain⟩ := ih
    constructor
    · intro tokens groups fault c hbound hgroups h
      rcases operand_cases tokens with ⟨a, rest, rfl⟩ | ⟨p, rest, rfl⟩ | hnone
      · rw [run_operandWithin_atom a] at h
        cases h
      · simp only [List.length_cons] at hbound
        by_cases hlimit : groups < groupLimit
        · rw [run_operandWithin_group p hlimit] at h
          refine .inside p ?_
          -- the first operand fails, or a later one, or the group is not closed
          rcases groupRest_eq_error h with h | ⟨first, c₁, hfirst, h⟩
          · exact ihOperand (by omega) hlimit h
          obtain ⟨o, rest₁, rfl, rfl, rfl, -⟩ :=
            (within_sound bound).1 (by omega) hlimit hfirst
          simp only [List.length_append] at hbound
          refine .after o.balanced ?_
          rcases h with h | ⟨inner, hinner, -, rfl⟩
          · exact ihChain (by omega) hlimit h
          · obtain ⟨l, rest₂, rfl, -, rfl, -, -⟩ :=
              (within_sound bound).2 (by omega) hlimit hinner
            exact .after l.balanced (.here hlimit rfl)
        · rw [run_operandWithin_tooDeep p hlimit] at h
          cases h
          exact .tooDeep p hgroups
      · rw [run_operandWithin_none hnone] at h
        cases h
        exact .here hgroups rfl
    · intro tokens groups left fault c hbound hgroups h
      rcases operator_cases tokens with ⟨sign, rest, rfl⟩ | hstop
      · simp only [List.length_cons] at hbound
        refine .after_sign sign ?_
        rw [run_chainWithin_sign sign] at h
        rcases Reading.bind_eq_error.mp h with h | ⟨right, c₁, hright, h⟩
        · exact ihOperand (by omega) hgroups h
        · obtain ⟨o, rest₁, rfl, rfl, rfl, -⟩ :=
            (within_sound bound).1 (by omega) hgroups hright
          simp only [List.length_append] at hbound
          exact .after o.balanced (ihChain (by omega) hgroups h)
      · rw [run_chainWithin_stop hstop] at h
        cases h

theorem formula_halts (hgroups : groups ≤ groupLimit)
    (h : formula.run ⟨tokens, finish, groups⟩ = .error fault c) :
    Halts finish groups tokens fault c := by
  rw [run_formula] at h
  rcases Reading.bind_eq_error.mp h with h | ⟨first, c₁, hfirst, h⟩
  · exact (within_halts _).1 (Nat.le_refl _) hgroups h
  · obtain ⟨o, rest, rfl, rfl, rfl, -⟩ := (within_sound _).1 (Nat.le_refl _) hgroups hfirst
    exact .after o.balanced ((within_halts _).2 (by simp) hgroups h)

theorem statement_halts (hgroups : groups ≤ groupLimit)
    (h : statement.run ⟨tokens, finish, groups⟩ = .error fault c) :
    Halts finish groups tokens fault c := by
  rcases assignment_cases tokens with ⟨target, sign, later, rfl⟩ | hnot
  · rw [run_statement_assignment] at h
    rcases Reading.bind_eq_error.mp h with h | ⟨value, c₁, -, h⟩
    · have hsign : groupStep sign.token.kind = 0 := by simp
      exact (formula_halts hgroups h).after (.cons (groupStep_atom target) (.cons hsign .nil))
    · cases h
  · rw [run_statement_formula (hnot finish groups)] at h
    exact formula_halts hgroups h

/-! ## Readings one by one -/

/-- What a reading that began at `c` has done to the cursor. -/
inductive Accounted (c : Cursor) : EStateM.Result ParseFault Cursor Expr → Prop
  /-- Some tokens have been consumed, and as many groups are open as before. -/
  | ok {e : Expr} {c' : Cursor} {consumed : List Token} (hne : consumed ≠ [])
      (htokens : c.tokens = consumed ++ c'.tokens) (hopen : c'.openGroups = c.openGroups)
      (hfinish : c'.finish = c.finish) : Accounted c (.ok e c')
  /-- Some tokens or none have been consumed, and the groups of the left parentheses among
  them that are not matched are open, all but one that was refused. -/
  | error {fault : ParseFault} {c' : Cursor} {consumed : List Token}
      (htokens : c.tokens = consumed ++ c'.tokens)
      (hopen : c'.openGroups + fault.refused = c.openGroups + unmatched consumed)
      (hlimit : c'.openGroups ≤ groupLimit) (hfinish : c'.finish = c.finish) :
      Accounted c (.error fault c')

/-- No group from outside has been closed, so what is open is what is not matched. -/
theorem Halts.accounted (h : Halts finish groups tokens fault c) :
    Accounted ⟨tokens, finish, groups⟩ (.error fault c) := by
  obtain ⟨consumed, htokens, hlow, hopen, hlimit, hfinish⟩ := h
  refine .error htokens ?_ hlimit hfinish
  have hunmatched := unmatched_eq consumed
  show c.openGroups + fault.refused = groups + unmatched consumed
  omega

theorem atom_accounted (hgroups : c.openGroups ≤ groupLimit) : Accounted c (atom.run c) := by
  obtain ⟨tokens, finish, groups⟩ := c
  by_cases hatom : ∃ (a : Atom) (rest : List Token), tokens = a.token :: rest
  · obtain ⟨a, rest, rfl⟩ := hatom
    rw [run_atom a]
    exact .ok (List.cons_ne_nil a.token []) rfl rfl rfl
  · have hother : ∀ t ∈ tokens.head?, t.kind.isAtom = false := by
      intro t ht
      obtain ⟨rest, rfl⟩ := List.head?_eq_some_iff.mp ht
      exact eq_false_of_ne_true fun h => hatom ⟨⟨t, h⟩, rest, rfl⟩
    rw [run_atom_other hother]
    exact (Halts.here hgroups rfl).accounted

theorem operand_accounted (hgroups : c.openGroups ≤ groupLimit) :
    Accounted c (operand.run c) := by
  obtain ⟨tokens, finish, groups⟩ := c
  cases h : operand.run ⟨tokens, finish, groups⟩ with
  | ok e c =>
    obtain ⟨o, rest, rfl, rfl, -, -⟩ := (within_sound _).1 (Nat.le_refl _) hgroups h
    exact .ok o.tokens_ne_nil rfl rfl rfl
  | error fault c => exact ((within_halts _).1 (Nat.le_refl _) hgroups h).accounted

theorem formula_accounted (hgroups : c.openGroups ≤ groupLimit) :
    Accounted c (formula.run c) := by
  obtain ⟨tokens, finish, groups⟩ := c
  cases h : formula.run ⟨tokens, finish, groups⟩ with
  | ok e c =>
    obtain ⟨f, rest, rfl, -, rfl, -, -⟩ := formula_sound hgroups h
    exact .ok f.tokens_ne_nil rfl rfl rfl
  | error fault c => exact (formula_halts hgroups h).accounted

theorem statement_accounted (hgroups : c.openGroups ≤ groupLimit) :
    Accounted c (statement.run c) := by
  obtain ⟨tokens, finish, groups⟩ := c
  cases h : statement.run ⟨tokens, finish, groups⟩ with
  | ok e c =>
    obtain ⟨s, rest, rfl, -, rfl, -, -⟩ := statement_sound hgroups h
    exact .ok s.tokens_ne_nil rfl rfl rfl
  | error fault c => exact (statement_halts hgroups h).accounted

/-- A formula is read just if the tokens begin with one that is not too deep where it
stands, and it is then read to its end. -/
theorem formula_eq_ok_iff (hgroups : c.openGroups ≤ groupLimit) {e : Expr} :
    formula.run c = .ok e c' ↔ ∃ (f : Formula) (rest : List Token),
      c.tokens = f.tokens ++ rest ∧ f.depth ≤ groupLimit - c.openGroups ∧ NoOperator rest ∧
      e = f.expr ∧ c' = { c with tokens := rest } := by
  obtain ⟨tokens, finish, groups⟩ := c
  constructor
  · intro h
    obtain ⟨f, rest, htokens, hrest, hc, he, hdepth⟩ := formula_sound hgroups h
    exact ⟨f, rest, htokens, Nat.le_sub_of_add_le' hdepth, hrest, he, hc⟩
  · rintro ⟨f, rest, rfl, hdepth, hrest, rfl, rfl⟩
    exact run_formula_tokens f hrest (Nat.add_le_of_le_sub' hgroups hdepth)

/-! ## The loop over statements -/

/-- The loop has gone round once for each of the statements, each time because a token was
left. -/
inductive Rounds : Cursor → Program → Cursor → Prop
  | zero (c : Cursor) : Rounds c [] c
  | succ {c c₁ c' : Cursor} {e : Expr} {later : Program} (hleft : c.isEmpty = false)
      (hstatement : statement.run c = .ok e c₁) (hlater : Rounds c₁ later c') :
      Rounds c (e :: later) c'

/-- A round takes a token at least, and leaves as many groups open as there were. -/
theorem statement_round {e : Expr} (hgroups : c.openGroups ≤ groupLimit)
    (h : statement.run c = .ok e c') :
    c'.tokens.length < c.tokens.length ∧ c'.openGroups ≤ groupLimit := by
  have haccounted := statement_accounted hgroups
  rw [h] at haccounted
  cases haccounted with
  | ok hne htokens hopen =>
    refine ⟨?_, hopen ▸ hgroups⟩
    have := List.length_pos_iff.mpr hne
    rw [htokens, List.length_append]
    omega

theorem Rounds.length_le {program : Program} (h : Rounds c program c')
    (hgroups : c.openGroups ≤ groupLimit) :
    program.length + c'.tokens.length ≤ c.tokens.length := by
  induction h with
  | zero c => exact Nat.le_of_eq (Nat.zero_add _)
  | succ _ hstatement _ ih =>
    obtain ⟨hshorter, hgroups₁⟩ := statement_round hgroups hstatement
    have hlater := ih hgroups₁
    rw [List.length_cons]
    omega

/-- The loop has ended, with an outcome and after so many statements: no token is left, or
the last of them failed. -/
inductive Ended (c : Cursor) : Nat → Except ParseFault Program → Prop
  | ok {program : Program} {c' : Cursor} (hrounds : Rounds c program c')
      (hempty : c'.isEmpty = true) : Ended c program.length (.ok program)
  | error {program : Program} {c' c₂ : Cursor} {fault : ParseFault}
      (hrounds : Rounds c program c') (hleft : c'.isEmpty = false)
      (hstatement : statement.run c' = .error fault c₂) :
      Ended c (program.length + 1) (.error fault)

theorem Ended.le_length {n : Nat} {outcome : Except ParseFault Program} (h : Ended c n outcome)
    (hgroups : c.openGroups ≤ groupLimit) : n ≤ c.tokens.length := by
  cases h with
  | ok hrounds hempty =>
    have hlength := hrounds.length_le hgroups
    omega
  | error hrounds hleft hstatement =>
    -- the statement that failed had a token to begin with
    have hlength := hrounds.length_le hgroups
    have hpos := List.length_pos_iff.mpr (List.isEmpty_eq_false_iff.mp hleft)
    omega

/-- The statements are read by a loop that goes round until no token is left or a statement
fails: the bound is never what ends it. -/
theorem statementsWithin_rounds (hbound : c.tokens.length ≤ bound)
    (hgroups : c.openGroups ≤ groupLimit) :
    ∃ program c', Rounds c program c' ∧
      ((c'.isEmpty = true ∧ (statementsWithin bound).run c = .ok program c') ∨
        (c'.isEmpty = false ∧ ∃ fault c₂, statement.run c' = .error fault c₂ ∧
          (statementsWithin bound).run c = .error fault c₂)) := by
  induction bound generalizing c with
  | zero =>
    have hempty : c.tokens = [] := List.length_eq_zero_iff.mp (Nat.le_zero.mp hbound)
    exact ⟨[], c, .zero c, .inl ⟨List.isEmpty_iff.mpr hempty, rfl⟩⟩
  | succ bound ih =>
    obtain ⟨tokens, finish, groups⟩ := c
    by_cases hne : tokens = []
    · subst hne
      exact ⟨[], _, .zero _, .inl ⟨rfl, run_statementsWithin_nil⟩⟩
    · have hleft : Cursor.isEmpty ⟨tokens, finish, groups⟩ = false := isEmpty_eq_false hne
      rw [run_statementsWithin_cons hne]
      cases hfirst : statement.run ⟨tokens, finish, groups⟩ with
      | error fault c₂ =>
        exact ⟨[], _, .zero _,
          .inr ⟨hleft, fault, c₂, hfirst, Reading.bind_eq_error.mpr (.inl hfirst)⟩⟩
      | ok first c₁ =>
        obtain ⟨hshorter, hgroups₁⟩ := statement_round hgroups hfirst
        obtain ⟨later, c', hrounds, hend⟩ := ih (by omega) hgroups₁
        refine ⟨first :: later, c', .succ hleft hfirst hrounds, ?_⟩
        rcases hend with ⟨hempty, hrun⟩ | ⟨hleft', fault, c₂, hfault, hrun⟩
        · refine .inl ⟨hempty, Reading.bind_eq_ok.mpr ⟨first, c₁, hfirst, ?_⟩⟩
          exact Reading.bind_eq_ok.mpr ⟨later, c', hrun, rfl⟩
        · refine .inr ⟨hleft', fault, c₂, hfault, ?_⟩
          refine Reading.bind_eq_error.mpr (.inr ⟨first, c₁, hfirst, ?_⟩)
          exact Reading.bind_eq_error.mpr (.inl hrun)

theorem ofTokens_ended (hne : tokens ≠ []) (finish : Nat) :
    ∃ n, Ended ⟨tokens, finish, 0⟩ n (ofTokens tokens finish) := by
  have hgroups : Cursor.openGroups ⟨tokens, finish, 0⟩ ≤ groupLimit := Nat.zero_le _
  obtain ⟨program, c, hrounds, ⟨hempty, hrun⟩ | ⟨hleft, fault, c', hfault, hrun⟩⟩ :=
    statementsWithin_rounds (Nat.le_refl _) hgroups
  · rw [(ofTokens_eq_ok hne).mpr ⟨c, hrun⟩]
    exact ⟨_, .ok hrounds hempty⟩
  · rw [(ofTokens_eq_error hne).mpr ⟨c', hrun⟩]
    exact ⟨_, .error hrounds hleft hfault⟩

/-- **Every reading accounts for what it does to the cursor.** A reading that gives a value
has consumed tokens and leaves as many groups open as there were. One that fails leaves
open what it has opened: the left parentheses that it consumed and that are not matched,
less the one that was refused if a group too many was to be opened. Never are more groups
open than allowed. A formula is read just if the tokens begin with one that fits in the
groups still to be had and that no operator follows, and then it is consumed and nothing
else. So the loop over the statements of a program ends after as many statements as there
are tokens, at the latest. -/
theorem readings_accounted :
    (∀ reading ∈ [atom, operand, formula, statement], ∀ c : Cursor,
      c.openGroups ≤ groupLimit → Accounted c (reading.run c)) ∧
    (∀ (c c' : Cursor) (e : Expr), c.openGroups ≤ groupLimit →
      (formula.run c = .ok e c' ↔ ∃ (f : Formula) (rest : List Token),
        c.tokens = f.tokens ++ rest ∧ f.depth ≤ groupLimit - c.openGroups ∧
        NoOperator rest ∧ e = f.expr ∧ c' = { c with tokens := rest })) ∧
    ∀ (tokens : List Token) (finish : Nat), tokens ≠ [] →
      ∃ n ≤ tokens.length, Ended ⟨tokens, finish, 0⟩ n (ofTokens tokens finish) := by
  refine ⟨?_, ?_, ?_⟩
  · intro reading hreading c hgroups
    simp only [List.mem_cons, List.not_mem_nil, or_false] at hreading
    rcases hreading with rfl | rfl | rfl | rfl
    · exact atom_accounted hgroups
    · exact operand_accounted hgroups
    · exact formula_accounted hgroups
    · exact statement_accounted hgroups
  · intro c c' e hgroups
    exact formula_eq_ok_iff hgroups
  · intro tokens finish hne
    obtain ⟨n, hended⟩ := ofTokens_ended hne finish
    exact ⟨n, hended.le_length (Nat.zero_le _), hended⟩

/-- The tokens of `x=((1)+((2`. -/
def refusedGroup : List Token :=
  [⟨.identifier, "x", 0⟩, ⟨.assign, "=", 1⟩, ⟨.leftParen, "(", 2⟩, ⟨.leftParen, "(", 3⟩,
    ⟨.number, "1", 4⟩, ⟨.rightParen, ")", 5⟩, ⟨.plus, "+", 6⟩, ⟨.leftParen, "(", 7⟩,
    ⟨.leftParen, "(", 8⟩, ⟨.number, "2", 9⟩]

/-- The tokens of `(1)x`. -/
def fittingGroup : List Token :=
  [⟨.leftParen, "(", 0⟩, ⟨.number, "1", 1⟩, ⟨.rightParen, ")", 2⟩, ⟨.identifier, "x", 3⟩]

/-- Two groups below the limit, the last parenthesis of the first tokens is refused. One group
below the limit, the formula of the others is read, and as a program they are two
statements. -/
theorem readings_accounted_atLimit :
    statement ∈ [atom, operand, formula, statement] ∧ 254 ≤ groupLimit ∧
    statement.run ⟨refusedGroup, 10, 254⟩ =
      .error (.tooDeep 8) ⟨[⟨.number, "2", 9⟩], 10, 256⟩ ∧
    Accounted ⟨refusedGroup, 10, 254⟩ (.error (.tooDeep 8) ⟨[⟨.number, "2", 9⟩], 10, 256⟩) ∧
    255 ≤ groupLimit ∧
    formula.run ⟨fittingGroup, 4, 255⟩ =
      .ok (.number "1" 1) ⟨[⟨.identifier, "x", 3⟩], 4, 255⟩ ∧
    (∃ (f : Formula) (rest : List Token), fittingGroup = f.tokens ++ rest ∧
      f.depth ≤ groupLimit - 255 ∧ NoOperator rest ∧ .number "1" 1 = f.expr ∧
      (⟨[⟨.identifier, "x", 3⟩], 4, 255⟩ : Cursor) = ⟨rest, 4, 255⟩) ∧
    fittingGroup ≠ [] ∧
    ofTokens fittingGroup 4 = .ok [.number "1" 1, .identifier "x" 3] ∧
    ∃ n ≤ 4, Ended ⟨fittingGroup, 4, 0⟩ n (.ok [.number "1" 1, .identifier "x" 3]) := by
  obtain ⟨hreadings, hformula, hloop⟩ := readings_accounted
  have hmem : statement ∈ [atom, operand, formula, statement] := by simp
  have hrefused : 254 ≤ groupLimit := by decide
  have hfitting : 255 ≤ groupLimit := by decide
  have hne : fittingGroup ≠ [] := List.cons_ne_nil _ _
  have hread : formula.run ⟨fittingGroup, 4, 255⟩ =
      .ok (.number "1" 1) ⟨[⟨.identifier, "x", 3⟩], 4, 255⟩ := rfl
  exact ⟨hmem, hrefused, rfl, hreadings _ hmem ⟨refusedGroup, 10, 254⟩ hrefused, hfitting, hread,
    (hformula _ _ _ hfitting).mp hread, hne, rfl, hloop fittingGroup 4 hne⟩

end Program

end LineCalc
