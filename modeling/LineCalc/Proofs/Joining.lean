import Mathlib
import LineCalc.Proofs.Cutting
import LineCalc.Proofs.Meaning
import LineCalc.Proofs.Positions

/-!
# Joining lines

Two lines written one after the other, with a blank between them, make one line.
Its tokens are those of both, its program is the statements of both, and running it
does what running the two in turn does (`Session.run_joined`). Since statements have
no end mark, this says that nothing of the first line reaches into the second.
-/

namespace LineCalc

/-! ## Tokens -/

/-- A text that stands later in the source has the same tokens, which stand later
by as much. -/
theorem Token.Cut.later {position : Nat} {text : List Char} {tokens : List Token}
    (h : Token.Cut position text tokens) (n : Nat) :
    Token.Cut (position + n) text (tokens.map (Token.mapPosition (· + n))) := by
  induction h with
  | nil position => exact .nil _
  | space hc _ ih =>
    refine .space hc ?_
    rw [Nat.add_right_comm]
    exact ih
  | word hw hstops _ ih =>
    refine .word hw hstops ?_
    rw [Nat.add_right_comm]
    exact ih

theorem Token.tokenize_joined {first gap second : String} {ts us : List Token}
    (hgap : Surface.IsGap gap.toList) (hne : gap.toList ≠ [])
    (hfirst : Token.tokenize first = .ok ts) (hsecond : Token.tokenize second = .ok us) :
    Token.tokenize (first ++ gap ++ second) =
      .ok (ts ++ us.map (Token.mapPosition (· + Text.byteSize (first ++ gap).toList))) := by
  have hcut := (Token.tokenize_eq_ok_iff_cut.mp hsecond).later (Text.byteSize (first ++ gap).toList)
  rw [String.toList_append] at hcut
  rw [Token.tokenize_eq_ok_iff_cut, String.toList_append, String.toList_append, List.append_assoc]
  exact (Token.tokenize_eq_ok_iff_cut.mp hfirst).append hgap hne hcut

/-! ## Programs -/

theorem Program.ofTokens_ne_nil {tokens : List Token} {finish : Nat} {program : Program}
    (h : Program.ofTokens tokens finish = .ok program) : program ≠ [] := by
  obtain ⟨d, -, -, rfl⟩ := Program.exists_derivation h
  intro hnil
  exact d.nonempty (List.map_eq_nil_iff.mp hnil)

/-- The tokens of two programs spell the statements of both, wherever the tokens of
the second one have been moved. -/
theorem Program.ofTokens_append {ts us : List Token} {m n : Nat} {p q : Program}
    (hp : Program.ofTokens ts m = .ok p) (hq : Program.ofTokens us n = .ok q) (f : Nat → Nat)
    (finish : Nat) :
    Program.ofTokens (ts ++ us.map (Token.mapPosition f)) finish =
      .ok (p ++ q.map (Expr.mapPosition f)) := by
  obtain ⟨d₁, hlimit₁, rfl, rfl⟩ := Program.exists_derivation hp
  obtain ⟨d₂, hlimit₂, rfl, rfl⟩ := Program.exists_derivation hq
  let d : Grammar.Derivation :=
    ⟨d₁.statements ++ (d₂.mapPosition f).statements, by simp [d₁.nonempty]⟩
  have htokens : d.tokens = d₁.tokens ++ d₂.tokens.map (Token.mapPosition f) := by
    rw [← d₂.tokens_mapPosition f]
    exact List.flatMap_append
  have hprogram : d.program = d₁.program ++ d₂.program.map (Expr.mapPosition f) := by
    rw [← d₂.program_mapPosition f]
    exact List.map_append
  have hlimit : d.WithinLimit := by
    refine d.withinLimit_iff.mpr ?_
    intro s hs
    rcases List.mem_append.mp hs with hs | hs
    · exact d₁.withinLimit_iff.mp hlimit₁ s hs
    · obtain ⟨s₂, hs₂, rfl⟩ := List.mem_map.mp hs
      rw [s₂.depth_mapPosition f]
      exact d₂.withinLimit_iff.mp hlimit₂ s₂ hs₂
  rw [← htokens, ← hprogram]
  exact Program.ofTokens_derivation d hlimit

/-! ## Evaluation -/

namespace Eval

theorem statements_append (last : Float) (p q : Program) :
    statements last (p ++ q) = statements last p >>= fun x => statements x q := by
  induction p generalizing last with
  | nil => simp [statements]
  | cons e later ih => simp only [List.cons_append, statements, ih, bind_assoc]

/-- The value of a program is that of its last statement, so what came before the
second part is of no use to it but for its bindings. -/
theorem program_append {p q : Program} (hp : p ≠ []) (hq : q ≠ []) :
    program (p ++ q) = program p >>= fun _ => program q := by
  obtain ⟨e, p, rfl⟩ := List.exists_cons_of_ne_nil hp
  obtain ⟨e', q, rfl⟩ := List.exists_cons_of_ne_nil hq
  simp only [List.cons_append, program, statements_append, bind_assoc]
  rfl

end Eval

namespace Session

/-- Go on with a session unless the line before has failed. -/
def andThen (outcome : Except Fault Float × Session)
    (next : Session → Except Fault Float × Session) : Except Fault Float × Session :=
  match outcome with
  | (.ok _, s) => next s
  | (.error fault, s) => (.error fault, s)

/-- Run a line, and another one if the first has not failed. -/
def runInTurn (s : Session) (first second : String) : Except Fault Float × Session :=
  andThen (s.run first) fun s => s.run second

theorem evaluate_append (s : Session) {p q : Program} (hp : p ≠ []) (hq : q ≠ []) :
    s.evaluate (p ++ q) = andThen (s.evaluate p) fun s => s.evaluate q := by
  rw [evaluate, Eval.program_append hp hq, EStateM.run_bind, evaluate]
  cases (Eval.program p).run s.bindings with
  | ok value b => rfl
  | error fault b => rfl

/-- How the second part goes depends on the first only through what can be seen of
it. -/
theorem observed_andThen {a b : Except Fault Float × Session}
    {next next' : Session → Except Fault Float × Session} (h : observed a = observed b)
    (hnext : ∀ s s' : Session, s.bindings = s'.bindings → observed (next s) = observed (next' s')) :
    observed (andThen a next) = observed (andThen b next') := by
  obtain ⟨result, s⟩ := a
  obtain ⟨result', s'⟩ := b
  obtain ⟨rfl, hbindings⟩ := Prod.mk.inj h
  cases result with
  | ok value => exact hnext s s' hbindings
  | error fault => exact h

/-- **Joining lines.** Two lines that are well formed on their own are joined by a
gap that is not empty. The tokens and statements of the second line then follow those
of the first, moved by what stands before them, and running the joined line does what
running both in turn does. -/
theorem run_joined (s : Session) (first second gap : String)
    (hgap : Surface.IsGap gap.toList) (hne : gap.toList ≠ []) {p q : Program}
    (hp : Program.ofSource first = .ok p) (hq : Program.ofSource second = .ok q) :
    (∃ ts us, Token.tokenize first = .ok ts ∧ Token.tokenize second = .ok us ∧
      Token.tokenize (first ++ gap ++ second) =
        .ok (ts ++ us.map (Token.mapPosition (· + Text.byteSize (first ++ gap).toList)))) ∧
    Program.ofSource (first ++ gap ++ second) =
      .ok (p ++ q.map (Expr.mapPosition (· + Text.byteSize (first ++ gap).toList))) ∧
    observed (s.run (first ++ gap ++ second)) = observed (s.runInTurn first second) := by
  obtain ⟨ts, hts, hparse⟩ := Program.ofSource_eq_ok.mp hp
  obtain ⟨us, hus, hparse'⟩ := Program.ofSource_eq_ok.mp hq
  have htokens := Token.tokenize_joined hgap hne hts hus
  have hsource : Program.ofSource (first ++ gap ++ second) =
      .ok (p ++ q.map (Expr.mapPosition (· + Text.byteSize (first ++ gap).toList))) :=
    Program.ofSource_eq_ok.mpr ⟨_, htokens, Program.ofTokens_append hparse hparse' _ _⟩
  have hmoved : q.map (Expr.mapPosition (· + Text.byteSize (first ++ gap).toList)) ≠ [] := by
    simp [Program.ofTokens_ne_nil hparse']
  refine ⟨⟨ts, us, hts, hus, htokens⟩, hsource, ?_⟩
  rw [observed_run hsource, evaluate_append s (Program.ofTokens_ne_nil hparse) hmoved, runInTurn]
  refine observed_andThen (observed_run hp s).symm ?_
  intro s₁ s₂ hbindings
  rw [observed_run hq, evaluate, Eval.program_mapPosition]
  exact observed_evaluate hbindings q

/-- The second line uses the name that the first one binds. -/
theorem run_joined_assignments :
    Program.ofSource "x = 1\t y = x+2" = .ok [.assign (.identifier "x" 0) (.number "1" 4) 2,
      .assign (.identifier "y" 7) (.arith .add (.identifier "x" 11) (.number "2" 13) 12) 9] ∧
    observed (Session.run {} "x = 1\t y = x+2") =
      observed (Session.runInTurn {} "x = 1" "y = x+2") := by
  have hgap : Surface.IsGap "\t ".toList := by simp [Surface.IsGap, Token.isSpace]
  have hp : Program.ofSource "x = 1" = .ok [.assign (.identifier "x" 0) (.number "1" 4) 2] := by
    cbv
  have hq : Program.ofSource "y = x+2" =
      .ok [.assign (.identifier "y" 0) (.arith .add (.identifier "x" 4) (.number "2" 6) 5) 2] := by
    cbv
  obtain ⟨-, hprogram, hrun⟩ := run_joined {} "x = 1" "y = x+2" "\t " hgap (by decide) hp hq
  exact ⟨hprogram, hrun⟩

end Session

end LineCalc
