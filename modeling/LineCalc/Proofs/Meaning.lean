import LineCalc.Proofs.Acceptance
import LineCalc.Proofs.Evaluation
import LineCalc.Proofs.Scanning
import LineCalc.Session

/-!
# The meaning of a line

Running a text does what the line that it is a way of writing does.

A derivation is read as a surface line by forgetting the places of its tokens and
the tokens of its parentheses (`surface`). Evaluating its expressions does what
the surface line does (`run_expr_statement`), and tokens that spell the words of a
surface line have a derivation that is read as that line
(`exists_statements`).
-/

namespace LineCalc.Grammar

open Surface (Word)

/-! ## Derivations as surface lines -/

def Atom.surface (a : Atom) : Surface.Atom :=
  if a.token.kind = .number then .number a.token.text else .name a.token.text

mutual

def Operand.surface : Operand → Surface.Operand
  | .atom a => .atom a.surface
  | .group _ first links _ => .group first.surface links.surface

def Links.surface : Links → Surface.Links
  | .nil => .nil
  | .cons sign right later => .cons sign.op right.surface later.surface

end

def Formula.surface (f : Formula) : Surface.Chain := ⟨f.first.surface, f.links.surface⟩

def Statement.surface : Statement → Surface.Statement
  | .formula f => .chain f.surface
  | .assignment target _ value => .assign target.surface value.surface

mutual

theorem Operand.depth_surface : ∀ o : Operand, o.surface.depth = o.depth
  | .atom _ => rfl
  | .group _ first links _ => by
    rw [Operand.surface, Surface.Operand.depth, Operand.depth_surface first,
      Links.depth_surface links, Operand.depth]

theorem Links.depth_surface : ∀ l : Links, l.surface.depth = l.depth
  | .nil => rfl
  | .cons _ right later => by
    rw [Links.surface, Surface.Links.depth, Operand.depth_surface right,
      Links.depth_surface later, Links.depth]

end

theorem Formula.depth_surface (f : Formula) : f.surface.depth = f.depth := by
  rw [Formula.surface, Surface.Chain.depth, Operand.depth_surface, Links.depth_surface,
    Formula.depth]

theorem Statement.depth_surface (s : Statement) : s.surface.depth = s.depth := by
  cases s with
  | formula f => exact f.depth_surface
  | assignment target sign value => exact value.depth_surface

/-! ## Evaluating a derivation -/

/-- A result and the bindings after it, as those of an evaluation. -/
def finished : Except EvalFault Float × Bindings → EStateM.Result EvalFault Bindings Float
  | (.ok x, b) => .ok x b
  | (.error fault, b) => .error fault b

theorem run_expr_atom (a : Atom) (b : Bindings) :
    (Eval.expr a.expr).run b = finished (a.surface.value b, b) := by
  unfold Atom.expr Atom.surface
  split
  · rw [Eval.expr_number, Eval.number, Surface.Atom.value]
    cases Decimal.read? a.token.text <;> rfl
  · rw [Eval.expr_identifier, Eval.identifier, Surface.Atom.value, EStateM.run_bind,
      EStateM.run_get]
    cases hvalue : b.get? a.token.text <;> simp only [hvalue] <;> rfl

theorem run_expr_arith {op : Operator} {left right : Expr} {position : Nat} {b : Bindings}
    {x y : Except EvalFault Float} (hleft : (Eval.expr left).run b = finished (x, b))
    (hright : (Eval.expr right).run b = finished (y, b)) :
    (Eval.expr (.arith op left right position)).run b = finished (do
      let x ← x
      let y ← y
      return op.apply x y, b) := by
  rw [Eval.expr_arith, EStateM.run_bind, hleft]
  cases x with
  | error fault => rfl
  | ok x =>
    show EStateM.run (Eval.expr right >>= _) b = _
    rw [EStateM.run_bind, hright]
    cases y <;> rfl

mutual

theorem run_expr_operand : ∀ (o : Operand) (b : Bindings),
    (Eval.expr o.expr).run b = finished (o.surface.value b, b)
  | .atom a, b => run_expr_atom a b
  | .group _ first links _, b => run_expr_links links (run_expr_operand first b)

/-- A chain of links is worked off from the value of what stands before it. -/
theorem run_expr_links : ∀ (l : Links) {left : Expr} {b : Bindings} {x : Except EvalFault Float},
    (Eval.expr left).run b = finished (x, b) →
    (Eval.expr (l.expr left)).run b = finished (x >>= l.surface.fold b, b)
  | .nil, left, b, x, h => by
    rw [Links.expr, h]
    cases x <;> rfl
  | .cons sign right later, left, b, x, h => by
    rw [Links.expr, run_expr_links later (run_expr_arith h (run_expr_operand right b))]
    cases x with
    | error fault => rfl
    | ok x =>
      simp only [Links.surface, Surface.Links.fold]
      cases right.surface.value b <;> rfl

end

theorem run_expr_formula (f : Formula) (b : Bindings) :
    (Eval.expr f.expr).run b = finished (f.surface.value b, b) :=
  run_expr_links f.links (run_expr_operand f.first b)

theorem render_number (text : String) (position : Nat) :
    (Expr.number text position).render = text := by
  simp [Expr.render, Expr.renderSpine, Expr.openings]

theorem run_expr_statement (s : Statement) (b : Bindings) :
    (Eval.expr s.expr).run b = finished (s.surface.exec b) := by
  cases s with
  | formula f => exact run_expr_formula f b
  | assignment target sign value =>
    rw [Statement.expr, Eval.expr_assign, Statement.surface]
    unfold Atom.expr Atom.surface
    split
    · -- the target is looked at before the value, so nothing is evaluated
      rw [Eval.bindTarget, render_number]
      · rfl
      · simp
    · rw [Eval.bindTarget, Surface.Statement.exec, EStateM.run_bind, run_expr_formula]
      cases value.surface.value b <;> rfl

theorem run_program (first : Statement) (later : List Statement) (b : Bindings) :
    (Eval.program ((first :: later).map Statement.expr)).run b =
      finished (Surface.runStatements first.surface (later.map Statement.surface) b) := by
  induction later generalizing first b with
  | nil =>
    show EStateM.run (Eval.expr first.expr >>= fun x => Eval.statements x []) b = _
    rw [EStateM.run_bind, run_expr_statement, List.map_nil, Surface.runStatements]
    obtain ⟨value, b'⟩ := first.surface.exec b
    cases value <;> rfl
  | cons next later ih =>
    show EStateM.run (Eval.expr first.expr >>= fun _ =>
        Eval.program ((next :: later).map Statement.expr)) b =
      finished (Surface.runStatements first.surface
        (next.surface :: later.map Statement.surface) b)
    rw [EStateM.run_bind, run_expr_statement, Surface.runStatements]
    obtain ⟨value, b'⟩ := first.surface.exec b
    cases value with
    | error fault => rfl
    | ok x => exact ih next b'

/-! ## The derivation of a surface line -/

section
variable {t : Token} {kind : Token.Kind} {text : String}

theorem exists_atom {a : Surface.Atom} (h : t.word = a.word) :
    ∃ g : Atom, g.token = t ∧ g.surface = a := by
  obtain ⟨kind, text, position⟩ := t
  cases a with
  | number text =>
    cases h
    exact ⟨⟨_, rfl⟩, rfl, rfl⟩
  | name text =>
    cases h
    exact ⟨⟨_, rfl⟩, rfl, rfl⟩

theorem exists_mark (h : t.word = ⟨kind, text⟩) : ∃ m : Mark kind, m.token = t :=
  ⟨⟨t, congrArg Word.kind h⟩, rfl⟩

theorem exists_sign {op : Operator} (h : t.word = Surface.operatorWord op) :
    ∃ s : Sign, s.token = t ∧ s.op = op := by
  have hkind : t.kind = (Surface.operatorWord op).kind := congrArg Word.kind h
  have hspells : t.kind.operator? = some op := by
    rw [hkind]
    cases op <;> rfl
  exact ⟨⟨t, op, hspells⟩, rfl, rfl⟩

end

mutual

/-- Tokens that spell the words of an operand derive it. -/
theorem exists_operand : ∀ (o : Surface.Operand) {tokens : List Token},
    tokens.map Token.word = o.words → ∃ g : Operand, g.tokens = tokens ∧ g.surface = o
  | .atom a, tokens, h => by
    obtain ⟨t, rest, rfl, ht, hrest⟩ := List.map_eq_cons_iff.mp h
    obtain rfl := List.map_eq_nil_iff.mp hrest
    obtain ⟨g, rfl, rfl⟩ := exists_atom ht
    exact ⟨.atom g, rfl, rfl⟩
  | .group first links, tokens, h => by
    obtain ⟨t, rest, rfl, ht, hrest⟩ := List.map_eq_cons_iff.mp h
    obtain ⟨inner, after, rfl, hfirst, hafter⟩ := List.map_eq_append_iff.mp hrest
    obtain ⟨middle, last, rfl, hlinks, hlast⟩ := List.map_eq_append_iff.mp hafter
    obtain ⟨u, nothing, rfl, hu, hnothing⟩ := List.map_eq_cons_iff.mp hlast
    obtain rfl := List.map_eq_nil_iff.mp hnothing
    obtain ⟨p, rfl⟩ := exists_mark ht
    obtain ⟨q, rfl⟩ := exists_mark hu
    obtain ⟨g, rfl, rfl⟩ := exists_operand first hfirst
    obtain ⟨l, rfl, rfl⟩ := exists_links links hlinks
    exact ⟨.group p g l q, rfl, rfl⟩

theorem exists_links : ∀ (l : Surface.Links) {tokens : List Token},
    tokens.map Token.word = l.words → ∃ g : Links, g.tokens = tokens ∧ g.surface = l
  | .nil, tokens, h => by
    obtain rfl := List.map_eq_nil_iff.mp h
    exact ⟨.nil, rfl, rfl⟩
  | .cons op right later, tokens, h => by
    obtain ⟨t, rest, rfl, ht, hrest⟩ := List.map_eq_cons_iff.mp h
    obtain ⟨middle, last, rfl, hright, hlater⟩ := List.map_eq_append_iff.mp hrest
    obtain ⟨sign, rfl, rfl⟩ := exists_sign ht
    obtain ⟨g, rfl, rfl⟩ := exists_operand right hright
    obtain ⟨l, rfl, rfl⟩ := exists_links later hlater
    exact ⟨.cons sign g l, rfl, rfl⟩

end

theorem exists_formula (c : Surface.Chain) {tokens : List Token}
    (h : tokens.map Token.word = c.words) : ∃ f : Formula, f.tokens = tokens ∧ f.surface = c := by
  obtain ⟨inner, after, rfl, hfirst, hlinks⟩ := List.map_eq_append_iff.mp h
  obtain ⟨g, rfl, hg⟩ := exists_operand c.first hfirst
  obtain ⟨l, rfl, hl⟩ := exists_links c.links hlinks
  refine ⟨⟨g, l⟩, rfl, ?_⟩
  rw [Formula.surface, hg, hl]

theorem exists_statement (s : Surface.Statement) {tokens : List Token}
    (h : tokens.map Token.word = s.words) :
    ∃ g : Statement, g.tokens = tokens ∧ g.surface = s := by
  cases s with
  | chain c =>
    obtain ⟨f, rfl, rfl⟩ := exists_formula c h
    exact ⟨.formula f, rfl, rfl⟩
  | assign target value =>
    obtain ⟨t, rest, rfl, ht, hrest⟩ := List.map_eq_cons_iff.mp h
    obtain ⟨u, rest, rfl, hu, hvalue⟩ := List.map_eq_cons_iff.mp hrest
    obtain ⟨a, rfl, rfl⟩ := exists_atom ht
    obtain ⟨m, rfl⟩ := exists_mark hu
    obtain ⟨f, rfl, rfl⟩ := exists_formula value hvalue
    exact ⟨.assignment a m f, rfl, rfl⟩

theorem exists_statements (ss : List Surface.Statement) {tokens : List Token}
    (h : tokens.map Token.word = ss.flatMap Surface.Statement.words) :
    ∃ gs : List Statement, gs.flatMap Statement.tokens = tokens ∧
      gs.map Statement.surface = ss := by
  induction ss generalizing tokens with
  | nil =>
    obtain rfl := List.map_eq_nil_iff.mp h
    exact ⟨[], rfl, rfl⟩
  | cons s later ih =>
    obtain ⟨inner, after, rfl, hs, hlater⟩ := List.map_eq_append_iff.mp h
    obtain ⟨g, rfl, rfl⟩ := exists_statement s hs
    obtain ⟨gs, rfl, rfl⟩ := ih hlater
    exact ⟨g :: gs, rfl, rfl⟩

end LineCalc.Grammar

namespace LineCalc.Surface

/-! ## Words of a line -/

theorem Atom.spelled_word {a : Atom} (h : a.Spelled) : Token.Spelled a.word := by
  cases a with
  | number text =>
    obtain ⟨hne, hall⟩ := h
    obtain ⟨first, more, htext⟩ := List.exists_cons_of_ne_nil hne
    rw [htext] at hall
    exact .number htext (hall first (by simp)) (fun c hc => hall c (by simp [hc]))
  | name text =>
    obtain ⟨first, more, htext, hfirst, hmore⟩ := h
    exact .identifier htext hfirst hmore

theorem spelled_operatorWord (op : Operator) : Token.Spelled (operatorWord op) := by
  cases op <;> exact .mark rfl rfl

mutual

theorem Operand.spelled_words : ∀ {o : Operand}, o.Spelled → ∀ w ∈ o.words, Token.Spelled w
  | .atom a, h, w, hw => by
    obtain rfl := List.mem_singleton.mp hw
    exact Atom.spelled_word h
  | .group first links, h, w, hw => by
    simp only [Operand.words, List.mem_cons, List.mem_append, List.not_mem_nil, or_false] at hw
    rcases hw with rfl | hw | hw | rfl
    · exact .mark rfl rfl
    · exact Operand.spelled_words h.1 w hw
    · exact Links.spelled_words h.2 w hw
    · exact .mark rfl rfl

theorem Links.spelled_words : ∀ {l : Links}, l.Spelled → ∀ w ∈ l.words, Token.Spelled w
  | .nil, _, w, hw => by cases hw
  | .cons op right later, h, w, hw => by
    simp only [Links.words, List.mem_cons, List.mem_append] at hw
    rcases hw with rfl | hw | hw
    · exact spelled_operatorWord op
    · exact Operand.spelled_words h.1 w hw
    · exact Links.spelled_words h.2 w hw

end

theorem Chain.spelled_words {c : Chain} (h : c.Spelled) : ∀ w ∈ c.words, Token.Spelled w := by
  intro w hw
  rcases List.mem_append.mp hw with hw | hw
  · exact Operand.spelled_words h.1 w hw
  · exact Links.spelled_words h.2 w hw

theorem Statement.spelled_words {s : Statement} (h : s.Spelled) :
    ∀ w ∈ s.words, Token.Spelled w := by
  intro w hw
  cases s with
  | chain c => exact Chain.spelled_words h w hw
  | assign target value =>
    simp only [Statement.words, List.mem_cons] at hw
    rcases hw with rfl | rfl | hw
    · exact Atom.spelled_word h.1
    · exact .mark rfl rfl
    · exact Chain.spelled_words h.2 w hw

theorem Line.spelled_words (line : Line) : ∀ w ∈ line.words, Token.Spelled w := by
  intro w hw
  obtain ⟨s, hs, hw⟩ := List.mem_flatMap.mp hw
  exact Statement.spelled_words (line.spelled s hs) w hw

end LineCalc.Surface

namespace LineCalc

theorem Program.ofSource_of_tokens {source : String} {tokens : List Token}
    (h : Token.tokenize source = .ok tokens) :
    Program.ofSource source =
      (Program.ofTokens tokens (Text.byteSize source.toList)).mapError .parse := by
  rw [Program.ofSource, h]

/-- A source spells a program if its tokens do. -/
theorem Program.ofSource_eq_ok {source : String} {program : Program} :
    Program.ofSource source = .ok program ↔
      ∃ tokens, Token.tokenize source = .ok tokens ∧
        Program.ofTokens tokens (Text.byteSize source.toList) = .ok program := by
  constructor
  · intro h
    cases hscan : Token.tokenize source with
    | error fault =>
      rw [Program.ofSource, hscan] at h
      cases h
    | ok tokens =>
      rw [Program.ofSource_of_tokens hscan] at h
      cases hparse : Program.ofTokens tokens (Text.byteSize source.toList) with
      | error fault =>
        rw [hparse] at h
        cases h
      | ok p =>
        rw [hparse] at h
        cases h
        exact ⟨tokens, rfl, hparse⟩
  · rintro ⟨tokens, hscan, hparse⟩
    rw [Program.ofSource_of_tokens hscan, hparse]
    rfl

namespace Session

open Grammar (Statement Derivation)

/-! ## Running a text -/

theorem evaluate_eq {s : Session} {program : Program} {result : Except EvalFault Float × Bindings}
    (h : (Eval.program program).run s.bindings = Grammar.finished result) :
    (s.evaluate program).1 = result.1.mapError .eval ∧
      (s.evaluate program).2.bindings = result.2 := by
  obtain ⟨value, bindings⟩ := result
  rw [evaluate, h]
  cases value <;> exact ⟨rfl, rfl⟩

section
variable {s : Session} {text : String} {tokens : List Token}

theorem run_of_scanFault {fault : ScanFault} (hscan : Token.scan text = ⟨tokens, some fault⟩) :
    s.run text = (.error (.scan fault), { s with scanned := tokens }) := by
  rw [run, scan, hscan]
  rfl

theorem run_of_parseFault {fault : ParseFault} (hscan : Token.scan text = ⟨tokens, none⟩)
    (hparse : Program.ofTokens tokens (Text.byteSize text.toList) = .error fault) :
    s.run text = (.error (.parse fault), { s with scanned := tokens }) := by
  rw [run, scan, hscan]
  simp only [Token.Scan.result, hparse]

theorem run_of_program {program : Program} (hscan : Token.scan text = ⟨tokens, none⟩)
    (hparse : Program.ofTokens tokens (Text.byteSize text.toList) = .ok program) :
    s.run text = evaluate { s with scanned := tokens } program := by
  rw [run, scan, hscan]
  simp only [Token.Scan.result, hparse]

end

/-- What can be seen of a run: its result and the bindings after it. -/
def observed (outcome : Except Fault Float × Session) : Except Fault Float × Bindings :=
  (outcome.1, outcome.2.bindings)

theorem observed_evaluate {s s' : Session} (h : s.bindings = s'.bindings) (program : Program) :
    observed (s.evaluate program) = observed (s'.evaluate program) := by
  rw [evaluate, evaluate, h]
  cases (Eval.program program).run s'.bindings <;> rfl

/-- A line that spells a program does what the program does. -/
theorem observed_run {text : String} {program : Program}
    (h : Program.ofSource text = .ok program) (s : Session) :
    observed (s.run text) = observed (s.evaluate program) := by
  obtain ⟨tokens, hscan, hparse⟩ := Program.ofSource_eq_ok.mp h
  rw [run_of_program (Token.tokenize_eq_ok.mp hscan) hparse]
  -- the tokens that are kept play no part
  apply observed_evaluate
  rfl

/-- A line that spells no program ends with the fault that says so, and binds nothing. -/
theorem observed_run_of_error {text : String} {fault : Fault}
    (h : Program.ofSource text = .error fault) (s : Session) :
    observed (s.run text) = (.error fault, s.bindings) := by
  cases hscan : Token.scan text with
  | mk tokens stopped =>
    cases stopped with
    | some stop =>
      rw [Program.ofSource, Token.tokenize, hscan] at h
      cases h
      rw [run_of_scanFault hscan]
      rfl
    | none =>
      rw [Program.ofSource_of_tokens (Token.tokenize_eq_ok.mpr hscan)] at h
      cases hparse : Program.ofTokens tokens (Text.byteSize text.toList) with
      | error reason =>
        rw [hparse] at h
        cases h
        rw [run_of_parseFault hscan hparse]
        rfl
      | ok program =>
        rw [hparse] at h
        cases h

/-- A source that spells a program is read as statements, and runs as they do. -/
theorem exists_runStatements {source : String} {program : Program}
    (h : Program.ofSource source = .ok program) :
    ∃ first later, Token.tokenize source = .ok ((first :: later).flatMap Statement.tokens) ∧
      program = (first :: later).map Statement.expr ∧
      ∀ s : Session,
        let result := Surface.runStatements first.surface (later.map Statement.surface) s.bindings
        (s.run source).1 = result.1.mapError .eval ∧ (s.run source).2.bindings = result.2 := by
  obtain ⟨tokens, hscan, hparse⟩ := Program.ofSource_eq_ok.mp h
  obtain ⟨⟨gs, hne⟩, -, rfl, rfl⟩ := Program.exists_derivation hparse
  obtain ⟨first, later, rfl⟩ := List.exists_cons_of_ne_nil hne
  refine ⟨first, later, hscan, rfl, ?_⟩
  intro s
  obtain ⟨hvalue, hbindings⟩ := Prod.mk.inj (observed_run h s)
  rw [hvalue, hbindings]
  exact evaluate_eq (Grammar.run_program first later s.bindings)

/-- **The meaning of a line.** Running any way of writing a line has the result
of the line itself, and leaves the same bindings. -/
theorem run_written (s : Session) (line : Surface.Line) (text : String)
    (h : Surface.Written line.words text) :
    (s.run text).1 = (line.run s.bindings).1.mapError .eval ∧
      (s.run text).2.bindings = (line.run s.bindings).2 := by
  obtain ⟨tokens, hscan, hwords⟩ := Token.scan_written h line.spelled_words
  obtain ⟨gs, htokens, hsurface⟩ := Grammar.exists_statements _ hwords
  obtain ⟨first, later, rfl, hfirst, hlater⟩ := List.map_eq_cons_iff.mp hsurface
  -- the tokens of the text have a derivation that is read as the line
  let d : Derivation := ⟨first :: later, List.cons_ne_nil _ _⟩
  have hlimit : d.WithinLimit := by
    refine d.withinLimit_iff.mpr ?_
    intro g hg
    rw [← g.depth_surface]
    refine line.depth_le _ ?_
    rw [← hsurface]
    exact List.mem_map_of_mem hg
  have hparse : Program.ofTokens tokens (Text.byteSize text.toList) = .ok d.program := by
    rw [← htokens]
    exact Program.ofTokens_derivation d hlimit
  rw [run_of_program hscan hparse, Surface.Line.run, ← hfirst, ← hlater]
  exact evaluate_eq (Grammar.run_program first later s.bindings)

end Session

end LineCalc

namespace LineCalc.Surface

/-- The line `x = (1 + 2) * 3 x`. -/
def scaledSum : Line where
  first := .assign (.name "x") ⟨.group (.atom (.number "1"))
    (.cons .add (.atom (.number "2")) .nil), .cons .multiply (.atom (.number "3")) .nil⟩
  later := [.chain ⟨.atom (.name "x"), .nil⟩]
  spelled := by
    have hx : (Atom.name "x").Spelled := ⟨'x', [], rfl, rfl, by simp⟩
    have hnumber : ∀ digit ∈ ["1", "2", "3"], (Atom.number digit).Spelled := by
      simp [Atom.Spelled, Token.isNumeral]
    simp [Statement.Spelled, Chain.Spelled, Operand.Spelled, Links.Spelled, hx, hnumber]
  depth_le := by decide

theorem written_scaledSum : Written scaledSum.words " x=(1+ 2)*3\t x" := by
  have hgap : ∀ gap ∈ [[], [' '], ['\t', ' ']], IsGap gap := by
    simp [IsGap, Token.isSpace]
  exact ⟨[' '], "x=(1+ 2)*3\t x".toList, hgap _ (by simp),
    .cons _ (hgap [] (by simp)) (by decide) <|
    .cons _ (hgap [] (by simp)) (by decide) <|
    .cons _ (hgap [] (by simp)) (by decide) <|
    .cons _ (hgap [] (by simp)) (by decide) <|
    .cons _ (hgap [' '] (by simp)) (by decide) <|
    .cons _ (hgap [] (by simp)) (by decide) <|
    .cons _ (hgap [] (by simp)) (by decide) <|
    .cons _ (hgap [] (by simp)) (by decide) <|
    .cons _ (hgap ['\t', ' '] (by simp)) (by decide) <|
    .cons _ (hgap [] (by simp)) (by decide) .nil, rfl⟩

end LineCalc.Surface

theorem LineCalc.Session.run_scaledSum :
    Surface.Written Surface.scaledSum.words " x=(1+ 2)*3\t x" ∧
      (Session.run {} " x=(1+ 2)*3\t x").1 =
        (Surface.scaledSum.run .empty).1.mapError .eval ∧
      (Session.run {} " x=(1+ 2)*3\t x").2.bindings = (Surface.scaledSum.run .empty).2 :=
  ⟨Surface.written_scaledSum, Session.run_written {} _ _ Surface.written_scaledSum⟩
