import LineCalc.Proofs.Commuting
import LineCalc.Proofs.InOrder

/-!
# Names are read back

A line that is a name and nothing else asks for the value of that name
(`Session.run_name`). Lines bind only what the language takes for a name
(`Bindings.WellNamed.run`), since a target comes from a token of the line. So a session
that has only run lines has no value that cannot be asked for (`Session.runs_readBack`).
-/

namespace LineCalc

/-- The text is a name: a letter or an underscore, and then letters, underscores and
digits. -/
def Token.IsName (text : String) : Prop := Kind.identifier.pattern.rmatch text.toList = true

theorem Token.isName_iff {text : String} : IsName text ↔ Spelled ⟨.identifier, text⟩ := by
  rw [spelled_iff]
  exact ⟨fun h => ⟨by simp, h⟩, fun h => h.2⟩

/-! ## Names that a line binds -/

/-- Every target of an expression comes from one of its tokens. -/
theorem Expr.exists_token_of_mem_targets {e : Expr} {name : String} (h : name ∈ e.targets) :
    ∃ position, (⟨.identifier, name, position⟩ : Token) ∈ e.tokens := by
  induction e with
  | number text position => cases h
  | identifier name position => cases h
  | arith op left right position ihLeft ihRight =>
    rcases List.mem_append.mp h with h | h
    · exact (ihLeft h).imp fun place hplace => by simp [tokens_arith, hplace]
    · exact (ihRight h).imp fun place hplace => by simp [tokens_arith, hplace]
  | assign target value position ihTarget ihValue =>
    have htarget (h : name ∈ target.targets) :
        ∃ place, (⟨.identifier, name, place⟩ : Token) ∈ (assign target value position).tokens :=
      (ihTarget h).imp fun place hplace => by simp [tokens_assign, hplace]
    have hvalue (h : name ∈ value.targets) :
        ∃ place, (⟨.identifier, name, place⟩ : Token) ∈ (assign target value position).tokens :=
      (ihValue h).imp fun place hplace => by simp [tokens_assign, hplace]
    cases target with
    | identifier other place =>
      rcases List.mem_cons.mp h with rfl | h
      · exact ⟨place, by simp [tokens, inOrder, token]⟩
      · exact hvalue h
    | _ => exact (List.mem_append.mp h).elim htarget hvalue

theorem Program.isName_of_mem_targets {source : String} {program : Program}
    (h : ofSource source = .ok program) {name : String} (hname : name ∈ program.targets) :
    Token.IsName name := by
  obtain ⟨tokens, hscan, hparse⟩ := ofSource_eq_ok.mp h
  obtain ⟨d, -, rfl, rfl⟩ := exists_derivation hparse
  have hspelled := (Token.tokenize_eq_ok_iff_cut.mp hscan).spelled
  obtain ⟨e, he, hname⟩ := List.mem_flatMap.mp hname
  obtain ⟨position, htoken⟩ := e.exists_token_of_mem_targets hname
  have hmem : (⟨.identifier, name, position⟩ : Token) ∈ Grammar.ungrouped d.tokens := by
    rw [← d.tokens_program hspelled]
    exact List.mem_flatMap.mpr ⟨e, he, htoken⟩
  exact Token.isName_iff.mpr (hspelled _ (List.mem_of_mem_filter hmem))

/-- Every bound name is one that the language can spell. -/
def Bindings.WellNamed (b : Bindings) : Prop := ∀ name ∈ b.names, Token.IsName name

theorem Bindings.wellNamed_empty : empty.WellNamed := by
  intro name hname
  cases hname

/-- A line binds nothing that is no name. -/
theorem Bindings.WellNamed.run {s : Session} (h : s.bindings.WellNamed) (source : String) :
    (s.run source).2.bindings.WellNamed := by
  cases hsource : Program.ofSource source with
  | error fault =>
    rw [(Prod.mk.inj (Session.observed_run_of_error hsource s)).2]
    exact h
  | ok program =>
    intro name hname
    by_cases htarget : name ∈ program.targets
    · exact Program.isName_of_mem_targets hsource htarget
    · rw [mem_names_iff, Session.get?_run hsource s htarget, ← mem_names_iff] at hname
      exact h name hname

theorem Bindings.WellNamed.performAll {s : Session} (h : s.bindings.WellNamed)
    (lines : List String) : (s.performAll (lines.map .run)).bindings.WellNamed := by
  induction lines generalizing s with
  | nil => exact h
  | cons line later ih => exact ih (h.run line)

/-! ## Lines that are a name -/

/-- A name is a source with one token and one statement. -/
theorem Program.ofSource_name {name : String} (h : Token.IsName name) :
    ofSource name = .ok [.identifier name 0] := by
  have hstops : Token.Stops .identifier [] := fun c hc => by cases hc
  have hcut : Token.Cut 0 name.toList [⟨.identifier, name, 0⟩] := by
    rw [← List.append_nil name.toList]
    exact .word (Token.isName_iff.mp h) hstops (.nil _)
  exact ofSource_eq_ok.mpr ⟨_, Token.tokenize_eq_ok_iff_cut.mpr hcut, rfl⟩

namespace Session

/-- Running a name gives its value, or says that it is not known, and binds nothing. -/
theorem run_name {name : String} (h : Token.IsName name) (s : Session) :
    (∀ value, s.bindings.get? name = some value → (s.run name).1 = .ok value) ∧
    (s.bindings.get? name = none →
      ∃ hint, (s.run name).1 = .error (.eval (.unknownName name hint))) ∧
    (s.run name).2.bindings = s.bindings := by
  obtain ⟨hresult, hbindings⟩ := run_eq_program (Program.ofSource_name h) s
  have hprogram : (Eval.program [.identifier name 0]).run s.bindings =
      (Eval.identifier name).run s.bindings := by
    rw [Eval.program, Eval.expr_identifier]
    exact congrFun (bind_pure (Eval.identifier name)) s.bindings
  rw [hresult, hbindings, hprogram, Eval.identifier, EStateM.run_bind, EStateM.run_get]
  cases hvalue : s.bindings.get? name with
  | some x =>
    simp only [hvalue]
    refine ⟨?_, ?_, rfl⟩
    · rintro value ⟨⟩
      rfl
    · intro hnone
      cases hnone
  | none =>
    simp only [hvalue]
    refine ⟨?_, fun _ => ⟨_, rfl⟩, rfl⟩
    rintro value ⟨⟩

/-- **Every value can be asked for by its name.** After any lines, whether they succeeded or
not, all that is bound are names of the language. Running a name gives the value that it is
bound to, and else says that this name is not known; in neither case is anything bound. So
each binding is read by the line that is its name. -/
theorem runs_readBack (lines : List String) :
    let s := performAll {} (lines.map .run)
    (∀ name ∈ s.bindings.names, Token.IsName name) ∧
    (∀ name, Token.IsName name →
      (∀ value, s.bindings.get? name = some value → (s.run name).1 = .ok value) ∧
      (s.bindings.get? name = none →
        ∃ hint, (s.run name).1 = .error (.eval (.unknownName name hint))) ∧
      (s.run name).2.bindings = s.bindings) ∧
    ∀ name value, s.bindings.get? name = some value → (s.run name).1 = .ok value := by
  intro s
  have hnames : s.bindings.WellNamed := Bindings.wellNamed_empty.performAll lines
  refine ⟨hnames, fun name hname => run_name hname s, ?_⟩
  intro name value hvalue
  have hname : name ∈ s.bindings.names := by rw [Bindings.mem_names_iff, hvalue]; rfl
  exact (run_name (hnames name hname) s).1 value hvalue

/-- A line binds a name and then fails, and another one is not even scanned to its end. -/
theorem runs_readBack_failingLine :
    let s := performAll {} [.run "a_1 = 2 b", .run "b = a_1 #"]
    s.bindings.get? "a_1" = some 2 ∧ (s.run "a_1").1 = .ok 2 ∧
    Token.IsName "b" ∧ s.bindings.get? "b" = none ∧
    (∃ hint, (s.run "b").1 = .error (.eval (.unknownName "b" hint))) ∧
    (s.run "b").2.bindings = s.bindings := by
  intro s
  have hfirst : Program.ofSource "a_1 = 2 b" = .ok
      [.assign (.identifier "a_1" 0) (.number "2" 6) 4, .identifier "b" 8] := by cbv
  have hsecond : Program.ofSource "b = a_1 #" = .error (.scan (.unexpected '#' 8)) := by cbv
  have hbindings : s.bindings = Bindings.empty.insert "a_1" 2 := by
    show ((run {} "a_1 = 2 b").2.run "b = a_1 #").2.bindings = _
    have htwo : Decimal.read? "2" = some 2 := by decide +kernel
    rw [(Prod.mk.inj (observed_run_of_error hsecond _)).2, (run_eq_program hfirst {}).2,
      Eval.program, Eval.expr_assign, Eval.expr_number, Eval.number, htwo]
    rfl
  have ha : s.bindings.get? "a_1" = some 2 := by rw [hbindings]; rfl
  have hb : s.bindings.get? "b" = none := by rw [hbindings]; rfl
  have hname : Token.IsName "b" := Token.isName_iff.mpr (.identifier rfl rfl (by simp))
  obtain ⟨-, hread, hbound⟩ := runs_readBack ["a_1 = 2 b", "b = a_1 #"]
  obtain ⟨-, hunknown, hsame⟩ := hread "b" hname
  exact ⟨ha, hbound "a_1" 2 ha, hname, hb, hunknown hb, hsame⟩

end Session

end LineCalc
