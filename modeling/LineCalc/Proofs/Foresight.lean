import Mathlib
import LineCalc.Proofs.Cutting
import LineCalc.Proofs.Meaning

/-!
# Faults that the tokens show

Whether a line succeeds can be told from its tokens and the names that are bound, without
computing anything. A scan of the tokens from the left keeps the names that have a value by
then (`Known`). The first token at fault is

* a number before `=`, which cannot be assigned to;
* another number with no digit where one is needed;
* a name that is read while it has no value.

A name gets its value when the statement that assigns to it has ended, and where that is
can be seen from two tokens: an operand has ended, and another one begins or nothing
follows.

Main statement: a run ends with the fault of that token, and succeeds if there is none
(`Session.run_foreseen`).
-/

namespace LineCalc

/-! ## Literals without a digit -/

namespace Decimal

/-- A point alone, or two points, where the first digit has to come. -/
def lacksDigit (text : String) : Bool :=
  text.toList == ['.'] || ['.', '.'].isPrefixOf text.toList

theorem ne_point_of_isDigit {c : Char} (h : c.isDigit = true) : c ≠ '.' := by
  rintro rfl
  cases h

theorem Literal.isBare_leading_digit {first : Char} (h : first.isDigit = true) (more : List Char) :
    (leading (first :: more)).isBare = false := by
  have hwhole : (leading (first :: more)).whole = first :: more.takeWhile Char.isDigit := by
    unfold leading
    split <;> simp [h]
  rw [isBare, hwhole]
  rfl

theorem Literal.isBare_leading_point (more : List Char) :
    (leading ('.' :: more)).isBare = (more.takeWhile Char.isDigit).isEmpty := rfl

/-- A literal of digits and points has a value unless it lacks a digit. -/
theorem read?_eq_none_iff {text : String} {first : Char} {more : List Char}
    (htext : text.toList = first :: more) (hfirst : Token.isNumeral first = true)
    (hmore : ∀ c ∈ more, Token.isNumeral c = true) :
    read? text = none ↔ lacksDigit text = true := by
  have hbare : read? text = none ↔ (Literal.leading text.toList).isBare = true := by
    rw [read?]
    split <;> simp_all
  rw [hbare, lacksDigit, htext]
  rcases (Bool.or_eq_true _ _).mp hfirst with hdigit | hpoint
  · have hne := ne_point_of_isDigit hdigit
    simp [Literal.isBare_leading_digit hdigit, hne, hne.symm, List.isPrefixOf]
  · obtain rfl : first = '.' := eq_of_beq hpoint
    rw [Literal.isBare_leading_point]
    cases more with
    | nil => simp
    | cons second rest =>
      -- what follows the point is a digit or another point
      rcases (Bool.or_eq_true _ _).mp (hmore second (by simp)) with hdigit | hpoint
      · have hne := ne_point_of_isDigit hdigit
        simp [hdigit, hne.symm, List.isPrefixOf]
      · obtain rfl : second = '.' := eq_of_beq hpoint
        simp [List.isPrefixOf]

end Decimal

/-! ## The scan -/

/-- What is known at a token, from those before it. -/
structure Known where
  /-- The names that have a value. -/
  names : List String
  /-- The name that gets a value when the statement has ended. -/
  target : Option String := none

namespace Known

/-- Whether `=` comes next. -/
def assignFollows (rest : List Token) : Bool := rest.head?.any fun t => t.kind == .assign

/-- Whether a statement that has an operand last is at its end. -/
def endsBefore (rest : List Token) : Bool :=
  rest.head?.all fun t => t.kind.isAtom || t.kind == .leftParen

/-- The names with one more. -/
def define (name : String) (names : List String) : List String :=
  if name ∈ names then names else names ++ [name]

/-- After an operand: if the statement is at its end, its target has a value. -/
def settled (k : Known) (rest : List Token) : Known :=
  if endsBefore rest then ⟨k.target.elim k.names (define · k.names), none⟩ else k

/-- The fault of a token, `rest` being the tokens after it. -/
def fault? (k : Known) (t : Token) (rest : List Token) : Option EvalFault :=
  match t.kind with
  | .number =>
    if assignFollows rest then some (.invalidTarget t.text)
    else if Decimal.lacksDigit t.text then some (.malformedNumber t.text)
    else none
  | .identifier =>
    if assignFollows rest || t.text ∈ k.names then none
    else some (.unknownName t.text
      (NearestName.closestWithin Eval.suggestionLimit t.text k.names))
  | _ => none

/-- What is known after a token, `rest` being the tokens after it. -/
def after (k : Known) (t : Token) (rest : List Token) : Known :=
  if t.kind.isAtom && assignFollows rest then { k with target := some t.text }
  else if t.kind.isAtom || t.kind == .rightParen then k.settled rest
  else k

/-- The fault of the first token that has one. -/
def firstFault : Known → List Token → Option EvalFault
  | _, [] => none
  | k, t :: rest => (k.fault? t rest).or (firstFault (k.after t rest) rest)

/-! ### Single tokens -/

section
variable {k : Known} {t : Token} {rest : List Token}

theorem assignFollows_eq_false (h : Program.NotNext .assign rest) : assignFollows rest = false := by
  cases rest with
  | nil => rfl
  | cons u later => exact beq_false_of_ne (h u rfl)

theorem endsBefore_eq_true (h : Grammar.AtBoundary rest) : endsBefore rest = true := by
  cases rest with
  | nil => rfl
  | cons u later =>
    rcases h u rfl with hatom | hparen
    · simp [endsBefore, hatom]
    · simp [endsBefore, hparen]

theorem settled_of_not_endsBefore (h : endsBefore rest = false) : k.settled rest = k := by
  rw [settled, if_neg (by simp [h])]

/-- A token that is no operand and ends none leaves everything as it is. -/
theorem firstFault_cons (hatom : t.kind.isAtom = false) (hclosing : t.kind ≠ .rightParen) :
    firstFault k (t :: rest) = firstFault k rest := by
  have hfault : k.fault? t rest = none := by
    unfold fault?
    split <;> simp_all [Token.Kind.isAtom]
  have hafter : k.after t rest = k := by simp [after, hatom, hclosing]
  rw [firstFault, hfault, hafter]
  rfl

theorem firstFault_rightParen (q : Grammar.Mark .rightParen) :
    firstFault k (q.token :: rest) = firstFault (k.settled rest) rest := by
  have hfault : k.fault? q.token rest = none := by simp [fault?, q.hasKind]
  have hafter : k.after q.token rest = k.settled rest := by
    simp [after, q.hasKind, Token.Kind.isAtom]
  rw [firstFault, hfault, hafter]
  rfl

theorem firstFault_atom (a : Grammar.Atom) (h : Program.NotNext .assign rest) :
    firstFault k (a.token :: rest) =
      (k.fault? a.token rest).or (firstFault (k.settled rest) rest) := by
  rw [firstFault, after, assignFollows_eq_false h]
  simp [a.isAtom]

end

/-! ## The scan and the evaluation -/

/-- The fault of a result, if it is one. -/
def failure? : Except EvalFault Float → Option EvalFault
  | .ok _ => none
  | .error fault => some fault

/-- A number or a name that is read has the fault that evaluating it has. -/
theorem fault?_atom {a : Grammar.Atom} (hspelled : Token.Spelled a.token.word) {b : Bindings}
    {k : Known} (hk : k.names = b.names) {rest : List Token} (h : Program.NotNext .assign rest) :
    k.fault? a.token rest = failure? (a.surface.value b) := by
  obtain ⟨⟨kind, text, position⟩, hatom⟩ := a
  cases hspelled with
  | number htext hfirst hmore =>
    have hread := Decimal.read?_eq_none_iff htext hfirst hmore
    show k.fault? ⟨.number, text, position⟩ rest = failure? (Surface.Atom.value b (.number text))
    rw [fault?, Surface.Atom.value]
    cases hvalue : Decimal.read? text with
    | none => simp [hread.mp hvalue, assignFollows_eq_false h, failure?]
    | some value =>
      have hdigit : ¬ Decimal.lacksDigit text = true := by simp [← hread, hvalue]
      simp [hdigit, assignFollows_eq_false h, failure?]
  | identifier htext hfirst hmore =>
    have hbound : text ∈ k.names ↔ (b.get? text).isSome = true := by
      rw [hk, Bindings.mem_names_iff]
    show k.fault? ⟨.identifier, text, position⟩ rest = failure? (Surface.Atom.value b (.name text))
    rw [fault?, Surface.Atom.value]
    cases hvalue : b.get? text with
    | none =>
      have hunbound : ¬ text ∈ k.names := by simp [hbound, hvalue]
      simp [hunbound, ← hk, assignFollows_eq_false h, failure?]
    | some value =>
      have hmem : text ∈ k.names := by simp [hbound, hvalue]
      simp [hmem, failure?]
  | mark htext hfirst =>
    -- a mark is no atom
    unfold Token.mark? at hfirst
    split at hfirst <;> cases hfirst <;> cases hatom

end Known

namespace Grammar

open Known

variable {b : Bindings} {rest : List Token}

/-! ### Operands and chains -/

theorem Sign.kind_ne {kind : Token.Kind} (s : Sign) (h : kind.operator? = none) :
    s.token.kind ≠ kind := by
  intro hkind
  have hspells := s.spells
  rw [hkind, h] at hspells
  cases hspells

theorem Links.notNext_assign (l : Links) (h : Program.NotNext .assign rest) :
    Program.NotNext .assign (l.tokens ++ rest) := by
  cases l with
  | nil => exact h
  | cons sign right later =>
    intro t ht
    cases ht
    exact sign.kind_ne rfl

theorem Mark.notNext_assign (q : Mark .rightParen) : Program.NotNext .assign (q.token :: rest) := by
  intro t ht hassign
  cases ht
  rw [q.hasKind] at hassign
  cases hassign

theorem Sign.isAtom_eq_false (s : Sign) : s.token.kind.isAtom = false := by
  refine Bool.eq_false_iff.mpr ?_
  intro hatom
  exact s.kind_ne (operator?_of_isAtom hatom) rfl

theorem Sign.endsBefore (s : Sign) : endsBefore (s.token :: rest) = false := by
  have hparen : s.token.kind ≠ .leftParen := s.kind_ne rfl
  simp [Known.endsBefore, s.isAtom_eq_false, hparen]

theorem Mark.endsBefore (q : Mark .rightParen) : endsBefore (q.token :: rest) = false := by
  simp [Known.endsBefore, q.hasKind, Token.Kind.isAtom]

mutual

/-- The tokens of an operand show the fault of its evaluation. Without one, the scan goes
on after it. -/
theorem Operand.firstFault_tokens : ∀ (o : Operand) {k : Known} {rest : List Token},
    (∀ t ∈ o.tokens, Token.Spelled t.word) → k.names = b.names →
    Program.NotNext .assign rest →
    k.firstFault (o.tokens ++ rest) =
      (failure? (o.surface.value b)).or ((k.settled rest).firstFault rest)
  | .atom a, k, rest, hspelled, hk, hrest => by
    have hatom := hspelled a.token (by simp [Operand.tokens])
    rw [Operand.surface, Surface.Operand.value, ← fault?_atom hatom hk hrest]
    exact firstFault_atom a hrest
  | .group p first links q, k, rest, hspelled, hk, hrest => by
    simp only [Operand.tokens, List.mem_cons, List.mem_append] at hspelled
    have hopening : p.token.kind.isAtom = false := by simp [p.hasKind, Token.Kind.isAtom]
    have hend : Program.NotNext .assign (q.token :: rest) := q.notNext_assign
    have hlinks (x : Float) := links.firstFault_tokens x (fun t ht => hspelled t (by simp [ht]))
      hk hend
    simp only [Operand.tokens, List.cons_append, List.append_assoc, List.nil_append]
    rw [firstFault_cons hopening (by simp [p.hasKind]),
      first.firstFault_tokens (fun t ht => hspelled t (by simp [ht])) hk
        (links.notNext_assign hend), Operand.surface, Surface.Operand.value]
    cases first.surface.value b with
    | error fault => rfl
    | ok x =>
      -- the statement does not end inside the group, but may end with its parenthesis
      rw [settled_of_not_endsBefore q.endsBefore, firstFault_rightParen] at hlinks
      exact hlinks x

/-- The same for a chain of links, whatever the value is that they start from. -/
theorem Links.firstFault_tokens : ∀ (l : Links) {k : Known} {rest : List Token} (x : Float),
    (∀ t ∈ l.tokens, Token.Spelled t.word) → k.names = b.names →
    Program.NotNext .assign rest →
    (k.settled (l.tokens ++ rest)).firstFault (l.tokens ++ rest) =
      (failure? (l.surface.fold b x)).or ((k.settled rest).firstFault rest)
  | .nil, k, rest, x, _, _, _ => rfl
  | .cons sign right later, k, rest, x, hspelled, hk, hrest => by
    simp only [Links.tokens, List.mem_cons, List.mem_append] at hspelled
    have hright := right.firstFault_tokens (fun t ht => hspelled t (by simp [ht])) hk
      (later.notNext_assign hrest)
    have hlater (y : Float) := later.firstFault_tokens y
      (fun t ht => hspelled t (by simp [ht])) hk hrest
    simp only [Links.tokens, List.cons_append, List.append_assoc]
    rw [settled_of_not_endsBefore sign.endsBefore,
      firstFault_cons sign.isAtom_eq_false (sign.kind_ne rfl), hright, Links.surface,
      Surface.Links.fold]
    cases right.surface.value b with
    | error fault => rfl
    | ok y => exact hlater (sign.op.apply x y)

end

theorem Formula.firstFault_tokens (f : Formula) {k : Known}
    (hspelled : ∀ t ∈ f.tokens, Token.Spelled t.word) (hk : k.names = b.names)
    (hrest : Program.NotNext .assign rest) :
    k.firstFault (f.tokens ++ rest) =
      (failure? (f.surface.value b)).or ((k.settled rest).firstFault rest) := by
  simp only [Formula.tokens, List.mem_append] at hspelled
  have hfirst := f.first.firstFault_tokens (fun t ht => hspelled t (.inl ht)) hk
    (f.links.notNext_assign hrest)
  have hlinks (x : Float) := f.links.firstFault_tokens x (fun t ht => hspelled t (.inr ht)) hk hrest
  rw [Formula.tokens, List.append_assoc, hfirst, Formula.surface, Surface.Chain.value]
  cases f.first.surface.value b with
  | error fault => rfl
  | ok x => exact hlinks x

/-! ### Statements -/

theorem AtBoundary.notNext_assign (h : AtBoundary rest) : Program.NotNext .assign rest := by
  intro t ht hassign
  rcases h t ht with hatom | hparen
  · rw [hassign] at hatom
    cases hatom
  · rw [hassign] at hparen
    cases hparen

/-- The tokens of a statement show its fault. Without one, the scan goes on with the names
that are bound after it. -/
theorem Statement.firstFault_tokens (s : Statement)
    (hspelled : ∀ t ∈ s.tokens, Token.Spelled t.word) (hrest : AtBoundary rest) :
    Known.firstFault ⟨b.names, none⟩ (s.tokens ++ rest) =
      match s.surface.exec b with
      | (.ok _, b') => Known.firstFault ⟨b'.names, none⟩ rest
      | (.error fault, _) => some fault := by
  have hends := endsBefore_eq_true hrest
  cases s with
  | formula f =>
    rw [Statement.tokens, f.firstFault_tokens hspelled rfl hrest.notNext_assign, Statement.surface,
      Surface.Statement.exec, settled, if_pos hends]
    cases f.surface.value b <;> rfl
  | assignment target sign value =>
    simp only [Statement.tokens, List.mem_cons] at hspelled
    have hvalue := value.firstFault_tokens (k := ⟨b.names, some target.token.text⟩)
      (fun t ht => hspelled t (.inr (.inr ht))) rfl hrest.notNext_assign
    have hsign : sign.token.kind.isAtom = false := by simp [sign.hasKind, Token.Kind.isAtom]
    have hassign : assignFollows (sign.token :: (value.tokens ++ rest)) = true := by
      simp [assignFollows, sign.hasKind]
    obtain ⟨⟨kind, text, position⟩, hatom⟩ := target
    simp only [Statement.tokens, List.cons_append]
    rw [Known.firstFault, fault?, after, hassign, hatom]
    cases kind with
    | number => rfl
    | identifier =>
      -- the name has a value only after the formula
      show Known.firstFault ⟨b.names, some text⟩ (sign.token :: _) = _
      rw [firstFault_cons hsign (by simp [sign.hasKind]), hvalue, settled, if_pos hends]
      show _ = match Surface.Statement.exec b (.assign (.name text) value.surface) with
        | (.ok _, b') => _
        | (.error fault, _) => _
      rw [Surface.Statement.exec]
      cases value.surface.value b with
      | error fault => rfl
      | ok x =>
        show Known.firstFault ⟨define text b.names, none⟩ rest =
          Known.firstFault ⟨(b.insert text x).names, none⟩ rest
        rw [Bindings.names_insert, define]
    | _ => cases hatom

/-- The tokens of a program show the fault of its run. -/
theorem firstFault_statements (first : Statement) (later : List Statement) (b : Bindings)
    (hspelled : ∀ s ∈ first :: later, ∀ t ∈ s.tokens, Token.Spelled t.word) :
    Known.firstFault ⟨b.names, none⟩ ((first :: later).flatMap Statement.tokens) =
      failure? (Surface.runStatements first.surface (later.map Statement.surface) b).1 := by
  induction later generalizing first b with
  | nil =>
    have hfirst := first.firstFault_tokens (b := b) (hspelled first (by simp)) .nil
    rw [List.flatMap_cons, List.flatMap_nil, hfirst, List.map_nil, Surface.runStatements]
    cases first.surface.exec b with
    | mk result b' => cases result <;> rfl
  | cons next later ih =>
    have hfirst := first.firstFault_tokens (b := b) (hspelled first (by simp))
      (atBoundary_flatMap (next :: later))
    rw [List.flatMap_cons, hfirst, List.map_cons, Surface.runStatements]
    cases first.surface.exec b with
    | mk result b' =>
      cases result with
      | error fault => rfl
      | ok x => exact ih next b' fun s hs => hspelled s (List.mem_cons_of_mem first hs)

end Grammar

/-! ## Names alone decide -/

namespace Known

/-- The same names have a value, in whatever order they are kept. -/
structure Alike (k k' : Known) : Prop where
  names : ∀ name, name ∈ k.names ↔ name ∈ k'.names
  target : k.target = k'.target

theorem mem_define {name other : String} {names : List String} :
    other ∈ define name names ↔ other = name ∨ other ∈ names := by
  unfold define
  split
  · rename_i h
    constructor
    · exact .inr
    · rintro (rfl | hother)
      · exact h
      · exact hother
  · rw [List.mem_append, List.mem_singleton, or_comm]

theorem Alike.settled {k k' : Known} (h : k.Alike k') (rest : List Token) :
    (k.settled rest).Alike (k'.settled rest) := by
  unfold Known.settled
  split
  · refine ⟨?_, rfl⟩
    intro name
    rw [h.target]
    cases k'.target with
    | none => exact h.names name
    | some target => simp only [Option.elim_some, mem_define, h.names name]
  · exact h

theorem Alike.after {k k' : Known} (h : k.Alike k') (t : Token) (rest : List Token) :
    (k.after t rest).Alike (k'.after t rest) := by
  unfold Known.after
  split
  · exact ⟨h.names, rfl⟩
  · split
    · exact h.settled rest
    · exact h

theorem Alike.fault?_eq_none {k k' : Known} (h : k.Alike k') (t : Token) (rest : List Token) :
    k.fault? t rest = none ↔ k'.fault? t rest = none := by
  unfold fault?
  cases t.kind <;> simp [h.names]

/-- Whether a token is at fault depends on nothing but which names have a value. -/
theorem Alike.firstFault_eq_none {k k' : Known} (h : k.Alike k') (tokens : List Token) :
    k.firstFault tokens = none ↔ k'.firstFault tokens = none := by
  induction tokens generalizing k k' with
  | nil => exact Iff.rfl
  | cons t rest ih =>
    simp only [firstFault, Option.or_eq_none_iff, h.fault?_eq_none, ih (h.after t rest)]

end Known

namespace Session

/-- What is known before the first token of a line. -/
def known (s : Session) : Known := ⟨s.bindings.names, none⟩

section
variable {source : String} {tokens : List Token} {program : Program}

/-- The result of a run has the fault that the tokens show. -/
theorem run_eq_firstFault (hscan : Token.tokenize source = .ok tokens)
    (hparse : Program.ofTokens tokens (Text.byteSize source.toList) = .ok program) (s : Session) :
    ∃ result, (s.run source).1 = result.mapError .eval ∧
      Known.failure? result = s.known.firstFault tokens := by
  obtain ⟨first, later, htokens, -, hrun⟩ :=
    exists_runStatements (Program.ofSource_eq_ok.mpr ⟨tokens, hscan, hparse⟩)
  obtain rfl := Except.ok.inj (hscan.symm.trans htokens)
  refine ⟨_, (hrun s).1, (Grammar.firstFault_statements first later s.bindings ?_).symm⟩
  intro g hg t ht
  exact (Token.tokenize_eq_ok_iff_cut.mp hscan).spelled t (List.mem_flatMap.mpr ⟨g, hg, ht⟩)

theorem exists_value_iff (hscan : Token.tokenize source = .ok tokens)
    (hparse : Program.ofTokens tokens (Text.byteSize source.toList) = .ok program) (s : Session) :
    (∃ value, (s.run source).1 = .ok value) ↔ s.known.firstFault tokens = none := by
  obtain ⟨result, hrun, hfault⟩ := run_eq_firstFault hscan hparse s
  rw [hrun, ← hfault]
  cases result with
  | ok value => exact ⟨fun _ => rfl, fun _ => ⟨value, rfl⟩⟩
  | error reason =>
    constructor
    · rintro ⟨value, hvalue⟩
      cases hvalue
    · intro hnone
      cases hnone

theorem run_eq_error_iff (hscan : Token.tokenize source = .ok tokens)
    (hparse : Program.ofTokens tokens (Text.byteSize source.toList) = .ok program) (s : Session)
    (fault : Fault) :
    (s.run source).1 = .error fault ↔
      ∃ reason, fault = .eval reason ∧ s.known.firstFault tokens = some reason := by
  obtain ⟨result, hrun, hfault⟩ := run_eq_firstFault hscan hparse s
  rw [hrun, ← hfault]
  cases result with
  | ok value =>
    constructor
    · intro h
      cases h
    · rintro ⟨reason, -, hsome⟩
      cases hsome
  | error reason =>
    constructor
    · intro h
      cases h
      exact ⟨reason, rfl, rfl⟩
    · rintro ⟨reason', rfl, hsome⟩
      cases hsome
      rfl

/-- **The outcome of a line is foreseen.** A line that is well formed runs to a value just if
no token is at fault, and else ends with the fault of the first one that is. Hence whether it
succeeds depends on nothing but which names are bound. -/
theorem run_foreseen (hscan : Token.tokenize source = .ok tokens)
    (hparse : Program.ofTokens tokens (Text.byteSize source.toList) = .ok program) (s : Session) :
    ((∃ value, (s.run source).1 = .ok value) ↔ s.known.firstFault tokens = none) ∧
    (∀ fault, (s.run source).1 = .error fault ↔
      ∃ reason, fault = .eval reason ∧ s.known.firstFault tokens = some reason) ∧
    ∀ s' : Session, (∀ name, s'.bindings.contains name = s.bindings.contains name) →
      ((∃ value, (s'.run source).1 = .ok value) ↔ ∃ value, (s.run source).1 = .ok value) := by
  refine ⟨exists_value_iff hscan hparse s, run_eq_error_iff hscan hparse s, ?_⟩
  intro s' hnames
  have halike : s'.known.Alike s.known := by
    refine ⟨?_, rfl⟩
    intro name
    show name ∈ s'.bindings.names ↔ name ∈ s.bindings.names
    rw [Bindings.mem_names_iff, Bindings.mem_names_iff]
    exact Bool.eq_iff_iff.mp (hnames name)
  rw [exists_value_iff hscan hparse s', exists_value_iff hscan hparse s]
  exact halike.firstFault_eq_none tokens

end

/-- Three tokens are at fault, and the name comes first. -/
theorem run_foreseen_unknownName :
    let source := "x=1 x+y 5=."
    let tokens : List Token := [⟨.identifier, "x", 0⟩, ⟨.assign, "=", 1⟩, ⟨.number, "1", 2⟩,
      ⟨.identifier, "x", 4⟩, ⟨.plus, "+", 5⟩, ⟨.identifier, "y", 6⟩, ⟨.number, "5", 8⟩,
      ⟨.assign, "=", 9⟩, ⟨.number, ".", 10⟩]
    let reason := EvalFault.unknownName "y" (some "x")
    Token.tokenize source = .ok tokens ∧ (known {}).firstFault tokens = some reason ∧
      (run {} source).1 = .error (.eval reason) := by
  intro source tokens reason
  have hscan : Token.tokenize source = .ok tokens := by cbv
  have hfault : (known {}).firstFault tokens = some reason := rfl
  obtain ⟨-, herror, -⟩ := run_foreseen hscan rfl {}
  exact ⟨hscan, hfault, (herror (.eval reason)).mpr ⟨reason, rfl, hfault⟩⟩

end Session

end LineCalc
