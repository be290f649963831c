import Mathlib
import LineCalc.Proofs.Decomposition
import LineCalc.Proofs.Foresight
import LineCalc.Proofs.NearestNames
import LineCalc.Proofs.ReadBack
import LineCalc.Proofs.ViablePrefix

/-!
# Where faults come from

A run that fails was stopped by a character, by the grammar, or by a token that is at fault
(`Session.run_eq_error_cases`). So what its message quotes is known: a foreign character, or the
text of a number or of names (`Session.mayQuote_of_run`). The other characters of a message are
those it is worded with (`Session.notMem_message_of_run`).
-/

namespace LineCalc

/-! ## The token at fault -/

namespace Known

/-- The names that have a value, and the one that is to get one, have the property. -/
structure All (P : String → Prop) (k : Known) : Prop where
  names : ∀ name ∈ k.names, P name
  target : ∀ name ∈ k.target, P name

section
variable {P : String → Prop} {k : Known} {t : Token} {tokens rest : List Token}
  {reason : EvalFault}

theorem All.settled (h : k.All P) (rest : List Token) : (k.settled rest).All P := by
  unfold Known.settled
  split
  · refine ⟨?_, nofun⟩
    cases htarget : k.target with
    | none => exact h.names
    | some target =>
      intro name hname
      rcases mem_define.mp hname with rfl | hname
      · exact h.target name htarget
      · exact h.names name hname
  · exact h

/-- A token makes no name known but its own. -/
theorem All.after (h : k.All P) (ht : t.kind.isAtom = true → P t.text) (rest : List Token) :
    (k.after t rest).All P := by
  unfold Known.after
  split
  · rename_i hassign
    rw [Bool.and_eq_true] at hassign
    refine ⟨h.names, ?_⟩
    rintro name ⟨⟩
    exact ht hassign.1
  · split
    · exact h.settled rest
    · exact h

/-- The fault of some tokens is that of one of them, with what is known there. -/
theorem exists_of_firstFault (h : k.All P) (htokens : ∀ t ∈ tokens, t.kind.isAtom = true → P t.text)
    (hfault : k.firstFault tokens = some reason) :
    ∃ k' before t rest, tokens = before ++ t :: rest ∧ fault? k' t rest = some reason ∧
      k'.All P := by
  induction tokens generalizing k with
  | nil => cases hfault
  | cons t rest ih =>
    obtain ⟨ht, hrest⟩ := List.forall_mem_cons.mp htokens
    rw [firstFault, Option.or_eq_some_iff] at hfault
    rcases hfault with hhere | ⟨-, hlater⟩
    · exact ⟨k, [], t, rest, rfl, hhere, h⟩
    · obtain ⟨k', before, t', rest', rfl, hfault, hall⟩ := ih (h.after ht rest) hrest hlater
      exact ⟨k', t :: before, t', rest', rfl, hfault, hall⟩

/-- The faults that a token can have. -/
theorem fault?_cases (h : k.fault? t rest = some reason) :
    (t.kind = .number ∧ assignFollows rest = true ∧ reason = .invalidTarget t.text) ∨
    (t.kind = .number ∧ reason = .malformedNumber t.text) ∨
    (t.kind = .identifier ∧ reason = .unknownName t.text
      (NearestName.closestWithin Eval.suggestionLimit t.text k.names)) := by
  unfold fault? at h
  split at h
  · rename_i hkind
    split at h
    · rename_i hassign
      exact .inl ⟨hkind, hassign, (Option.some.inj h).symm⟩
    · split at h
      · exact .inr (.inl ⟨hkind, (Option.some.inj h).symm⟩)
      · cases h
  · rename_i hkind
    split at h
    · cases h
    · exact .inr (.inr ⟨hkind, (Option.some.inj h).symm⟩)
  · cases h

theorem exists_assign_of_assignFollows (h : assignFollows rest = true) :
    ∃ sign later, rest = sign :: later ∧ sign.kind = .assign := by
  cases rest with
  | nil => cases h
  | cons sign later => exact ⟨sign, later, rfl, eq_of_beq h⟩

end

end Known

/-! ## The stage of a fault -/

/-- A source is refused at its first foreign character. -/
theorem Token.exists_firstForeign_of_error {source : String} {fault : ScanFault}
    (h : tokenize source = .error fault) :
    ∃ c i, fault = .unexpected c i ∧ FirstForeign 0 source.toList c i := by
  have hforeign : ¬ ∀ c ∈ source.toList, c ∈ alphabet := by
    rw [← exists_tokenize_iff]
    rintro ⟨tokens, htokens⟩
    rw [htokens] at h
    cases h
  obtain ⟨c, i, hfirst⟩ := exists_firstForeign 0 hforeign
  rw [tokenize_of_firstForeign hfirst] at h
  exact ⟨c, i, (Except.error.inj h).symm, hfirst⟩

namespace Session

variable {s : Session} {source : String} {fault : Fault}

/-- A run fails at a character, at the grammar, or at a token. -/
theorem run_eq_error_cases (h : (s.run source).1 = .error fault) :
    (∃ c i, fault = .scan (.unexpected c i) ∧ Token.FirstForeign 0 source.toList c i) ∨
    ∃ tokens, Token.tokenize source = .ok tokens ∧
      ((∃ reason, fault = .parse reason ∧
        Program.ofTokens tokens (Text.byteSize source.toList) = .error reason) ∨
      ∃ reason, fault = .eval reason ∧ s.known.firstFault tokens = some reason) := by
  cases hscan : Token.tokenize source with
  | error reason =>
    obtain ⟨c, i, rfl, hforeign⟩ := Token.exists_firstForeign_of_error hscan
    have hsource : Program.ofSource source = .error (.scan (.unexpected c i)) := by
      rw [Program.ofSource, hscan]
    rw [(Prod.mk.inj (observed_run_of_error hsource s)).1] at h
    exact .inl ⟨c, i, (Except.error.inj h).symm, hforeign⟩
  | ok tokens =>
    refine .inr ⟨tokens, rfl, ?_⟩
    cases hparse : Program.ofTokens tokens (Text.byteSize source.toList) with
    | error reason =>
      have hsource : Program.ofSource source = .error (.parse reason) := by
        rw [Program.ofSource, hscan]
        show Except.mapError _ _ = _
        rw [hparse]
        rfl
      rw [(Prod.mk.inj (observed_run_of_error hsource s)).1] at h
      exact .inl ⟨reason, (Except.error.inj h).symm, rfl⟩
    | ok program => exact .inr ((run_eq_error_iff hscan hparse s fault).mp h)

end Session

/-! ## What messages quote -/

/-! The texts that messages of a stage are put together from, names and literals apart. -/

def ScanFault.wording : String := "Error at " ++ " position: unexpected character '" ++ "'."

def ParseFault.wording : String :=
  String.join (Token.Kind.all.map Token.Kind.tag) ++ " expected at " ++ " position." ++
    "Expected number or variable on " ++ "Parentheses nested deeper than " ++ " levels at " ++
    "Nothing to evaluate."

def EvalFault.wording : String :=
  "Invalid identifier. No variable with name '" ++ "' was found." ++ " Did you mean '" ++ "'?" ++
    "Malformed number '" ++ "'." ++ "Cannot assign to '" ++
    "'; only variables can be assigned." ++ "Nothing to evaluate."

namespace Fault

def wording : Fault → String
  | scan _ => ScanFault.wording
  | parse _ => ParseFault.wording
  | eval _ => EvalFault.wording

/-- What the message of a fault quotes. -/
def quoted : Fault → List Char
  | scan (.unexpected c _) => [c]
  | parse _ => []
  | eval (.unknownName name suggestion) => name.toList ++ (suggestion.getD "").toList
  | eval (.malformedNumber text) => text.toList
  | eval (.invalidTarget target) => target.toList
  | eval .emptyProgram => []

section
variable {c : Char}

theorem notMem_repr (h : c.isDigit = false) (n : Nat) : c ∉ n.repr.toList := by
  intro hmem
  rw [Nat.repr_eq_ofList_toDigits, String.toList_ofList] at hmem
  rw [Nat.isDigit_of_mem_toDigits (by decide) (by decide) hmem] at h
  cases h

theorem notMem_tag {kind : Token.Kind}
    (h : c ∉ (String.join (Token.Kind.all.map Token.Kind.tag)).toList) : c ∉ kind.tag.toList := by
  have hall : kind ∈ Token.Kind.all := by cases kind <;> decide
  intro hmem
  apply h
  rw [String.toList_join]
  exact List.mem_flatMap.mpr ⟨_, List.mem_map_of_mem hall, hmem⟩

theorem notMem_hint {suggestion : Option String} (hwording : c ∉ EvalFault.wording.toList)
    (h : c ∉ (suggestion.getD "").toList) : c ∉ (EvalFault.hint suggestion).toList := by
  cases suggestion with
  | none => exact h
  | some names =>
    unfold EvalFault.wording at hwording
    unfold EvalFault.hint
    simp only [String.toList_append, List.mem_append, not_or] at hwording
    simp only [String.toList_append, List.mem_append, hwording, or_false, false_or]
    exact h

/-- A message has digits, the characters of its wording, and those it quotes. -/
theorem notMem_message {fault : Fault} (hdigit : c.isDigit = false)
    (hwording : c ∉ fault.wording.toList) (hquoted : c ∉ fault.quoted) :
    c ∉ fault.message.toList := by
  have hrepr := notMem_repr hdigit
  unfold message
  cases fault with
  | scan reason =>
    obtain ⟨found, position⟩ := reason
    unfold wording ScanFault.wording at hwording
    simp only [String.toList_append, List.mem_append, not_or] at hwording
    simp only [ScanFault.message, String.toList_append, String.toList_ofList, List.mem_append,
      hwording, hrepr, or_false, false_or]
    exact hquoted
  | parse reason =>
    unfold wording ParseFault.wording at hwording
    simp only [String.toList_append, List.mem_append, not_or] at hwording
    have htag (kind : Token.Kind) : c ∉ kind.tag.toList := notMem_tag hwording.1.1.1.1.1.1
    unfold ParseFault.message
    cases reason <;>
      simp only [String.toList_append, List.mem_append, hwording, hrepr, htag, or_false,
        not_false_eq_true]
  | eval reason =>
    have hhint (suggestion : Option String) := @notMem_hint c suggestion hwording
    unfold wording EvalFault.wording at hwording
    simp only [String.toList_append, List.mem_append, not_or] at hwording
    unfold EvalFault.message
    cases reason with
    | unknownName name suggestion =>
      rw [quoted, List.mem_append, not_or] at hquoted
      simp only [String.toList_append, List.mem_append, hwording, hquoted.1, hhint _ hquoted.2,
        or_false, not_false_eq_true]
    | malformedNumber text =>
      simp only [String.toList_append, List.mem_append, hwording, or_false, false_or]
      exact hquoted
    | invalidTarget target =>
      simp only [String.toList_append, List.mem_append, hwording, or_false, false_or]
      exact hquoted
    | emptyProgram => simp only [hwording, not_false_eq_true]

end

end Fault

/-! ## What is quoted by the message of a run -/

/-- A text of digits, points, letters and underscores. -/
def Text.IsPlain (text : String) : Prop :=
  ∀ c ∈ text.toList, Token.isNumeral c = true ∨ Token.isNamePart c = true

theorem Token.Spelled.isPlain {w : Surface.Word} (h : Spelled w) (hatom : w.kind.isAtom = true) :
    Text.IsPlain w.text := by
  unfold Text.IsPlain
  cases h with
  | number htext hfirst hmore =>
    rw [htext, List.forall_mem_cons]
    exact ⟨.inl hfirst, fun c hc => .inl (hmore c hc)⟩
  | identifier htext hfirst hmore =>
    rw [htext, List.forall_mem_cons]
    exact ⟨.inr (by rw [isNamePart, hfirst, Bool.true_or]), fun c hc => .inr (hmore c hc)⟩
  | @mark kind text first htext hfirst =>
    unfold mark? at hfirst
    split at hfirst <;> cases hfirst <;> cases hatom

theorem Text.mem_intercalate {separator : String} {names : List String} {c : Char}
    (h : c ∈ (separator.intercalate names).toList) :
    c ∈ separator.toList ∨ ∃ name ∈ names, c ∈ name.toList := by
  induction names with
  | nil =>
    rw [String.intercalate_nil] at h
    exact absurd h List.not_mem_nil
  | cons first rest ih =>
    by_cases hrest : rest = []
    · rw [hrest, String.intercalate_singleton] at h
      exact .inr ⟨first, List.mem_cons_self, h⟩
    · rw [String.intercalate_cons_of_ne_nil hrest, String.toList_append, String.toList_append,
        List.mem_append, List.mem_append] at h
      rcases h with (hfirst | hseparator) | hlater
      · exact .inr ⟨first, List.mem_cons_self, hfirst⟩
      · exact .inl hseparator
      · refine (ih hlater).imp_right ?_
        rintro ⟨name, hname, hc⟩
        exact ⟨name, List.mem_cons_of_mem _ hname, hc⟩

/-- A suggestion has the characters of the candidates, and commas and blanks. -/
theorem NearestName.mem_closestWithin {limit : Nat} {word : String} {candidates : List String}
    {c : Char} (h : c ∈ ((closestWithin limit word candidates).getD "").toList) :
    (∃ name ∈ candidates, c ∈ name.toList) ∨ c = ',' ∨ c = ' ' := by
  cases hanswer : closestWithin limit word candidates with
  | none =>
    rw [hanswer] at h
    exact absurd h List.not_mem_nil
  | some text =>
    obtain ⟨names, -, hlists, rfl⟩ := closestWithin_eq_some_iff.mp hanswer
    rw [hanswer] at h
    rcases Text.mem_intercalate h with hseparator | ⟨name, hname, hc⟩
    · refine .inr ?_
      simpa using hseparator
    · exact .inl ⟨name, ((hlists.mem_iff name).mp hname).mem, hc⟩

/-- The character is one that a message of the stage may quote: one that is foreign, or one of a
number, of a name, or of a list of names. -/
def Fault.MayQuote : Fault → Char → Prop
  | .scan _, c => c ∉ Token.alphabet
  | .parse _, _ => False
  | .eval _, c => (Token.isNumeral c = true ∨ Token.isNamePart c = true) ∨ c = ',' ∨ c = ' '

/-- A message quotes what is foreign to the language, or what is plain. -/
theorem Session.mayQuote_of_run {s : Session} {source : String} {fault : Fault}
    (hnames : s.bindings.WellNamed) (h : (s.run source).1 = .error fault) :
    ∀ c ∈ fault.quoted, fault.MayQuote c := by
  rcases run_eq_error_cases h with ⟨found, i, rfl, -, -, -, -, hforeign, -⟩ |
    ⟨tokens, hscan, ⟨reason, rfl, -⟩ | ⟨reason, rfl, hfault⟩⟩
  · intro c hc
    rw [List.mem_singleton.mp hc]
    exact hforeign
  · exact fun c hc => absurd hc List.not_mem_nil
  · have hspelled := (Token.tokenize_eq_ok_iff_cut.mp hscan).spelled
    have hplain : ∀ t ∈ tokens, t.kind.isAtom = true → Text.IsPlain t.text :=
      fun t ht hatom => (hspelled t ht).isPlain hatom
    have hknown : s.known.All Text.IsPlain :=
      ⟨fun name hname => (Token.isName_iff.mp (hnames name hname)).isPlain rfl, nofun⟩
    obtain ⟨k, before, t, rest, rfl, hhere, hall⟩ :=
      Known.exists_of_firstFault hknown hplain hfault
    have htext (hatom : t.kind.isAtom = true) : Text.IsPlain t.text :=
      hplain t (by simp) hatom
    rcases Known.fault?_cases hhere with ⟨hkind, -, rfl⟩ | ⟨hkind, rfl⟩ | ⟨hkind, rfl⟩
    · exact fun c hc => .inl (htext (by rw [hkind]; rfl) c hc)
    · exact fun c hc => .inl (htext (by rw [hkind]; rfl) c hc)
    · intro c hc
      rcases List.mem_append.mp hc with hname | hsuggestion
      · exact .inl (htext (by rw [hkind]; rfl) c hname)
      · rcases NearestName.mem_closestWithin hsuggestion with ⟨name, hname, hc⟩ | hseparator
        · exact .inl (hall.names name hname c hc)
        · exact .inr hseparator

/-- A character that is neither worded nor quoted is not in the message. -/
theorem Session.notMem_message_of_run {s : Session} {source : String} {fault : Fault}
    (hnames : s.bindings.WellNamed) (h : (s.run source).1 = .error fault) (c : Char)
    (hdigit : c.isDigit = false) (hwording : c ∉ fault.wording.toList)
    (hquote : ¬ fault.MayQuote c) : c ∉ fault.message.toList :=
  Fault.notMem_message hdigit hwording fun hc => hquote (mayQuote_of_run hnames h c hc)

end LineCalc
