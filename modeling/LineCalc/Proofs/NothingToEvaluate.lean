import Mathlib
import LineCalc.Proofs.Dialogue
import LineCalc.Proofs.FaultOrigins
import LineCalc.Proofs.OutputLines

/-!
# Nothing to evaluate

Two faults say that there is nothing to evaluate. A program that was read is never empty, so one
of them does not occur; a source has no tokens only if it is made of blanks, and such a line is
skipped before it is run. An assignment to something else than a name can only be one to a
number. Main statement: no line is answered by the complaint that there is nothing to evaluate,
and the command shows its words only where it quotes the path of a file (`Command.run_evaluates`).
-/

namespace LineCalc

/-! ## Sources without tokens -/

section
variable {tokens : List Token} {source : String} {s : Session}

/-- Only a text of blanks has no tokens. -/
theorem Token.cut_nil_iff {position : Nat} {text : List Char} :
    Cut position text [] ↔ ∀ c ∈ text, c ∈ blanks := by
  constructor
  · intro h
    generalize htokens : ([] : List Token) = tokens at h
    induction h with
    | nil => exact fun c hc => absurd hc List.not_mem_nil
    | space hc _ ih => exact List.forall_mem_cons.mpr ⟨(isSpace_iff _).mp hc, ih htokens⟩
    | word => cases htokens
  · intro h
    rw [← List.append_nil text]
    exact .gap (fun c hc => (isSpace_iff c).mpr (h c hc)) (.nil _)

theorem Token.tokenize_eq_nil_iff : tokenize source = .ok [] ↔ ∀ c ∈ source.toList, c ∈ blanks :=
  tokenize_eq_ok_iff_cut.trans cut_nil_iff

theorem Program.ofTokens_eq_emptyInput_iff {finish : Nat} :
    ofTokens tokens finish = .error .emptyInput ↔ tokens = [] := by
  constructor
  · intro h
    by_contra hne
    obtain ⟨i, hi⟩ := exists_pointsAt hne h
    cases hi.position_eq
  · rintro rfl
    exact ofTokens_nil

/-- What separates tokens is white space. -/
theorem Text.isWhite_of_mem_blanks {c : Char} (h : c ∈ Token.blanks) : isWhite c = true := by
  rw [← Token.isSpace_iff] at h
  simp only [Token.isSpace, Bool.or_eq_true, beq_iff_eq] at h
  rcases h with ((((rfl | rfl) | rfl) | rfl) | rfl) | rfl <;> decide

/-- So a source that has nothing else is a blank line. -/
theorem Text.isBlank_of_blanks (h : ∀ c ∈ source.toList, c ∈ Token.blanks) :
    isBlank source = true :=
  List.all_eq_true.mpr fun c hc => isWhite_of_mem_blanks (h c hc)

/-- A line that is not blank has a token, or a character that belongs to none. -/
theorem Token.tokenize_of_not_blank (h : Text.isBlank source = false) :
    (∃ fault, tokenize source = .error fault) ∨
      ∃ first later, tokenize source = .ok (first :: later) := by
  cases htokens : tokenize source with
  | error fault => exact .inl ⟨fault, rfl⟩
  | ok tokens =>
    cases tokens with
    | cons first later => exact .inr ⟨first, later, rfl⟩
    | nil =>
      rw [Text.isBlank_of_blanks (tokenize_eq_nil_iff.mp htokens)] at h
      cases h

theorem Token.Spelled.isNumeral {w : Surface.Word} (h : Spelled w) (hkind : w.kind = .number) :
    ∀ c ∈ w.text.toList, Token.isNumeral c = true := by
  cases h with
  | number htext hfirst hmore =>
    rw [htext]
    exact List.forall_mem_cons.mpr ⟨hfirst, hmore⟩
  | identifier => cases hkind
  | mark _ hfirst =>
    cases hkind
    unfold mark? at hfirst
    split at hfirst <;> cases hfirst

namespace Session

theorem run_eq_emptyInput_iff :
    (s.run source).1 = .error (.parse .emptyInput) ↔ ∀ c ∈ source.toList, c ∈ Token.blanks := by
  rw [← Token.tokenize_eq_nil_iff]
  constructor
  · intro h
    rcases run_eq_error_cases h with ⟨c, i, hfault, -⟩ |
      ⟨tokens, hscan, ⟨reason, hfault, hparse⟩ | ⟨reason, hfault, -⟩⟩
    · cases hfault
    · cases hfault
      rw [hscan, Program.ofTokens_eq_emptyInput_iff.mp hparse]
    · cases hfault
  · intro h
    have hsource : Program.ofSource source = .error (.parse .emptyInput) := by
      rw [Program.ofSource, h]
      rfl
    exact (Prod.mk.inj (observed_run_of_error hsource s)).1

/-- A fault of evaluation is that of a token. -/
theorem exists_fault?_of_run {reason : EvalFault} (h : (s.run source).1 = .error (.eval reason)) :
    ∃ k before t rest, Token.tokenize source = .ok (before ++ t :: rest) ∧
      Known.fault? k t rest = some reason := by
  rcases run_eq_error_cases h with ⟨c, i, hfault, -⟩ |
    ⟨tokens, hscan, ⟨reason', hfault, -⟩ | ⟨reason', hfault, hfirst⟩⟩
  · cases hfault
  · cases hfault
  · cases hfault
    obtain ⟨k, before, t, rest, rfl, hhere, -⟩ := Known.exists_of_firstFault
      (show s.known.All fun _ => True from ⟨fun _ _ => trivial, fun _ _ => trivial⟩)
      (fun _ _ _ => trivial) hfirst
    exact ⟨k, before, t, rest, hscan, hhere⟩

theorem run_ne_emptyProgram : (s.run source).1 ≠ .error (.eval .emptyProgram) := by
  intro h
  obtain ⟨k, before, t, rest, -, hfault⟩ := exists_fault?_of_run h
  rcases Known.fault?_cases hfault with ⟨-, -, hreason⟩ | ⟨-, hreason⟩ | ⟨-, hreason⟩ <;>
    cases hreason

/-- What cannot be assigned to is a number before `=`. -/
theorem number_of_invalidTarget {target : String}
    (h : (s.run source).1 = .error (.eval (.invalidTarget target))) :
    ∃ before number sign later,
      Token.tokenize source = .ok (before ++ number :: sign :: later) ∧
      number.kind = .number ∧ number.text = target ∧ sign.kind = .assign ∧
      target.toList ≠ [] ∧ ∀ c ∈ target.toList, c.isDigit = true ∨ c = '.' := by
  obtain ⟨k, before, t, rest, hscan, hfault⟩ := exists_fault?_of_run h
  rcases Known.fault?_cases hfault with ⟨hkind, hassign, hreason⟩ | ⟨-, hreason⟩ | ⟨-, hreason⟩
  · cases hreason
    obtain ⟨sign, later, rfl, hsign⟩ := Known.exists_assign_of_assignFollows hassign
    have hspelled := (Token.tokenize_eq_ok_iff_cut.mp hscan).spelled t (by simp)
    refine ⟨before, t, sign, later, hscan, hkind, rfl, hsign, hspelled.text_ne_nil, ?_⟩
    intro c hc
    have hnumeral := hspelled.isNumeral hkind c hc
    rwa [Token.isNumeral, Bool.or_eq_true, beq_iff_eq] at hnumeral
  · cases hreason
  · cases hreason

end Session

end

/-! ## Words in a text -/

namespace Text

variable {words a b : List Char} {c : Char}

/-- Words without the character that divides a text stand in one of its parts. -/
theorem infix_of_infix_append_cons (hc : c ∉ words) (h : words <:+: a ++ c :: b) :
    words <:+: a ∨ words <:+: b := by
  rcases List.infix_append_iff.mp h with hfront | hback | ⟨left, right, rfl, hleft, hright⟩
  · exact .inl hfront
  · rcases List.infix_cons_iff.mp hback with hstart | hrest
    · rcases List.prefix_cons_iff.mp hstart with rfl | ⟨more, rfl, -⟩
      · exact .inl List.nil_infix
      · exact absurd List.mem_cons_self hc
    · exact .inr hrest
  · rcases List.prefix_cons_iff.mp hright with rfl | ⟨more, rfl, -⟩
    · rw [List.append_nil]
      exact .inl hleft.isInfix
    · exact absurd (List.mem_append_right _ List.mem_cons_self) hc

/-- Words without a line feed stand in one of the lines. -/
theorem exists_of_infix_terminated {lines : List String} (hne : words ≠ []) (hfeed : '\n' ∉ words)
    (h : words <:+: (terminated lines).toList) : ∃ line ∈ lines, words <:+: line.toList := by
  rw [terminated, String.toList_ofList] at h
  induction lines with
  | nil => exact absurd (List.infix_nil.mp h) hne
  | cons line later ih =>
    rw [List.flatMap_cons, List.append_assoc] at h
    rcases infix_of_infix_append_cons hfeed h with hline | hlater
    · exact ⟨line, List.mem_cons_self, hline⟩
    · obtain ⟨line', hline', hwords⟩ := ih hlater
      exact ⟨line', List.mem_cons_of_mem _ hline', hwords⟩

end Text

/-! ## Messages -/

/-- Only the two faults that say that there is nothing to evaluate begin so. -/
theorem Fault.eq_empty_of_head? {fault : Fault} (h : fault.message.toList.head? = some 'N') :
    fault = .parse .emptyInput ∨ fault = .eval .emptyProgram := by
  unfold message at h
  cases fault with
  | scan reason =>
    obtain ⟨c, i⟩ := reason
    simp [ScanFault.message] at h
  | parse reason =>
    unfold ParseFault.message at h
    cases reason with
    | expected kind position => cases kind <;> simp [Token.Kind.tag] at h
    | emptyInput => exact .inl rfl
    | _ => simp at h
  | eval reason =>
    unfold EvalFault.message at h
    cases reason with
    | emptyProgram => exact .inr rfl
    | _ => simp at h

/-- The line with which the command would say that there is nothing to evaluate. -/
def Command.complaint : String := "error: Nothing to evaluate."

/-- No message of a run has that line in it: a message that shows a foreign character has no
capital `N`, and the others have no colon. -/
theorem Session.complaint_not_infix_message {s : Session} {source : String} {fault : Fault}
    (hnames : s.bindings.WellNamed) (h : (s.run source).1 = .error fault) :
    ¬ Command.complaint.toList <:+: fault.message.toList := by
  have hscan : 'N' ∉ ScanFault.wording.toList := by decide +kernel
  have hparse : ':' ∉ ParseFault.wording.toList := by decide +kernel
  have heval : ':' ∉ EvalFault.wording.toList := by decide +kernel
  have hplain : ¬ ((Token.isNumeral ':' = true ∨ Token.isNamePart ':' = true) ∨
    ':' = ',' ∨ ':' = ' ') := by decide
  have hcapital : 'N' ∈ Command.complaint.toList := by decide
  have hcolon : ':' ∈ Command.complaint.toList := by decide
  intro hinside
  cases fault with
  | scan reason =>
    have hmissing := notMem_message_of_run hnames h 'N' rfl hscan fun hforeign =>
      hforeign (by decide)
    exact hmissing (hinside.mem hcapital)
  | parse reason =>
    exact notMem_message_of_run hnames h ':' rfl hparse id (hinside.mem hcolon)
  | eval reason =>
    exact notMem_message_of_run hnames h ':' rfl heval hplain (hinside.mem hcolon)

namespace Command

/-- The words stand after the mark of an error, or later. -/
theorem prefix_or_infix_of_complaint {message : List Char}
    (h : complaint.toList <:+: "error: ".toList ++ message) :
    "Nothing to evaluate.".toList <+: message ∨ complaint.toList <:+: message := by
  simpa [complaint, List.infix_cons_iff] using h

section
variable {s : Session} {line : String} {fault : Fault}

/-- A line that is not blank has something to evaluate. -/
theorem head?_message_ne (hblank : Text.isBlank line = false)
    (h : (s.run line).1 = .error fault) : fault.message.toList.head? ≠ some 'N' := by
  intro hhead
  rcases Fault.eq_empty_of_head? hhead with rfl | rfl
  · rw [Text.isBlank_of_blanks (Session.run_eq_emptyInput_iff.mp h)] at hblank
    cases hblank
  · exact Session.run_ne_emptyProgram h

/-- So the complaint is not the answer to a line, whatever names are bound. -/
theorem err_answer_ne_complaint (s : Session) (line : String) :
    (answer s line).1.err ≠ complaint ++ "\n" := by
  have hempty : "" ≠ complaint ++ "\n" := by decide
  intro herr
  rw [answer] at herr
  split at herr
  · exact hempty herr
  · rename_i hblank
    rw [Bool.not_eq_true] at hblank
    cases hrun : s.run line with
    | mk result s' =>
      rw [hrun] at herr
      cases result with
      | ok x => exact hempty herr
      | error fault =>
        have hfault : (s.run line).1 = .error fault := by rw [hrun]
        have hwords : complaint = "error: " ++ "Nothing to evaluate." := rfl
        replace herr : "error: " ++ fault.message ++ "\n" = complaint ++ "\n" := herr
        rw [hwords, String.append_left_inj, String.append_right_inj] at herr
        apply head?_message_ne hblank hfault
        rw [herr]
        rfl

/-- Nor is it part of one, if the names are spelled as in a source. -/
theorem complaint_not_infix_errLine (hnames : s.bindings.WellNamed)
    (hblank : Text.isBlank line = false) (h : (s.run line).1 = .error fault) :
    ¬ complaint.toList <:+: ("error: " ++ fault.message).toList := by
  rw [String.toList_append]
  intro hinside
  rcases prefix_or_infix_of_complaint hinside with hstart | hlater
  · obtain ⟨more, hmore⟩ := hstart
    apply head?_message_ne hblank h
    rw [← hmore]
    rfl
  · exact Session.complaint_not_infix_message hnames h hlater

end

/-! ## Reports -/

/-- Neither stream of the report has the complaint: standard output has not all of its letters,
and no line of standard error has it. -/
structure Report.Quiet (report : Report) : Prop where
  out : 'e' ∉ report.out.toList
  err : ∃ lines, report.err = Text.terminated lines ∧
    ∀ line ∈ lines, ¬ complaint.toList <:+: line.toList

namespace Report.Quiet

variable {a b : Report}

theorem of_err_eq_empty (hout : 'e' ∉ a.out.toList) (herr : a.err = "") : a.Quiet :=
  ⟨hout, [], herr, fun _ hline => absurd hline List.not_mem_nil⟩

theorem append (ha : a.Quiet) (hb : b.Quiet) : (a ++ b).Quiet := by
  obtain ⟨front, hfront, hfrontQuiet⟩ := ha.err
  obtain ⟨later, hlater, hlaterQuiet⟩ := hb.err
  refine ⟨?_, front ++ later, ?_, ?_⟩
  · rw [out_append, String.toList_append, List.mem_append, not_or]
    exact ⟨ha.out, hb.out⟩
  · rw [err_append, hfront, hlater, Text.terminated_append]
  · intro line hline
    rcases List.mem_append.mp hline with hline | hline
    · exact hfrontQuiet line hline
    · exact hlaterQuiet line hline

theorem not_infix_out (h : a.Quiet) : ¬ complaint.toList <:+: a.out.toList :=
  fun hinside => h.out (hinside.mem (by decide))

theorem not_infix_err (h : a.Quiet) : ¬ complaint.toList <:+: a.err.toList := by
  obtain ⟨lines, herr, hlines⟩ := h.err
  rw [herr]
  intro hinside
  obtain ⟨line, hline, hwords⟩ :=
    Text.exists_of_infix_terminated (by decide) (by decide) hinside
  exact hlines line hline hwords

end Report.Quiet

section
variable {s : Session}

theorem quiet_answer (h : s.bindings.WellNamed) (line : String) : (answer s line).1.Quiet := by
  rw [answer]
  split
  · exact .of_err_eq_empty List.not_mem_nil rfl
  · rename_i hblank
    rw [Bool.not_eq_true] at hblank
    cases hrun : s.run line with
    | mk result s' =>
      cases result with
      | ok x =>
        refine .of_err_eq_empty ?_ rfl
        show 'e' ∉ (Decimal.text x ++ "\n").toList
        rw [String.toList_append, List.mem_append, not_or]
        exact ⟨Decimal.notMem_text rfl (by decide) x, by decide⟩
      | error fault =>
        have hfault : (s.run line).1 = .error fault := by rw [hrun]
        refine ⟨List.not_mem_nil, ["error: " ++ fault.message], ?_, ?_⟩
        · exact (Text.terminated_singleton _).symm
        · exact List.forall_mem_singleton.mpr (complaint_not_infix_errLine h hblank hfault)

theorem wellNamed_after (h : s.bindings.WellNamed) (line : String) :
    (after s line).bindings.WellNamed := by
  rw [after]
  split
  · exact h
  · exact h.run line

/-- The report on a line that cannot be read. -/
theorem quiet_unreadable :
    (Report.failure "failed to read input" "stream did not contain valid UTF-8").Quiet := by
  refine ⟨List.not_mem_nil, ["Error: failed to read input", "", "Caused by:",
    "    stream did not contain valid UTF-8"], by decide +kernel, ?_⟩
  intro line hline hinside
  have hcapital : 'N' ∈ line.toList := hinside.mem (by decide)
  simp at hline
  rcases hline with rfl | rfl | rfl | rfl <;> exact absurd hcapital (by decide)

theorem quiet_runLines (keepGoing : Bool) (h : s.bindings.WellNamed)
    (lines : List (Option String)) : (runLines keepGoing s lines).Quiet := by
  induction lines generalizing s with
  | nil => exact .of_err_eq_empty List.not_mem_nil rfl
  | cons line rest ih =>
    cases line with
    | none => exact quiet_unreadable
    | some line =>
      have hrest := (quiet_answer h line).append (ih (wellNamed_after h line))
      by_cases hfails : Fails s line
      · cases keepGoing with
        | false =>
          rw [runLines_cons_of_fails hfails]
          exact quiet_answer h line
        | true => rwa [runLines_cons_of_goes (.inl rfl)]
      · rwa [runLines_cons_of_goes (.inr hfails)]

theorem quiet_prompt : prompt.Quiet := .of_err_eq_empty (by decide) rfl

theorem quiet_garbled : garbled.Quiet := by
  refine ⟨List.not_mem_nil, ["Error: stream did not contain valid UTF-8"], by decide +kernel, ?_⟩
  exact List.forall_mem_singleton.mpr (by decide +kernel)

theorem quiet_dialogue (h : s.bindings.WellNamed) (lines : List (Option String)) :
    (dialogue s lines).Quiet := by
  induction lines generalizing s with
  | nil => exact quiet_prompt
  | cons line rest ih =>
    cases line with
    | none => exact quiet_prompt.append quiet_garbled
    | some line =>
      rw [dialogue_cons]
      exact (quiet_prompt.append (quiet_answer h _)).append (ih (wellNamed_after h _))

end

/-! ## The command -/

/-- The report on a file that cannot be read quotes the path, and has the words of the complaint
only there. -/
theorem infix_failure_iff (path : String) (fault : ReadFault) :
    complaint.toList <:+:
      (Report.failure ("failed to read the input file '" ++ path ++ "'") fault.cause).err.toList ↔
    complaint.toList <:+: path.toList := by
  have hquote : '\'' ∉ complaint.toList := by decide
  have herr : (Report.failure ("failed to read the input file '" ++ path ++ "'")
      fault.cause).err.toList = "Error: failed to read the input file ".toList ++ '\'' ::
        (path.toList ++ '\'' :: ("\n\nCaused by:\n    " ++ fault.cause ++ "\n").toList) := by
    simp [Report.failure]
  rw [herr]
  constructor
  · intro h
    rcases Text.infix_of_infix_append_cons hquote h with hfront | h
    · exact absurd hfront (by decide +kernel)
    · rcases Text.infix_of_infix_append_cons hquote h with hpath | hcause
      · exact hpath
      · exact absurd hcause (by cases fault <;> decide +kernel)
  · intro hpath
    apply List.infix_append_of_infix_right
    apply List.infix_cons
    exact List.infix_append_of_infix_left hpath

section
variable {arguments : List String} {o : Options} {w : Surroundings}

/-- If the file cannot be read, no line is run. -/
theorem run_unreadable {path : String} {fault : ReadFault} (h : Asks arguments o)
    (hfile : o.file = some path) (hread : w.readText path = .error fault) :
    run arguments w =
      .failure ("failed to read the input file '" ++ path ++ "'") fault.cause := by
  rw [h.run_eq, calculate, hfile]
  simp only [runFile, hread]

/-- Otherwise the command is quiet, wherever the lines come from. -/
theorem quiet_run (h : Asks arguments o)
    (hreadable : ¬ ∃ path fault, o.file = some path ∧ w.readText path = .error fault) :
    (run arguments w).Quiet := by
  have hnames : Bindings.empty.WellNamed := Bindings.wellNamed_empty
  rw [h.run_eq, calculate]
  split
  · rename_i path hfile
    rw [runFile]
    split
    · rename_i fault hread
      exact absurd ⟨path, fault, hfile, hread⟩ hreadable
    · exact quiet_runLines _ hnames _
  · rw [runInput]
    split
    · exact quiet_dialogue hnames _
    · exact quiet_runLines _ hnames _
  · exact quiet_runLines _ hnames _

end

/-- **There is always something to evaluate.** No source is refused as an empty program, with
whatever names bound, and only one of blanks as an empty input. An assignment that is refused is
one to a number, a text of digits and points with `=` as the next token. A line that is not blank
has a token, or a character that belongs to none, so no line is answered by the complaint that
there is nothing to evaluate. Nor is it part of what the command shows, whatever lines it is asked
to run: the words are seen on standard error exactly if they stand in the path of a file that
cannot be read, which is quoted there. -/
theorem run_evaluates :
    (∀ (s : Session) (source : String),
      (s.run source).1 ≠ .error (.eval .emptyProgram) ∧
      ((s.run source).1 = .error (.parse .emptyInput) ↔
        ∀ c ∈ source.toList, c ∈ Token.blanks) ∧
      (∀ target, (s.run source).1 = .error (.eval (.invalidTarget target)) →
        ∃ before number sign later,
          Token.tokenize source = .ok (before ++ number :: sign :: later) ∧
          number.kind = .number ∧ number.text = target ∧ sign.kind = .assign ∧
          target.toList ≠ [] ∧ ∀ c ∈ target.toList, c.isDigit = true ∨ c = '.') ∧
      (Text.isBlank source = false →
        (∃ fault, Token.tokenize source = .error fault) ∨
          ∃ first later, Token.tokenize source = .ok (first :: later)) ∧
      (answer s source).1.err ≠ complaint ++ "\n") ∧
    ∀ (arguments : List String) (o : Options) (w : Surroundings), Asks arguments o →
      let report := run arguments w
      ¬ complaint.toList <:+: report.out.toList ∧
      (complaint.toList <:+: report.err.toList ↔
        ∃ path fault, o.file = some path ∧ w.readText path = .error fault ∧
          complaint.toList <:+: path.toList) := by
  constructor
  · intro s source
    exact ⟨Session.run_ne_emptyProgram, Session.run_eq_emptyInput_iff,
      fun _ => Session.number_of_invalidTarget, Token.tokenize_of_not_blank,
      err_answer_ne_complaint s source⟩
  · intro arguments o w hasks report
    by_cases hunreadable : ∃ path fault, o.file = some path ∧ w.readText path = .error fault
    · obtain ⟨path, fault, hfile, hread⟩ := hunreadable
      rw [show report = _ from run_unreadable hasks hfile hread, infix_failure_iff]
      refine ⟨(by decide : ¬ complaint.toList <:+: []), ?_⟩
      constructor
      · intro hpath
        exact ⟨path, fault, hfile, hread, hpath⟩
      · rintro ⟨path', -, hfile', -, hpath⟩
        rw [hfile] at hfile'
        cases hfile'
        exact hpath
    · have hquiet : report.Quiet := quiet_run hasks hunreadable
      refine ⟨hquiet.not_infix_out, fun hinside => absurd hinside hquiet.not_infix_err, ?_⟩
      rintro ⟨path, fault, hfile, hread, -⟩
      exact absurd ⟨path, fault, hfile, hread⟩ hunreadable

/-- An assignment to a number, a source of blanks, a line of what is white but separates no tokens
and a digit. From a pipe these lines are answered without the words; a file that is not there and
has them in its name is reported with them. -/
theorem run_evaluates_named :
    let w : Surroundings :=
      { input := Text.encoded "x = 3 1 = 2\n\t\r \n\u00a01\n", terminal := false
        contentAt := (Folder.ofFiles []).read }
    let arguments := ["-f", "no error: Nothing to evaluate."]
    (∃ before number sign later,
      Token.tokenize "x = 3 1 = 2" = .ok (before ++ number :: sign :: later) ∧
      number.text = "1" ∧ sign.kind = .assign) ∧
    (Session.run {} "\t\r ").1 = .error (.parse .emptyInput) ∧
    Text.isBlank "\u00a01" = false ∧
    ((∃ fault, Token.tokenize "\u00a01" = .error fault) ∨
      ∃ first later, Token.tokenize "\u00a01" = .ok (first :: later)) ∧
    Asks ["-k"] { keepGoing := true } ∧
    ¬ complaint.toList <:+: (run ["-k"] w).err.toList ∧
    Asks arguments { file := some "no error: Nothing to evaluate." } ∧
    complaint.toList <:+: (run arguments w).err.toList := by
  intro w arguments
  have htarget : (Session.run {} "x = 3 1 = 2").1 = .error (.eval (.invalidTarget "1")) := by
    rw [Session.run_of_program (by cbv) rfl]
    rfl
  have hblanks : "\t\r ".toList ⊆ Token.blanks := by decide
  have hblank : Text.isBlank "\u00a01" = false := by decide
  have hpipe : Asks ["-k"] { keepGoing := true } := rfl
  have hfile : Asks arguments { file := some "no error: Nothing to evaluate." } := rfl
  have hread : w.readText "no error: Nothing to evaluate." = .error .missing := rfl
  have hpath : complaint.toList <:+: "no error: Nothing to evaluate.".toList := by decide +kernel
  obtain ⟨hsources, hreports⟩ := run_evaluates
  obtain ⟨-, -, hnumber, -⟩ := hsources {} "x = 3 1 = 2"
  obtain ⟨before, number, sign, later, hscan, -, htext, hsign, -⟩ := hnumber "1" htarget
  obtain ⟨-, hempty, -⟩ := hsources {} "\t\r "
  obtain ⟨-, -, -, htokens, -⟩ := hsources {} "\u00a01"
  obtain ⟨-, hpiped⟩ := hreports ["-k"] _ w hpipe
  obtain ⟨-, hnamed⟩ := hreports arguments _ w hfile
  have hquiet : ¬ complaint.toList <:+: (run ["-k"] w).err.toList := by
    intro hinside
    obtain ⟨_, _, hnone, -⟩ := hpiped.mp hinside
    cases hnone
  exact ⟨⟨before, number, sign, later, hscan, htext, hsign⟩, hempty.mpr fun _ hc => hblanks hc,
    hblank, htokens hblank, hpipe, hquiet, hfile, hnamed.mpr ⟨_, _, rfl, hread, hpath⟩⟩

/-- So the words can be seen, though no line is answered by them: here they end the name of a file
that is not there. -/
theorem complaint_shown_in_path :
    let w : Surroundings :=
      { input := [], terminal := false, contentAt := (Folder.ofFiles []).read }
    let arguments := ["-f", "no error: Nothing to evaluate."]
    let shown := "Error: failed to read the input file 'no error: Nothing to evaluate.'\n\n" ++
      "Caused by:\n    No such file or directory (os error 2)\n"
    Asks arguments { file := some "no error: Nothing to evaluate." } ∧
    run arguments w = { err := shown, code := 1 } ∧
    complaint.toList <:+: shown.toList := by
  intro w arguments shown
  have hreport : run arguments w = { err := shown, code := 1 } := by decide +kernel
  have hwords : complaint.toList <:+: shown.toList := by decide +kernel
  exact ⟨rfl, hreport, hwords⟩

end Command

end LineCalc
