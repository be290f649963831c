import LineCalc.Proofs.Cutting
import LineCalc.Proofs.Rendering
import LineCalc.Proofs.ViablePrefix

/-!
# Layout

Where the words of a line stand does not matter, only which they are and in which order. Two
lists of tokens with the same words are both read, as programs that are equal up to
positions, or refused at the same token for the same reason (`ReadAlike`).

That both are read or none follows from the machine of `Progress`, which sees nothing but
kinds: it takes the same tokens of both lists and is blocked by the same one
(`ofTokens_of_blocked`). That they are read alike follows from the grammar. Without positions
the two derivations spell the same tokens, so they are one (`Derivation.ext_tokens`).

Main statement: running two lines of the same words is the same, and every line that is
scanned has the same words as its own tokens with one blank between them
(`Session.run_layout`).
-/

namespace LineCalc

/-- The fault at another place, if it is at any. -/
def ParseFault.moveTo (position : Nat) : ParseFault → ParseFault
  | expected kind _ => .expected kind position
  | expectedAtom _ => .expectedAtom position
  | tooDeep _ => .tooDeep position
  | emptyInput => .emptyInput

/-- The machine sees no more of a token than its kind. -/
theorem Grammar.Progress.run_congr {ts us : List Token}
    (h : ts.map Token.word = us.map Token.word) (s : Grammar.Progress) :
    s.run ts = s.run us := by
  induction ts generalizing us s with
  | nil =>
    obtain rfl : us = [] := List.map_eq_nil_iff.mp h.symm
    rfl
  | cons t ts ih =>
    obtain ⟨u, us, rfl, hword, hwords⟩ := List.map_eq_cons_iff.mp h.symm
    have hkind : u.kind = t.kind := congrArg Surface.Word.kind hword
    simp only [Grammar.Progress.run_cons, hkind, ih hwords.symm]

namespace Program

open Cursor Grammar Progress

variable {ts us before before' rest rest' : List Token} {m n : Nat} {s s₁ s₂ : Progress}
  {p q : Program} {fault : ParseFault}

/-! ## Where the machine is blocked -/

theorem Blocked.eq_nil (hblocked : Blocked s rest) (hrun : s.run before = some s₁)
    (hinitial : before <+: rest) : before = [] := by
  cases before with
  | nil => rfl
  | cons t more =>
    obtain ⟨later, rfl⟩ := hinitial
    have hstep : s.step t.kind = none := hblocked
    rw [run_cons, hstep] at hrun
    cases hrun

/-- There is one place at which the machine is blocked. -/
theorem Blocked.unique (hrun : s.run before = some s₁) (hblocked : Blocked s₁ rest)
    (hrun' : s.run before' = some s₂) (hblocked' : Blocked s₂ rest')
    (h : before ++ rest = before' ++ rest') : s₁ = s₂ ∧ rest = rest' := by
  rcases List.append_eq_append_iff.mp h with ⟨more, rfl, rfl⟩ | ⟨more, rfl, rfl⟩
  · rw [run_append, hrun] at hrun'
    obtain rfl := hblocked.eq_nil hrun' (List.prefix_append _ _)
    exact ⟨Option.some.inj hrun', rfl⟩
  · rw [run_append, hrun'] at hrun
    obtain rfl := hblocked'.eq_nil hrun (List.prefix_append _ _)
    exact ⟨(Option.some.inj hrun).symm, rfl⟩

/-- Tokens that block the machine are refused where they do. -/
theorem ofTokens_of_blocked (hne : before ++ rest ≠ []) (hrun : Progress.start.run before = some s)
    (hblocked : Blocked s rest) :
    ofTokens (before ++ rest) m = .error (blockedFault s m rest) := by
  cases h : ofTokens (before ++ rest) m with
  | ok p =>
    obtain ⟨d, hlimit, htokens, -⟩ := exists_derivation h
    obtain ⟨s', hrun', hend⟩ := run_of_derivable ⟨d, hlimit, htokens⟩
    rw [run_append, hrun] at hrun'
    obtain rfl := hblocked.eq_nil hrun' List.prefix_rfl
    cases hrun'
    cases hend.symm.trans hblocked
  | error fault =>
    obtain ⟨c, hstuck⟩ := ofTokens_stuck hne h
    generalize htokens : before ++ rest = tokens at hstuck
    cases hstuck with
    | intro hrun' hblocked' =>
      obtain ⟨rfl, rfl⟩ := Blocked.unique hrun hblocked hrun' hblocked' htokens
      rfl

/-! ## The same words -/

theorem head?_kind_congr (h : ts.map Token.word = us.map Token.word) :
    ts.head?.map Token.kind = us.head?.map Token.kind := by
  have hhead := congrArg (fun words => words.head?.map Surface.Word.kind) h
  simp only [List.head?_map, Option.map_map] at hhead
  exact hhead

theorem Blocked.congr (h : ts.map Token.word = us.map Token.word) (hblocked : Blocked s ts) :
    Blocked s us := by
  have hhead := head?_kind_congr h
  cases ts <;> cases us <;> simp_all [Blocked]

theorem positionAt_append (finish groups : Nat) :
    positionAt (before ++ rest) finish before.length = position ⟨rest, finish, groups⟩ := by
  rw [positionAt, List.getElem?_append_right (Nat.le_refl _), Nat.sub_self]
  cases rest <;> rfl

theorem moveTo_blockedFault (s : Progress)
    (h : rest.head?.map Token.kind = rest'.head?.map Token.kind) :
    (blockedFault s m rest).moveTo (position ⟨rest', n, s.groups⟩) = blockedFault s n rest' := by
  unfold blockedFault
  split
  · rfl
  · rw [h]
    split <;> rfl

/-- The outcomes of two readings, of tokens up to the places `m` and `n`, are programs that
are equal up to positions, or faults that differ in their places only and point at the same
token of both lists, or at the end of both. -/
inductive ReadAlike (ts us : List Token) (m n : Nat) :
    Except ParseFault Program → Except ParseFault Program → Prop
  | program {p q : Program} (h : p.unplaced = q.unplaced) : ReadAlike ts us m n (.ok p) (.ok q)
  | fault (fault : ParseFault) {i : Nat} (hi : i ≤ ts.length) :
      ReadAlike ts us m n (.error (fault.moveTo (positionAt ts m i)))
        (.error (fault.moveTo (positionAt us n i)))

/-- What is read of the same words is the same up to positions. -/
theorem unplaced_congr (h : ts.map Token.word = us.map Token.word)
    (hp : ofTokens ts m = .ok p) (hq : ofTokens us n = .ok q) : p.unplaced = q.unplaced := by
  obtain ⟨d, -, rfl, rfl⟩ := exists_derivation hp
  obtain ⟨d', -, rfl, rfl⟩ := exists_derivation hq
  let place (w : Surface.Word) : Token := ⟨w.kind, w.text, 0⟩
  have htokens : (d.mapPosition fun _ => 0).tokens = (d'.mapPosition fun _ => 0).tokens := by
    have hplaced := congrArg (List.map place) h
    rw [List.map_map, List.map_map] at hplaced
    rw [d.tokens_mapPosition, d'.tokens_mapPosition]
    exact hplaced
  have hprogram := congrArg Derivation.program (Derivation.ext_tokens htokens)
  rw [d.program_mapPosition, d'.program_mapPosition] at hprogram
  exact hprogram

/-- A fault is found for the same words again. -/
theorem readAlike_of_error (h : ts.map Token.word = us.map Token.word)
    (hfault : ofTokens ts m = .error fault) :
    ReadAlike ts us m n (ofTokens ts m) (ofTokens us n) := by
  rcases eq_or_ne ts [] with rfl | hne
  · obtain rfl : us = [] := List.map_eq_nil_iff.mp h.symm
    exact .fault .emptyInput (Nat.zero_le 0)
  · obtain ⟨c, hstuck⟩ := ofTokens_stuck hne hfault
    cases hstuck with
    | @intro before rest s hrun hblocked =>
      have hne' : us ≠ [] := by
        rintro rfl
        exact hne (List.map_eq_nil_iff.mp h)
      -- the other list is divided at the same place
      rw [List.map_append] at h
      obtain ⟨before', rest', rfl, hbefore, hrest⟩ := List.map_eq_append_iff.mp h.symm
      have hlength : before'.length = before.length := by
        simpa using congrArg List.length hbefore
      have hfault' : ofTokens (before' ++ rest') n = .error (blockedFault s n rest') :=
        ofTokens_of_blocked hne' ((run_congr hbefore _).trans hrun) (hblocked.congr hrest.symm)
      have halike : ReadAlike (before ++ rest) (before' ++ rest') m n _ _ :=
        .fault (blockedFault s m rest) (i := before.length) (by simp)
      rw [positionAt_append m s.groups, moveTo_blockedFault s rfl, ← hlength,
        positionAt_append n s.groups, moveTo_blockedFault s (head?_kind_congr hrest.symm)] at halike
      rw [hfault, hfault']
      exact halike

/-- Tokens with the same words are read alike. -/
theorem ofTokens_alike (h : ts.map Token.word = us.map Token.word) (m n : Nat) :
    ReadAlike ts us m n (ofTokens ts m) (ofTokens us n) := by
  cases hp : ofTokens ts m with
  | error fault =>
    rw [← hp]
    exact readAlike_of_error h hp
  | ok p =>
    cases hq : ofTokens us n with
    | ok q => exact .program (unplaced_congr h hp hq)
    | error fault =>
      -- a fault of the other list would be one of this list as well
      have halike := readAlike_of_error (n := m) h.symm hq
      rw [hp, hq] at halike
      cases halike

end Program

/-! ## One blank between tokens -/

namespace Token

open Surface (Spaced isGap_nil)

/-- The texts of some tokens with one blank between them. -/
def spacedText (tokens : List Token) : String := " ".intercalate (tokens.map Token.text)

theorem spaced_spacedText (tokens : List Token) :
    Spaced (tokens.map Token.word) (spacedText tokens).toList := by
  rw [List.map_eq_flatMap]
  exact .intercalate (fun t _ => List.cons_ne_nil _ _) fun t _ => .single t.word

/-- The texts of the tokens of a source are scanned as the same words. -/
theorem tokenize_spacedText {source : String} {tokens : List Token}
    (h : tokenize source = .ok tokens) :
    ∃ vs, tokenize (spacedText tokens) = .ok vs ∧ vs.map Token.word = tokens.map Token.word := by
  have hspelled : ∀ w ∈ tokens.map Token.word, Spelled w := by
    simpa using (tokenize_eq_ok_iff_cut.mp h).spelled
  have hwritten : Surface.Written (tokens.map Token.word) (spacedText tokens) :=
    ⟨[], _, isGap_nil, spaced_spacedText tokens, rfl⟩
  obtain ⟨vs, hscan, hwords⟩ := scan_written hwritten hspelled
  exact ⟨vs, tokenize_eq_ok.mpr hscan, hwords⟩

end Token

namespace Session

open Program (positionAt)
open Text (byteSize)

theorem observed_run_unplaced {a b : String} {p q : Program} (hp : Program.ofSource a = .ok p)
    (hq : Program.ofSource b = .ok q) (h : p.unplaced = q.unplaced) (s : Session) :
    observed (s.run a) = observed (s.run b) := by
  rw [observed_run hp, observed_run hq, evaluate, evaluate, ← Eval.program_unplaced p, h,
    Eval.program_unplaced]

/-- **Layout does not matter.** Two lines that are scanned as the same words are both read
as a program, the same up to positions, and then any session runs them to the same result
and the same bindings. Or both are refused for the same reason at the token with the same
index, or at the end of both, and change no bindings. Every line that is scanned has the
same words as its own tokens with one blank between them. -/
theorem run_layout :
    (∀ (a b : String) (ts us : List Token), Token.tokenize a = .ok ts → Token.tokenize b = .ok us →
      ts.map Token.word = us.map Token.word →
      (∃ p q, Program.ofSource a = .ok p ∧ Program.ofSource b = .ok q ∧
        p.unplaced = q.unplaced ∧ ∀ s : Session, observed (s.run a) = observed (s.run b)) ∨
      ∃ (fault : ParseFault) (i : Nat), i ≤ ts.length ∧
        let faultA := Fault.parse (fault.moveTo (positionAt ts (byteSize a.toList) i))
        let faultB := Fault.parse (fault.moveTo (positionAt us (byteSize b.toList) i))
        Program.ofSource a = .error faultA ∧ Program.ofSource b = .error faultB ∧
        ∀ s : Session, observed (s.run a) = (.error faultA, s.bindings) ∧
          observed (s.run b) = (.error faultB, s.bindings)) ∧
    ∀ (source : String) (tokens : List Token), Token.tokenize source = .ok tokens →
      ∃ vs, Token.tokenize (Token.spacedText tokens) = .ok vs ∧
        vs.map Token.word = tokens.map Token.word := by
  refine ⟨?_, fun source tokens => Token.tokenize_spacedText⟩
  intro a b ts us ha hb hwords
  have hsource := Program.ofSource_of_tokens ha
  have hsource' := Program.ofSource_of_tokens hb
  have halike := Program.ofTokens_alike hwords (byteSize a.toList) (byteSize b.toList)
  generalize Program.ofTokens ts (byteSize a.toList) = outcome at hsource halike
  generalize Program.ofTokens us (byteSize b.toList) = outcome' at hsource' halike
  cases halike with
  | program h =>
    exact .inl ⟨_, _, hsource, hsource', h, observed_run_unplaced hsource hsource' h⟩
  | @fault fault i hi =>
    exact .inr ⟨fault, i, hi, hsource, hsource', fun s =>
      ⟨observed_run_of_error hsource s, observed_run_of_error hsource' s⟩⟩

/-- A line that is read and one that is refused at its third token, each in two layouts. -/
theorem run_layout_blanks :
    (∀ s : Session, observed (s.run "x=(1+y)") = observed (s.run " x =\t( 1+ y ) ")) ∧
    (∀ s : Session,
      observed (s.run "(1 2") = (.error (.parse (.expected .rightParen 3)), s.bindings) ∧
      observed (s.run "( 1  2 ") = (.error (.parse (.expected .rightParen 5)), s.bindings)) ∧
    ∃ vs, Token.tokenize "x = ( 1 + y )" = .ok vs ∧
      vs.map Token.word = [⟨.identifier, "x"⟩, ⟨.assign, "="⟩, ⟨.leftParen, "("⟩, ⟨.number, "1"⟩,
        ⟨.plus, "+"⟩, ⟨.identifier, "y"⟩, ⟨.rightParen, ")"⟩] := by
  obtain ⟨halike, hspaced⟩ := run_layout
  have hassign : Token.tokenize "x=(1+y)" = .ok [⟨.identifier, "x", 0⟩, ⟨.assign, "=", 1⟩,
      ⟨.leftParen, "(", 2⟩, ⟨.number, "1", 3⟩, ⟨.plus, "+", 4⟩, ⟨.identifier, "y", 5⟩,
      ⟨.rightParen, ")", 6⟩] := by cbv
  have hassign' : Token.tokenize " x =\t( 1+ y ) " = .ok [⟨.identifier, "x", 1⟩, ⟨.assign, "=", 3⟩,
      ⟨.leftParen, "(", 5⟩, ⟨.number, "1", 7⟩, ⟨.plus, "+", 8⟩, ⟨.identifier, "y", 10⟩,
      ⟨.rightParen, ")", 12⟩] := by cbv
  have hgroup : Token.tokenize "(1 2" = .ok
      [⟨.leftParen, "(", 0⟩, ⟨.number, "1", 1⟩, ⟨.number, "2", 3⟩] := by cbv
  have hgroup' : Token.tokenize "( 1  2 " = .ok
      [⟨.leftParen, "(", 0⟩, ⟨.number, "1", 2⟩, ⟨.number, "2", 5⟩] := by cbv
  refine ⟨?_, ?_, hspaced _ _ hassign⟩
  · rcases halike _ _ _ _ hassign hassign' rfl with ⟨-, -, -, -, -, hrun⟩ | ⟨_, _, -, hfault, -⟩
    · exact hrun
    · rw [Program.ofSource_of_tokens hassign] at hfault
      cases hfault
  · rcases halike _ _ _ _ hgroup hgroup' rfl with ⟨_, _, hread, -⟩ | ⟨fault, i, hi, hfault, -, hrun⟩
    · rw [Program.ofSource_of_tokens hgroup] at hread
      cases hread
    · -- the fault at byte 3 is that of the third token, so the other one is at byte 5
      rw [Program.ofSource_of_tokens hgroup] at hfault
      have hindex : i ≤ 3 := hi
      interval_cases i <;> cases fault <;> cases hfault
      exact hrun

end Session

end LineCalc
