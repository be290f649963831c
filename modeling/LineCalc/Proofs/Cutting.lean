import Mathlib.Data.List.TakeWhile
import LineCalc.Proofs.Scanning

/-!
# Cutting a text into tokens

`Cut` says how a text is cut without saying how it is scanned: a blank is skipped,
and a word is cut off where no character follows that goes on with it. The scan of
a text comes to its end just if the text can be cut, and finds the tokens of the
cut (`scanFrom_eq_iff_cut`).

A cut does not look ahead past the next character. Two cuts can therefore be put
together at a blank (`Cut.append`).
-/

namespace LineCalc.Token

open Text (byteSize byteSize_append byteSize_cons)
open Surface (Word IsGap)

/-- A text that starts at byte `position` of the source, and its tokens. -/
inductive Cut : Nat → List Char → List Token → Prop
  | nil (position : Nat) : Cut position [] []
  | space {position : Nat} {c : Char} {rest : List Char} {tokens : List Token}
      (hc : isSpace c = true) (hrest : Cut (position + c.utf8Size) rest tokens) :
      Cut position (c :: rest) tokens
  | word {position : Nat} {w : Word} {rest : List Char} {tokens : List Token}
      (hw : Spelled w) (hstops : Stops w.kind rest)
      (hrest : Cut (position + byteSize w.text.toList) rest tokens) :
      Cut position (w.text.toList ++ rest) (⟨w.kind, w.text, position⟩ :: tokens)

variable {position : Nat} {text rest : List Char} {tokens : List Token}

/-! ## Scans are cuts -/

theorem stops_dropWhile (kind : Kind) (rest : List Char) :
    Stops kind (rest.dropWhile (continues kind)) := by
  intro c hc
  have hnot := List.head?_dropWhile_not (continues kind) rest
  rw [hc] at hnot
  exact hnot

theorem Spelled.kind_ne_space {w : Word} (hw : Spelled w) : w.kind ≠ .space := by
  have hstops : Stops w.kind [] := fun c hc => by cases hc
  obtain ⟨-, -, -, -, hkind, -⟩ := hw.munch hstops
  exact hkind

theorem continues_of_mark? {first : Char} {kind : Kind} (h : mark? first = some kind) (c : Char) :
    continues kind c = false := by
  unfold mark? at h
  split at h <;> cases h <;> rfl

/-- What a lexeme is: some blanks, or a word that stops where the lexeme ends. -/
theorem Lexeme.munch_cases {first : Char} {lexeme : Lexeme}
    (h : munch? first rest = some lexeme) :
    (lexeme.kind = .space ∧ IsGap lexeme.text) ∨
    (lexeme.kind ≠ .space ∧ Spelled ⟨lexeme.kind, .ofList lexeme.text⟩ ∧
      Stops lexeme.kind lexeme.rest) := by
  unfold munch? at h
  split at h
  · rename_i hfirst
    cases h
    exact .inr ⟨by simp [Lexeme.run], .number String.toList_ofList hfirst
      (fun c hc => List.mem_takeWhile_imp hc), stops_dropWhile .number rest⟩
  · split at h
    · rename_i hfirst
      cases h
      exact .inr ⟨by simp [Lexeme.run], .identifier String.toList_ofList hfirst
        (fun c hc => List.mem_takeWhile_imp hc), stops_dropWhile .identifier rest⟩
    · split at h
      · rename_i hfirst
        cases h
        exact .inl ⟨rfl, List.forall_mem_cons.mpr
          ⟨hfirst, fun c hc => List.mem_takeWhile_imp hc⟩⟩
      · obtain ⟨kind, hkind, rfl⟩ := Option.map_eq_some_iff.mp h
        have hmark : Spelled ⟨kind, .ofList [first]⟩ := .mark String.toList_ofList hkind
        refine .inr ⟨hmark.kind_ne_space, hmark, ?_⟩
        intro c _
        exact continues_of_mark? hkind c

theorem Cut.gap {gap : List Char} (hgap : IsGap gap)
    (h : Cut (position + byteSize gap) rest tokens) : Cut position (gap ++ rest) tokens := by
  induction gap generalizing position with
  | nil => exact h
  | cons c more ih =>
    refine .space (hgap c (by simp)) (ih (fun c' hc' => hgap c' (by simp [hc'])) ?_)
    rw [Nat.add_assoc]
    exact h

theorem cut_scanFrom (position : Nat) (text : List Char) :
    (scanFrom position text).fault = none → Cut position text (scanFrom position text).tokens := by
  fun_induction scanFrom position text with
  | case1 position => exact fun _ => .nil position
  | case2 position first rest hnone =>
    intro h
    cases h
  | case3 position first rest lexeme hmunch hle later hspace ih =>
    intro h
    rcases Lexeme.munch_cases hmunch with ⟨-, hgap⟩ | ⟨hkind, -⟩
    · rw [← Lexeme.text_append_rest hmunch]
      exact .gap hgap (ih h)
    · exact absurd hspace hkind
  | case4 position first rest lexeme hmunch hle later hspace ih =>
    intro h
    rcases Lexeme.munch_cases hmunch with ⟨hkind, -⟩ | ⟨-, hw, hstops⟩
    · exact absurd hkind hspace
    · have hcut : Cut position ((String.ofList lexeme.text).toList ++ lexeme.rest)
          (⟨lexeme.kind, .ofList lexeme.text, position⟩ :: later.tokens) :=
        .word hw hstops (by rw [String.toList_ofList]; exact ih h)
      rw [String.toList_ofList, Lexeme.text_append_rest hmunch] at hcut
      exact hcut

/-! ## Cuts are scans -/

/-- One blank is skipped, whether or not others follow it. -/
theorem scanFrom_space {c : Char} (hc : isSpace c = true) :
    scanFrom position (c :: rest) = scanFrom (position + c.utf8Size) rest := by
  have hgap : IsGap (rest.takeWhile isSpace) := fun c' hc' => List.mem_takeWhile_imp hc'
  have hmore : IsGap (c :: rest.takeWhile isSpace) := List.forall_mem_cons.mpr ⟨hc, hgap⟩
  have hend : ∀ c' ∈ (rest.dropWhile isSpace).head?, isSpace c' = false :=
    stops_dropWhile .space rest
  calc scanFrom position (c :: rest)
    _ = scanFrom position (c :: rest.takeWhile isSpace ++ rest.dropWhile isSpace) := by simp
    _ = scanFrom (position + (c.utf8Size + byteSize (rest.takeWhile isSpace)))
          (rest.dropWhile isSpace) := scanFrom_gap hmore hend
    _ = scanFrom (position + c.utf8Size)
          (rest.takeWhile isSpace ++ rest.dropWhile isSpace) := by
        rw [scanFrom_gap hgap hend, Nat.add_assoc]
    _ = scanFrom (position + c.utf8Size) rest := by rw [List.takeWhile_append_dropWhile]

theorem Cut.scanFrom_eq (h : Cut position text tokens) :
    scanFrom position text = ⟨tokens, none⟩ := by
  induction h with
  | nil position => exact scanFrom_nil
  | space hc _ ih => rw [scanFrom_space hc, ih]
  | word hw hstops _ ih => rw [scanFrom_word hw hstops, ih]

/-- The scan of a text finds the tokens of its cut. -/
theorem scanFrom_eq_iff_cut :
    scanFrom position text = ⟨tokens, none⟩ ↔ Cut position text tokens := by
  constructor
  · intro h
    have hcut := cut_scanFrom position text (by rw [h])
    rw [h] at hcut
    exact hcut
  · exact Cut.scanFrom_eq

theorem tokenize_eq_ok_iff_cut {source : String} :
    tokenize source = .ok tokens ↔ Cut 0 source.toList tokens :=
  tokenize_eq_ok.trans scanFrom_eq_iff_cut

/-! ## What is known of a cut -/

/-- Every token of a cut is a word that a scan can give. -/
theorem Cut.spelled (h : Cut position text tokens) : ∀ t ∈ tokens, Spelled t.word := by
  induction h with
  | nil => simp
  | space _ _ ih => exact ih
  | word hw _ _ ih => exact List.forall_mem_cons.mpr ⟨hw, ih⟩

theorem Spelled.stops_gap {w : Word} (hw : Spelled w) {gap : List Char} (hgap : IsGap gap)
    (hne : gap ≠ []) (hstops : Stops w.kind text) (later : List Char) :
    Stops w.kind (text ++ (gap ++ later)) := by
  intro c hc
  cases text with
  | cons c' more => exact hstops c hc
  | nil =>
    -- the word is at the end of the text, so a blank comes next
    obtain ⟨blank, more, rfl⟩ := List.exists_cons_of_ne_nil hne
    obtain rfl : blank = c := by simpa using hc
    exact hw.continues_eq_false (hgap blank (by simp))

/-- Two texts with a blank between them are cut one after the other. -/
theorem Cut.append {gap later : List Char} {more : List Token} (hgap : IsGap gap)
    (hne : gap ≠ []) (h : Cut position text tokens)
    (hlater : Cut (position + byteSize (text ++ gap)) later more) :
    Cut position (text ++ (gap ++ later)) (tokens ++ more) := by
  induction h with
  | nil position =>
    show Cut position (gap ++ later) more
    exact .gap hgap hlater
  | @space position c rest tokens hc _ ih =>
    refine .space hc (ih ?_)
    rw [Nat.add_assoc]
    exact hlater
  | @word position w rest tokens hw hstops _ ih =>
    rw [List.append_assoc]
    refine .word hw (hw.stops_gap hgap hne hstops later) (ih ?_)
    rw [Nat.add_assoc, ← byteSize_append, ← List.append_assoc]
    exact hlater

end LineCalc.Token
