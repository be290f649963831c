import LineCalc.Proofs.Surface

/-!
# Scanning

What the scan of a text gives, one token at a time.

* `scanFrom_starts`: every token stands in the text at its position;
* `scan_written`: words that are written with blanks around them are scanned as
  these words, however the blanks are placed.
-/

namespace LineCalc.Token

open Text (byteSize byteSize_append)
open Surface (Word IsGap Spaced Written)

variable {first : Char} {rest : List Char} {lexeme : Lexeme} {position : Nat}

/-! ## One step of a scan -/

/-- A lexeme is cut off the text: nothing is lost. -/
theorem Lexeme.text_append_rest (h : munch? first rest = some lexeme) :
    lexeme.text ++ lexeme.rest = first :: rest := by
  unfold munch? at h
  split at h
  · cases h
    simp [Lexeme.run]
  · split at h
    · cases h
      simp [Lexeme.run]
    · split at h
      · cases h
        simp [Lexeme.run]
      · obtain ⟨kind, -, rfl⟩ := Option.map_eq_some_iff.mp h
        rfl

theorem scanFrom_nil : scanFrom position [] = ⟨[], none⟩ := by
  rw [scanFrom]

/-- A lexeme that is no space is a token, and the scan goes on after it. -/
theorem scanFrom_cons (h : Lexeme.munch? first rest = some lexeme) :
    scanFrom position (first :: rest) =
      let later := scanFrom (position + byteSize lexeme.text) lexeme.rest
      if lexeme.kind = .space then later
      else ⟨⟨lexeme.kind, .ofList lexeme.text, position⟩ :: later.tokens, later.fault⟩ := by
  rw [scanFrom]
  split
  · rename_i hnone
    rw [h] at hnone
    cases hnone
  · rename_i lexeme' hsome
    cases h.symm.trans hsome
    rfl

/-! ## Positions -/

/-- The token stands in the text at its position, `start` being that of the
text itself. -/
def StandsIn (t : Token) (start : Nat) (text : List Char) : Prop :=
  ∃ before after : List Char, text = before ++ t.text.toList ++ after ∧
    t.position = start + byteSize before

theorem StandsIn.after {t : Token} {start : Nat} {later : List Char} (skipped : List Char)
    (h : StandsIn t (start + byteSize skipped) later) : StandsIn t start (skipped ++ later) := by
  obtain ⟨before, after, rfl, hposition⟩ := h
  refine ⟨skipped ++ before, after, by simp, ?_⟩
  rw [hposition, byteSize_append]
  omega

theorem scanFrom_starts (position : Nat) (text : List Char) :
    ∀ t ∈ (scanFrom position text).tokens, StandsIn t position text := by
  fun_induction scanFrom position text with
  | case1 position => simp
  | case2 position first rest h => simp
  | case3 position first rest lexeme h hle later hspace ih =>
    intro t ht
    rw [← Lexeme.text_append_rest h]
    exact (ih t ht).after lexeme.text
  | case4 position first rest lexeme h hle later hspace ih =>
    intro t ht
    rw [← Lexeme.text_append_rest h]
    rcases List.mem_cons.mp ht with rfl | ht
    · exact ⟨[], lexeme.rest, by simp, by simp⟩
    · exact (ih t ht).after lexeme.text

theorem tokenize_eq_ok {source : String} {tokens : List Token} :
    tokenize source = .ok tokens ↔ scan source = ⟨tokens, none⟩ := by
  unfold tokenize Scan.result
  cases scan source with
  | mk found fault => cases fault <;> simp

theorem tokenize_starts {source : String} {tokens : List Token}
    (h : tokenize source = .ok tokens) : ∀ t ∈ tokens, StandsIn t 0 source.toList := by
  have hstarts := scanFrom_starts 0 source.toList
  rw [show scanFrom 0 source.toList = ⟨tokens, none⟩ from tokenize_eq_ok.mp h] at hstarts
  exact hstarts

/-! ## Character classes

A token ends where a character of no use to it follows. The classes of characters
that may begin a token are disjoint, so the first character tells its kind. -/

theorem le_toNat_of_isAlpha {c : Char} (h : c.isAlpha = true) : 'A'.toNat ≤ c.toNat := by
  rcases (Bool.or_eq_true _ _).mp h with hupper | hlower
  · exact UInt32.le_iff_toNat_le.mp (of_decide_eq_true hupper).1
  · have hle : 'a'.val ≤ c.val := of_decide_eq_true ((Bool.and_eq_true _ _).mp hlower).1
    exact Nat.le_trans (by decide : 'A'.toNat ≤ 'a'.toNat) (UInt32.le_iff_toNat_le.mp hle)

theorem le_toNat_of_isNameStart {c : Char} (h : isNameStart c = true) :
    'A'.toNat ≤ c.toNat := by
  simp only [isNameStart, Bool.or_eq_true, beq_iff_eq] at h
  rcases h with halpha | rfl
  · exact le_toNat_of_isAlpha halpha
  · decide

theorem toNat_le_of_isNumeral {c : Char} (h : isNumeral c = true) : c.toNat ≤ '9'.toNat := by
  simp only [isNumeral, Bool.or_eq_true, beq_iff_eq] at h
  rcases h with hdigit | rfl
  · exact (Char.isDigit_iff_toNat.mp hdigit).2
  · decide

theorem isNumeral_of_isNameStart {c : Char} (h : isNameStart c = true) : isNumeral c = false := by
  cases hnumeral : isNumeral c with
  | false => rfl
  | true =>
    have hle := Nat.le_trans (le_toNat_of_isNameStart h) (toNat_le_of_isNumeral hnumeral)
    exact absurd hle (by decide)

theorem classes_of_isSpace {c : Char} (h : isSpace c = true) :
    isNumeral c = false ∧ isNamePart c = false ∧ isNameStart c = false := by
  simp only [isSpace, Bool.or_eq_true, beq_iff_eq] at h
  rcases h with ((((rfl | rfl) | rfl) | rfl) | rfl) | rfl <;> decide

theorem classes_of_mark? {c : Char} {kind : Kind} (h : mark? c = some kind) :
    isNumeral c = false ∧ isNamePart c = false ∧ isNameStart c = false ∧ isSpace c = false := by
  unfold mark? at h
  split at h
  all_goals first | decide | cases h

theorem isSpace_of_isNumeral {c : Char} (h : isNumeral c = true) : isSpace c = false := by
  cases hspace : isSpace c with
  | false => rfl
  | true =>
    rw [(classes_of_isSpace hspace).1] at h
    cases h

theorem isSpace_of_isNameStart {c : Char} (h : isNameStart c = true) : isSpace c = false := by
  cases hspace : isSpace c with
  | false => rfl
  | true =>
    rw [(classes_of_isSpace hspace).2.2] at h
    cases h

/-! ## Words -/

/-- A token without its place. -/
def word (t : Token) : Word := ⟨t.kind, t.text⟩

/-- The characters that go on with a token of a kind. -/
def continues : Kind → Char → Bool
  | .number => isNumeral
  | .identifier => isNamePart
  | .space => isSpace
  | _ => fun _ => false

/-- The word is one that a scan can give. -/
inductive Spelled : Word → Prop
  | number {text : String} {first : Char} {more : List Char} (htext : text.toList = first :: more)
      (hfirst : isNumeral first = true) (hmore : ∀ c ∈ more, isNumeral c = true) :
      Spelled ⟨.number, text⟩
  | identifier {text : String} {first : Char} {more : List Char}
      (htext : text.toList = first :: more) (hfirst : isNameStart first = true)
      (hmore : ∀ c ∈ more, isNamePart c = true) : Spelled ⟨.identifier, text⟩
  | mark {kind : Kind} {text : String} {first : Char} (htext : text.toList = [first])
      (hfirst : mark? first = some kind) : Spelled ⟨kind, text⟩

/-- No character follows that goes on with a token of the kind. -/
def Stops (kind : Kind) (rest : List Char) : Prop :=
  ∀ c ∈ rest.head?, continues kind c = false

theorem Stops.takeWhile {kind : Kind} (h : Stops kind rest) :
    rest.takeWhile (continues kind) = [] := by
  cases rest with
  | nil => rfl
  | cons c later => simp [h c rfl]

theorem Stops.dropWhile {kind : Kind} (h : Stops kind rest) :
    rest.dropWhile (continues kind) = rest := by
  cases rest with
  | nil => rfl
  | cons c later => simp [h c rfl]

theorem Lexeme.run_eq {kind : Kind} {more : List Char} (hmore : ∀ c ∈ more, continues kind c = true)
    (h : Stops kind rest) :
    Lexeme.run kind (continues kind) first (more ++ rest) = ⟨kind, first :: more, rest⟩ := by
  rw [Lexeme.run, List.takeWhile_append_of_pos hmore, List.dropWhile_append_of_pos hmore,
    h.takeWhile, h.dropWhile, List.append_nil]

/-- A word is read off a text that begins with it, if it stops there. -/
theorem Spelled.munch {w : Word} (hw : Spelled w) (h : Stops w.kind rest) :
    ∃ first more, w.text.toList = first :: more ∧ isSpace first = false ∧ w.kind ≠ .space ∧
      Lexeme.munch? first (more ++ rest) = some ⟨w.kind, first :: more, rest⟩ := by
  cases hw with
  | @number text first more htext hfirst hmore =>
    refine ⟨first, more, htext, isSpace_of_isNumeral hfirst, by simp, ?_⟩
    rw [Lexeme.munch?, if_pos hfirst]
    exact congrArg some (Lexeme.run_eq hmore h)
  | @identifier text first more htext hfirst hmore =>
    have hnumeral := isNumeral_of_isNameStart hfirst
    refine ⟨first, more, htext, isSpace_of_isNameStart hfirst, by simp, ?_⟩
    rw [Lexeme.munch?, if_neg (by simp [hnumeral]), if_pos hfirst]
    exact congrArg some (Lexeme.run_eq hmore h)
  | @mark kind text first htext hfirst =>
    obtain ⟨hnumeral, -, hname, hspace⟩ := classes_of_mark? hfirst
    refine ⟨first, [], htext, hspace, ?_, ?_⟩
    · rintro rfl
      unfold mark? at hfirst
      split at hfirst <;> cases hfirst
    · simp [Lexeme.munch?, hnumeral, hname, hspace, hfirst]

theorem scanFrom_word {w : Word} (hw : Spelled w) (h : Stops w.kind rest) :
    scanFrom position (w.text.toList ++ rest) =
      ⟨⟨w.kind, w.text, position⟩ ::
        (scanFrom (position + byteSize w.text.toList) rest).tokens,
        (scanFrom (position + byteSize w.text.toList) rest).fault⟩ := by
  obtain ⟨first, more, htext, -, hkind, hmunch⟩ := hw.munch h
  rw [htext, List.cons_append, scanFrom_cons hmunch, if_neg hkind]
  simp only [← htext, String.ofList_toList]

theorem scanFrom_gap {gap : List Char} (hgap : IsGap gap)
    (hrest : ∀ c ∈ rest.head?, isSpace c = false) :
    scanFrom position (gap ++ rest) = scanFrom (position + byteSize gap) rest := by
  cases gap with
  | nil => rfl
  | cons c more =>
    have hc : isSpace c = true := hgap c (by simp)
    obtain ⟨hnumeral, -, hname⟩ := classes_of_isSpace hc
    have hmunch : Lexeme.munch? c (more ++ rest) = some ⟨.space, c :: more, rest⟩ := by
      rw [Lexeme.munch?, if_neg (by simp [hnumeral]), if_neg (by simp [hname]), if_pos hc]
      exact congrArg some (Lexeme.run_eq (fun c' hc' => hgap c' (by simp [hc'])) hrest)
    exact (scanFrom_cons hmunch).trans (if_pos rfl)

/-! ## Written words -/

section
variable {w next : Word}

theorem Spelled.continues_eq_false (hw : Spelled w) {c : Char} (hc : isSpace c = true) :
    continues w.kind c = false := by
  obtain ⟨hnumeral, hpart, -⟩ := classes_of_isSpace hc
  cases hw with
  | number => exact hnumeral
  | identifier => exact hpart
  | mark htext hfirst =>
    unfold mark? at hfirst
    split at hfirst <;> cases hfirst <;> rfl

theorem Spelled.head (hw : Spelled w) :
    ∃ first more, w.text.toList = first :: more ∧ isSpace first = false := by
  have hstops : Stops w.kind [] := fun c hc => by cases hc
  obtain ⟨first, more, htext, hspace, -⟩ := hw.munch hstops
  exact ⟨first, more, htext, hspace⟩

/-- A word stops before a word that follows at once, unless both are atoms. -/
theorem Spelled.stops_word (hw : Spelled w) (hnext : Spelled next)
    (hapart : ¬ (w.kind.isAtom = true ∧ next.kind.isAtom = true)) (rest : List Char) :
    Stops w.kind (next.text.toList ++ rest) := by
  cases hw with
  | mark htext hfirst =>
    intro c _
    unfold mark? at hfirst
    split at hfirst <;> cases hfirst <;> rfl
  | _ =>
    cases hnext with
    | @mark kind text first htext hfirst =>
      intro c hc
      rw [htext] at hc
      cases hc
      first
      | exact (classes_of_mark? hfirst).1
      | exact (classes_of_mark? hfirst).2.1
    | _ => exact absurd ⟨rfl, rfl⟩ hapart

end

theorem spaced_head {words : List Word} {text : List Char} (h : Spaced words text)
    (hwords : ∀ w ∈ words, Spelled w) : ∀ c ∈ text.head?, isSpace c = false := by
  intro c hc
  cases h with
  | nil => cases hc
  | cons w hgap hapart hlater =>
    obtain ⟨first, more, htext, hspace⟩ := (hwords w (by simp)).head
    rw [htext] at hc
    cases hc
    exact hspace

theorem stops_spaced {w : Word} {gap : List Char} {words : List Word} {text : List Char}
    (hw : Spelled w) (hgap : IsGap gap)
    (hapart : w.kind.isAtom = true → (∃ next ∈ words.head?, next.kind.isAtom = true) → gap ≠ [])
    (h : Spaced words text) (hwords : ∀ w ∈ words, Spelled w) :
    Stops w.kind (gap ++ text) := by
  cases gap with
  | cons c more =>
    intro c' hc'
    cases hc'
    exact hw.continues_eq_false (hgap c (by simp))
  | nil =>
    -- without a gap the next word follows at once
    cases h with
    | nil =>
      intro c hc
      cases hc
    | cons next _ _ _ =>
      refine hw.stops_word (hwords next (by simp)) ?_ _
      rintro ⟨hatom, hnext⟩
      exact hapart hatom ⟨next, rfl, hnext⟩ rfl

theorem scanFrom_spaced {words : List Word} {text : List Char} (h : Spaced words text)
    (hwords : ∀ w ∈ words, Spelled w) (position : Nat) :
    ∃ tokens, scanFrom position text = ⟨tokens, none⟩ ∧ tokens.map Token.word = words := by
  induction h generalizing position with
  | nil => exact ⟨[], scanFrom_nil, rfl⟩
  | @cons w gap words text hgap hapart hlater ih =>
    have hw : Spelled w := hwords w (by simp)
    have hlaterWords : ∀ w' ∈ words, Spelled w' := fun w' hw' => hwords w' (by simp [hw'])
    rw [scanFrom_word hw (stops_spaced hw hgap hapart hlater hlaterWords),
      scanFrom_gap hgap (spaced_head hlater hlaterWords)]
    obtain ⟨tokens, hscan, hmap⟩ :=
      ih hlaterWords (position + byteSize w.text.toList + byteSize gap)
    rw [hscan]
    exact ⟨⟨w.kind, w.text, position⟩ :: tokens, rfl, by rw [List.map_cons, hmap]; rfl⟩

/-- A text is scanned as the words that it is a way of writing. -/
theorem scan_written {words : List Word} {text : String} (h : Written words text)
    (hwords : ∀ w ∈ words, Spelled w) :
    ∃ tokens, scan text = ⟨tokens, none⟩ ∧ tokens.map Token.word = words := by
  obtain ⟨gap, rest, hgap, hspaced, htext⟩ := h
  rw [scan, htext, scanFrom_gap hgap (spaced_head hspaced hwords)]
  exact scanFrom_spaced hspaced hwords _

end LineCalc.Token
