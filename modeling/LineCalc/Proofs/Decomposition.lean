import Mathlib
import LineCalc.Proofs.Cutting

/-!
# The tokens of a source

What the tokens of a source are, said of the source as a whole and without a
reading order. Every kind of token has a regular expression (`Kind.pattern`). A list
of tokens decomposes a source (`Decomposes`) if the tokens are slices of it that
match the patterns of their kinds, their spans follow each other, only blanks stand
outside the spans, and no number or name could be longer.

Main statement: a source has such tokens just if all its characters belong to the
alphabet, and tokenizing finds them (`tokenize_eq_ok_iff_decomposes`); else it fails
at the first character that does not belong there.

Offsets are of bytes. A decomposition is turned into a cut by looking at the first
byte: either a token covers it, which is then the first one and stands there, or it
is a blank.
-/

namespace LineCalc.Token

open Text (byteSize byteSize_append byteSize_cons byteSize_nil)

/-! ## Patterns -/

/-! The classes of characters are written out in the order of their code points. -/

def numerals : List Char := ".0123456789".toList

def nameStarts : List Char := "ABCDEFGHIJKLMNOPQRSTUVWXYZ_abcdefghijklmnopqrstuvwxyz".toList

def nameParts : List Char :=
  "0123456789ABCDEFGHIJKLMNOPQRSTUVWXYZ_abcdefghijklmnopqrstuvwxyz".toList

def blanks : List Char := "\t\n\x0b\x0c\r ".toList

def marks : List Char := "%()*+-/=".toList

/-- The characters that a source may have. -/
def alphabet : List Char := numerals ++ (nameStarts ++ (blanks ++ marks))

/-- Any one of the characters. -/
def oneOf (cs : List Char) : RegularExpression Char := (cs.map .char).sum

/-- The texts that a token of the kind can have. -/
def Kind.pattern : Kind → RegularExpression Char
  | number => oneOf numerals * (oneOf numerals).star
  | identifier => oneOf nameStarts * (oneOf nameParts).star
  | space => oneOf blanks * (oneOf blanks).star
  | assign => .char '='
  | plus => .char '+'
  | minus => .char '-'
  | times => .char '*'
  | divide => .char '/'
  | remainder => .char '%'
  | leftParen => .char '('
  | rightParen => .char ')'

theorem rmatch_oneOf (cs text : List Char) :
    (oneOf cs).rmatch text = true ↔ ∃ c ∈ cs, text = [c] := by
  induction cs with
  | nil => simp [oneOf]
  | cons c more ih =>
    have hcons : oneOf (c :: more) = .char c + oneOf more := rfl
    rw [hcons, RegularExpression.add_rmatch_iff, RegularExpression.char_rmatch_iff, ih]
    simp

theorem rmatch_star_oneOf (cs text : List Char) :
    (oneOf cs).star.rmatch text = true ↔ ∀ c ∈ text, c ∈ cs := by
  rw [RegularExpression.star_rmatch_iff]
  constructor
  · rintro ⟨parts, rfl, hparts⟩ c hc
    obtain ⟨part, hpart, hc⟩ := List.mem_flatten.mp hc
    obtain ⟨c', hc', rfl⟩ := (rmatch_oneOf cs part).mp (hparts part hpart).2
    rw [List.mem_singleton.mp hc]
    exact hc'
  · intro h
    refine ⟨text.map fun c => [c], (List.flatMap_singleton' text).symm, ?_⟩
    intro part hpart
    obtain ⟨c, hc, rfl⟩ := List.mem_map.mp hpart
    exact ⟨by simp, (rmatch_oneOf cs [c]).mpr ⟨c, h c hc, rfl⟩⟩

/-- One character of a class, and then any number of another one. -/
theorem rmatch_oneOf_mul_star (cs ds text : List Char) :
    (oneOf cs * (oneOf ds).star).rmatch text = true ↔
      ∃ first more, text = first :: more ∧ first ∈ cs ∧ ∀ c ∈ more, c ∈ ds := by
  rw [RegularExpression.mul_rmatch_iff]
  constructor
  · rintro ⟨front, more, rfl, hfront, hmore⟩
    obtain ⟨first, hfirst, rfl⟩ := (rmatch_oneOf cs front).mp hfront
    exact ⟨first, more, rfl, hfirst, (rmatch_star_oneOf ds more).mp hmore⟩
  · rintro ⟨first, more, rfl, hfirst, hmore⟩
    exact ⟨[first], more, rfl, (rmatch_oneOf cs _).mpr ⟨first, hfirst, rfl⟩,
      (rmatch_star_oneOf ds more).mpr hmore⟩

theorem rmatch_snoc_iff {cs ds text : List Char}
    (h : (oneOf cs * (oneOf ds).star).rmatch text = true) (c : Char) :
    (oneOf cs * (oneOf ds).star).rmatch (text ++ [c]) = true ↔ c ∈ ds := by
  obtain ⟨first, more, rfl, hfirst, hmore⟩ := (rmatch_oneOf_mul_star cs ds text).mp h
  rw [rmatch_oneOf_mul_star]
  constructor
  · rintro ⟨first', more', htext, -, hall⟩
    obtain ⟨-, rfl⟩ := List.cons.inj htext
    exact hall c (by simp)
  · intro hc
    refine ⟨first, more ++ [c], rfl, hfirst, ?_⟩
    exact List.forall_mem_append.mpr ⟨hmore, List.forall_mem_singleton.mpr hc⟩

/-! ## The classes of characters are those of the scan -/

/-- A class of ASCII characters is what is left of them when the others are dropped. -/
theorem mem_class_iff {p : Char → Bool} {cs : List Char} (hascii : ∀ c, p c = true → c.toNat < 128)
    (hclass : ((List.range 128).map Char.ofNat).filter p = cs) (c : Char) :
    p c = true ↔ c ∈ cs := by
  rw [← hclass, List.mem_filter]
  constructor
  · intro h
    refine ⟨List.mem_map.mpr ⟨c.toNat, ?_, Char.ofNat_toNat c⟩, h⟩
    exact List.mem_range.mpr (hascii c h)
  · exact fun h => h.2

theorem toNat_lt_of_isNumeral {c : Char} (h : isNumeral c = true) : c.toNat < 128 :=
  Nat.lt_of_le_of_lt (toNat_le_of_isNumeral h) (by decide)

theorem toNat_lt_of_isNameStart {c : Char} (h : isNameStart c = true) : c.toNat < 128 := by
  simp only [isNameStart, Char.isAlpha, Char.isUpper, Char.isLower, Bool.or_eq_true, beq_iff_eq,
    Bool.and_eq_true, decide_eq_true_eq] at h
  rcases h with (hupper | hlower) | rfl
  · exact Nat.lt_of_le_of_lt (UInt32.le_iff_toNat_le.mp hupper.2) (by decide)
  · exact Nat.lt_of_le_of_lt (UInt32.le_iff_toNat_le.mp hlower.2) (by decide)
  · decide

theorem toNat_lt_of_isNamePart {c : Char} (h : isNamePart c = true) : c.toNat < 128 := by
  simp only [isNamePart, Bool.or_eq_true] at h
  rcases h with hstart | hdigit
  · exact toNat_lt_of_isNameStart hstart
  · exact toNat_lt_of_isNumeral (by simp [isNumeral, hdigit])

theorem toNat_lt_of_isSpace {c : Char} (h : isSpace c = true) : c.toNat < 128 := by
  simp only [isSpace, Bool.or_eq_true, beq_iff_eq] at h
  rcases h with ((((rfl | rfl) | rfl) | rfl) | rfl) | rfl <;> decide

theorem toNat_lt_of_mark? {c : Char} (h : (mark? c).isSome = true) : c.toNat < 128 := by
  unfold mark? at h
  split at h <;> first | decide | cases h

theorem isNumeral_iff (c : Char) : isNumeral c = true ↔ c ∈ numerals :=
  mem_class_iff (fun _ => toNat_lt_of_isNumeral) (by decide +kernel) c

theorem isNameStart_iff (c : Char) : isNameStart c = true ↔ c ∈ nameStarts :=
  mem_class_iff (fun _ => toNat_lt_of_isNameStart) (by decide +kernel) c

theorem isNamePart_iff (c : Char) : isNamePart c = true ↔ c ∈ nameParts :=
  mem_class_iff (fun _ => toNat_lt_of_isNamePart) (by decide +kernel) c

theorem isSpace_iff (c : Char) : isSpace c = true ↔ c ∈ blanks :=
  mem_class_iff (fun _ => toNat_lt_of_isSpace) (by decide +kernel) c

theorem isSome_mark?_iff (c : Char) : (mark? c).isSome = true ↔ c ∈ marks :=
  mem_class_iff (p := fun c => (mark? c).isSome) (fun _ => toNat_lt_of_mark?) (by decide +kernel) c

theorem utf8Size_of_isSpace {c : Char} (h : isSpace c = true) : c.utf8Size = 1 := by
  simp only [isSpace, Bool.or_eq_true, beq_iff_eq] at h
  rcases h with ((((rfl | rfl) | rfl) | rfl) | rfl) | rfl <;> rfl

theorem pattern_of_mark? {c : Char} {kind : Kind} (h : mark? c = some kind) :
    kind.pattern = .char c := by
  unfold mark? at h
  split at h <;> cases h <;> rfl

/-- The words of a scan are the texts that match a pattern. -/
theorem spelled_iff (kind : Kind) (text : String) :
    Spelled ⟨kind, text⟩ ↔ kind ≠ .space ∧ kind.pattern.rmatch text.toList = true := by
  constructor
  · intro h
    refine ⟨h.kind_ne_space, ?_⟩
    cases h with
    | number htext hfirst hmore =>
      exact (rmatch_oneOf_mul_star _ _ _).mpr ⟨_, _, htext, (isNumeral_iff _).mp hfirst,
        fun c hc => (isNumeral_iff c).mp (hmore c hc)⟩
    | identifier htext hfirst hmore =>
      exact (rmatch_oneOf_mul_star _ _ _).mpr ⟨_, _, htext, (isNameStart_iff _).mp hfirst,
        fun c hc => (isNamePart_iff c).mp (hmore c hc)⟩
    | mark htext hfirst =>
      rw [pattern_of_mark? hfirst, RegularExpression.char_rmatch_iff]
      exact htext
  · rintro ⟨hspace, hmatch⟩
    cases kind with
    | number =>
      obtain ⟨first, more, htext, hfirst, hmore⟩ := (rmatch_oneOf_mul_star _ _ _).mp hmatch
      exact .number htext ((isNumeral_iff _).mpr hfirst)
        (fun c hc => (isNumeral_iff c).mpr (hmore c hc))
    | identifier =>
      obtain ⟨first, more, htext, hfirst, hmore⟩ := (rmatch_oneOf_mul_star _ _ _).mp hmatch
      exact .identifier htext ((isNameStart_iff _).mpr hfirst)
        (fun c hc => (isNamePart_iff c).mpr (hmore c hc))
    | space => exact absurd rfl hspace
    | _ => exact .mark ((RegularExpression.char_rmatch_iff _ _).mp hmatch) rfl

theorem Spelled.text_ne_nil {kind : Kind} {text : String} (h : Spelled ⟨kind, text⟩) :
    text.toList ≠ [] := by
  obtain ⟨first, more, htext, -⟩ := h.head
  have htext : text.toList = first :: more := htext
  rw [htext]
  exact List.cons_ne_nil first more

/-- A number or a name could be longer if the next character is of its class. -/
theorem Spelled.rmatch_snoc {kind : Kind} {text : String} (h : Spelled ⟨kind, text⟩)
    (hatom : kind.isAtom = true) (c : Char) :
    kind.pattern.rmatch (text.toList ++ [c]) = true ↔ continues kind c = true := by
  have hmatch := ((spelled_iff kind text).mp h).2
  cases kind with
  | number => exact (rmatch_snoc_iff hmatch c).trans (isNumeral_iff c).symm
  | identifier => exact (rmatch_snoc_iff hmatch c).trans (isNamePart_iff c).symm
  | _ => cases hatom

/-! ## Decompositions -/

/-- The byte offset at which a token ends. -/
def stop (t : Token) : Nat := t.position + byteSize t.text.toList

/-- The byte is one of those of the token. -/
def Covers (t : Token) (i : Nat) : Prop := t.position ≤ i ∧ i < t.stop

/-- The character stands at byte `i` of the source, `start` being the place of the
text in it. -/
def CharAt (start : Nat) (text : List Char) (i : Nat) (c : Char) : Prop :=
  ∃ before after : List Char, text = before ++ c :: after ∧ i = start + byteSize before

/-- The tokens are those of the text, which stands at byte `start` of the source. -/
structure Decomposes (start : Nat) (text : List Char) (tokens : List Token) : Prop where
  /-- Spans increase and do not overlap. -/
  ordered : tokens.Pairwise fun t u => t.position < u.position ∧ t.stop ≤ u.position
  /-- The text of a token is what the source has at its position. -/
  slice : ∀ t ∈ tokens, t.StandsIn start text
  matched : ∀ t ∈ tokens, t.kind.pattern.rmatch t.text.toList = true
  not_space : ∀ t ∈ tokens, t.kind ≠ .space
  /-- A byte that no token covers is a blank. -/
  blank_outside : ∀ i, start ≤ i → i < start + byteSize text → (∀ t ∈ tokens, ¬ t.Covers i) →
    ∃ c ∈ blanks, CharAt start text i c
  /-- The next character does not go on with a number or a name. -/
  maximal : ∀ t ∈ tokens, t.kind.isAtom = true → ∀ c, CharAt start text t.stop c →
    t.kind.pattern.rmatch (t.text.toList ++ [c]) = false

/-! ### Places in a text -/

theorem byteSize_pos {text : List Char} (h : text ≠ []) : 0 < byteSize text := by
  obtain ⟨c, more, rfl⟩ := List.exists_cons_of_ne_nil h
  have := c.utf8Size_pos
  rw [byteSize_cons]
  omega

theorem eq_nil_of_byteSize {text : List Char} (h : byteSize text = 0) : text = [] := by
  by_contra hne
  have := byteSize_pos hne
  omega

/-- Of two beginnings of a text, the one with fewer bytes begins the other. -/
theorem append_eq_append_of_byteSize_le {a b c d : List Char} (h : a ++ b = c ++ d)
    (hle : byteSize a ≤ byteSize c) : ∃ m, c = a ++ m ∧ b = m ++ d := by
  rcases List.append_eq_append_iff.mp h with hm | ⟨m, rfl, rfl⟩
  · exact hm
  · rw [byteSize_append] at hle
    obtain rfl : m = [] := eq_nil_of_byteSize (by omega)
    exact ⟨[], by simp, rfl⟩

variable {start i : Nat} {skipped text : List Char} {t : Token} {tokens : List Token} {c : Char}

theorem StandsIn.le_position (h : t.StandsIn start text) : start ≤ t.position := by
  obtain ⟨before, after, -, hposition⟩ := h
  omega

theorem standsIn_append (h : start + byteSize skipped ≤ t.position) :
    t.StandsIn start (skipped ++ text) ↔ t.StandsIn (start + byteSize skipped) text := by
  constructor
  · rintro ⟨before, after, htext, hposition⟩
    rw [List.append_assoc] at htext
    obtain ⟨m, rfl, rfl⟩ := append_eq_append_of_byteSize_le htext (by omega)
    refine ⟨m, after, by simp, ?_⟩
    rw [hposition, byteSize_append, Nat.add_assoc]
  · exact StandsIn.after skipped

theorem charAt_append (h : start + byteSize skipped ≤ i) :
    CharAt start (skipped ++ text) i c ↔ CharAt (start + byteSize skipped) text i c := by
  constructor
  · rintro ⟨before, after, htext, hi⟩
    obtain ⟨m, rfl, rfl⟩ := append_eq_append_of_byteSize_le htext (by omega)
    refine ⟨m, after, rfl, ?_⟩
    rw [hi, byteSize_append, Nat.add_assoc]
  · rintro ⟨before, after, rfl, hi⟩
    refine ⟨skipped ++ before, after, by simp, ?_⟩
    rw [hi, byteSize_append, Nat.add_assoc]

theorem charAt_cons {first : Char} (h : start + first.utf8Size ≤ i) :
    CharAt start (first :: text) i c ↔ CharAt (start + first.utf8Size) text i c :=
  @charAt_append start i [first] text c h

theorem charAt_start (h : CharAt start text start c) : ∃ rest, text = c :: rest := by
  obtain ⟨before, after, rfl, hi⟩ := h
  obtain rfl : before = [] := eq_nil_of_byteSize (by omega)
  exact ⟨after, rfl⟩

/-! ### The first byte of a text -/

/-- The tokens after a part of the text are those of what follows it, if none of
them reaches into that part and no other one reaches out of it. -/
theorem Decomposes.tail {later : List Token} (h : Decomposes start (skipped ++ text) tokens)
    (hsub : later.Sublist tokens) (hlater : ∀ u ∈ later, start + byteSize skipped ≤ u.position)
    (hgone : ∀ u ∈ tokens, u ∈ later ∨ u.stop ≤ start + byteSize skipped) :
    Decomposes (start + byteSize skipped) text later where
  ordered := h.ordered.sublist hsub
  slice := fun u hu => (standsIn_append (hlater u hu)).mp (h.slice u (hsub.subset hu))
  matched := fun u hu => h.matched u (hsub.subset hu)
  not_space := fun u hu => h.not_space u (hsub.subset hu)
  blank_outside := by
    intro i hi hend hfree
    have houtside : ∀ u ∈ tokens, ¬ u.Covers i := by
      intro u hu hcovers
      rcases hgone u hu with hu | hstop
      · exact hfree u hu hcovers
      · have := hcovers.2
        omega
    obtain ⟨c, hc, hat⟩ := h.blank_outside i (by omega) (by rw [byteSize_append]; omega) houtside
    exact ⟨c, hc, (charAt_append hi).mp hat⟩
  maximal := by
    intro u hu hatom c hat
    have hle : start + byteSize skipped ≤ u.stop := Nat.le_add_right_of_le (hlater u hu)
    exact h.maximal u (hsub.subset hu) hatom c ((charAt_append hle).mpr hat)

theorem Decomposes.spelled (h : Decomposes start text tokens) (ht : t ∈ tokens) :
    Spelled ⟨t.kind, t.text⟩ :=
  (spelled_iff t.kind t.text).mpr ⟨h.not_space t ht, h.matched t ht⟩

theorem Decomposes.lt_stop (h : Decomposes start text tokens) (ht : t ∈ tokens) :
    t.position < t.stop :=
  Nat.lt_add_of_pos_right (byteSize_pos (h.spelled ht).text_ne_nil)

/-- A token that covers the first byte is the first one, and the text begins with
it. -/
theorem Decomposes.covered (h : Decomposes start text tokens) (ht : t ∈ tokens)
    (hcovers : t.Covers start) :
    t.position = start ∧ ∃ later rest, tokens = t :: later ∧ text = t.text.toList ++ rest := by
  have hposition : t.position = start :=
    Nat.le_antisymm hcovers.1 (h.slice t ht).le_position
  refine ⟨hposition, ?_⟩
  obtain ⟨first, later, rfl⟩ := List.exists_cons_of_ne_nil (List.ne_nil_of_mem ht)
  have hfirst : t = first := by
    rcases List.mem_cons.mp ht with rfl | hmem
    · rfl
    · -- the first token would start before the text does
      have hlt := ((List.pairwise_cons.mp h.ordered).1 t hmem).1
      have hle := (h.slice first (by simp)).le_position
      omega
  obtain ⟨before, after, rfl, hbefore⟩ := h.slice t ht
  obtain rfl : before = [] := eq_nil_of_byteSize (by omega)
  exact ⟨later, after, by rw [hfirst], by rw [List.nil_append]⟩

/-- If no token covers the first byte, it is a blank and the tokens are those of the
rest. -/
theorem Decomposes.uncovered {rest : List Char} (h : Decomposes start (c :: rest) tokens)
    (hfree : ∀ t ∈ tokens, ¬ t.Covers start) :
    isSpace c = true ∧ Decomposes (start + c.utf8Size) rest tokens := by
  have hsize := c.utf8Size_pos
  obtain ⟨blank, hblank, hat⟩ := h.blank_outside start (Nat.le_refl start)
    (by rw [byteSize_cons]; omega) hfree
  obtain ⟨rest', htext⟩ := charAt_start hat
  obtain ⟨rfl, -⟩ := List.cons.inj htext
  have hskipped : byteSize [c] = c.utf8Size := rfl
  have hlater : ∀ u ∈ tokens, start + byteSize [c] ≤ u.position := by
    intro u hu
    obtain ⟨before, after, htext, hposition⟩ := h.slice u hu
    cases before with
    | nil =>
      refine absurd ⟨?_, ?_⟩ (hfree u hu)
      · rw [hposition]
        simp
      · have := h.lt_stop hu
        rw [hposition] at this
        simpa using this
    | cons c' more =>
      obtain ⟨rfl, -⟩ := List.cons.inj htext
      rw [hposition, hskipped, byteSize_cons]
      omega
  have hsplit : Decomposes start ([c] ++ rest) tokens := h
  exact ⟨(isSpace_iff c).mpr hblank,
    hsplit.tail (List.Sublist.refl tokens) hlater (fun u hu => .inl hu)⟩

theorem Decomposes.stops {rest : List Char} {later : List Token}
    (h : Decomposes start (t.text.toList ++ rest) (t :: later)) (hposition : t.position = start) :
    Stops t.kind rest := by
  intro c hc
  obtain ⟨more, rfl⟩ := List.head?_eq_some_iff.mp hc
  have hw := h.spelled (List.mem_cons_self (a := t))
  by_cases hatom : t.kind.isAtom = true
  · have hat : CharAt start (t.text.toList ++ c :: more) t.stop c :=
      ⟨t.text.toList, more, rfl, by rw [stop, hposition]⟩
    have hnot := h.maximal t (by simp) hatom c hat
    rw [Bool.eq_false_iff, Ne, hw.rmatch_snoc hatom, ← Ne, ← Bool.eq_false_iff] at hnot
    exact hnot
  · cases hkind : t.kind with
    | number => simp [hkind, Kind.isAtom] at hatom
    | identifier => simp [hkind, Kind.isAtom] at hatom
    | space => exact absurd hkind (h.not_space t (by simp))
    | _ => rfl

/-! ### Decompositions are cuts -/

theorem Decomposes.cut (h : Decomposes start text tokens) : Cut start text tokens := by
  induction hlength : text.length using Nat.strong_induction_on generalizing start text tokens with
  | _ length ih =>
    subst hlength
    by_cases hcovers : ∃ t ∈ tokens, t.Covers start
    · obtain ⟨t, ht, hcovers⟩ := hcovers
      obtain ⟨hposition, later, rest, rfl, rfl⟩ := h.covered ht hcovers
      have hshorter : rest.length < (t.text.toList ++ rest).length := by
        have := List.length_pos_iff.mpr (h.spelled ht).text_ne_nil
        rw [List.length_append]
        omega
      have hstop : t.stop = start + byteSize t.text.toList := by rw [stop, hposition]
      have hlater : Decomposes (start + byteSize t.text.toList) rest later := by
        refine h.tail (List.sublist_cons_self t later) ?_ ?_
        · intro u hu
          rw [← hstop]
          exact ((List.pairwise_cons.mp h.ordered).1 u hu).2
        · intro u hu
          rcases List.mem_cons.mp hu with rfl | hu
          · exact .inr hstop.le
          · exact .inl hu
      have hcut := Cut.word (h.spelled ht) (h.stops hposition) (ih _ hshorter hlater rfl)
      rw [← hposition] at hcut ⊢
      exact hcut
    · cases text with
      | nil =>
        -- a token would have to cover the place where the text is at its end
        cases tokens with
        | nil => exact .nil start
        | cons t later =>
          obtain ⟨before, after, htext, -⟩ := h.slice t (by simp)
          have hnil : t.text.toList = [] := by simp_all
          exact absurd hnil (h.spelled (by simp)).text_ne_nil
      | cons c rest =>
        obtain ⟨hc, hrest⟩ := h.uncovered (fun t ht hc => hcovers ⟨t, ht, hc⟩)
        exact .space hc (ih rest.length (by simp) hrest rfl)

/-! ### Cuts are decompositions -/

theorem Decomposes.nil (start : Nat) : Decomposes start [] [] where
  ordered := List.Pairwise.nil
  slice := by simp
  matched := by simp
  not_space := by simp
  blank_outside := by
    intro i hi hend
    rw [byteSize_nil] at hend
    omega
  maximal := by simp

theorem Decomposes.space {rest : List Char} (hc : isSpace c = true)
    (h : Decomposes (start + c.utf8Size) rest tokens) : Decomposes start (c :: rest) tokens where
  ordered := h.ordered
  slice := fun t ht => StandsIn.after [c] (h.slice t ht)
  matched := h.matched
  not_space := h.not_space
  blank_outside := by
    intro i hi hend hfree
    have hblank := (isSpace_iff c).mp hc
    by_cases hrest : start + c.utf8Size ≤ i
    · obtain ⟨c', hc', hat⟩ := h.blank_outside i hrest
        (by rw [byteSize_cons] at hend; omega) hfree
      exact ⟨c', hc', (charAt_cons hrest).mpr hat⟩
    · -- a blank has only one byte
      have hsize : c.utf8Size = 1 := utf8Size_of_isSpace hc
      exact ⟨c, hblank, [], rest, rfl, by simp; omega⟩
  maximal := by
    intro t ht hatom c' hat
    have hle : start + c.utf8Size ≤ t.stop :=
      Nat.le_add_right_of_le (h.slice t ht).le_position
    exact h.maximal t ht hatom c' ((charAt_cons hle).mp hat)

theorem Decomposes.word {rest : List Char} {later : List Token} (hposition : t.position = start)
    (hw : Spelled ⟨t.kind, t.text⟩) (hstops : Stops t.kind rest)
    (h : Decomposes (start + byteSize t.text.toList) rest later) :
    Decomposes start (t.text.toList ++ rest) (t :: later) := by
  obtain ⟨hspace, hmatch⟩ := (spelled_iff t.kind t.text).mp hw
  have hstop : t.stop = start + byteSize t.text.toList := by rw [stop, hposition]
  have hpos : 0 < byteSize t.text.toList := byteSize_pos hw.text_ne_nil
  constructor
  · refine List.pairwise_cons.mpr ⟨?_, h.ordered⟩
    intro u hu
    have := (h.slice u hu).le_position
    rw [hstop, hposition]
    omega
  · refine List.forall_mem_cons.mpr ⟨⟨[], rest, by simp, by simp [hposition]⟩, ?_⟩
    exact fun u hu => (h.slice u hu).after t.text.toList
  · exact List.forall_mem_cons.mpr ⟨hmatch, h.matched⟩
  · exact List.forall_mem_cons.mpr ⟨hspace, h.not_space⟩
  · intro i hi hend hfree
    -- the bytes before the rest are those of the token
    have hrest : start + byteSize t.text.toList ≤ i := by
      by_contra hlt
      exact hfree t (by simp) ⟨by rw [hposition]; exact hi, by rw [hstop]; omega⟩
    obtain ⟨c, hc, hat⟩ := h.blank_outside i hrest (by rw [byteSize_append] at hend; omega)
      (fun u hu => hfree u (by simp [hu]))
    exact ⟨c, hc, (charAt_append hrest).mpr hat⟩
  · intro u hu hatom c hat
    rcases List.mem_cons.mp hu with rfl | hu
    · rw [hstop, charAt_append (Nat.le_refl _)] at hat
      obtain ⟨more, rfl⟩ := charAt_start hat
      rw [Bool.eq_false_iff, Ne, hw.rmatch_snoc hatom, hstops c rfl]
      exact Bool.false_ne_true
    · have hle : start + byteSize t.text.toList ≤ u.stop :=
        Nat.le_add_right_of_le (h.slice u hu).le_position
      exact h.maximal u hu hatom c ((charAt_append hle).mp hat)

theorem Cut.decomposes (h : Cut start text tokens) : Decomposes start text tokens := by
  induction h with
  | nil position => exact .nil position
  | space hc _ ih => exact .space hc ih
  | @word position w rest tokens hw hstops _ ih =>
    exact Decomposes.word (t := ⟨w.kind, w.text, position⟩) rfl hw hstops ih

theorem decomposes_iff_cut : Decomposes start text tokens ↔ Cut start text tokens :=
  ⟨Decomposes.cut, Cut.decomposes⟩

/-! ## Characters outside the alphabet -/

theorem mem_alphabet_iff (c : Char) : c ∈ alphabet ↔
    isNumeral c = true ∨ isNameStart c = true ∨ isSpace c = true ∨ (mark? c).isSome = true := by
  rw [isNumeral_iff, isNameStart_iff, isSpace_iff, isSome_mark?_iff, alphabet, List.mem_append,
    List.mem_append, List.mem_append]

/-- A character begins a lexeme just if it belongs to the alphabet. -/
theorem munch?_eq_none_iff (first : Char) (rest : List Char) :
    Lexeme.munch? first rest = none ↔ first ∉ alphabet := by
  rw [mem_alphabet_iff, Lexeme.munch?]
  split
  · simp_all
  · split
    · simp_all
    · split
      · simp_all
      · simp_all

theorem Spelled.mem_alphabet {kind : Kind} {text : String} (h : Spelled ⟨kind, text⟩) :
    ∀ c ∈ text.toList, c ∈ alphabet := by
  intro c hc
  rw [mem_alphabet_iff]
  cases h with
  | number htext hfirst hmore =>
    rw [htext] at hc
    rcases List.mem_cons.mp hc with rfl | hc
    · exact .inl hfirst
    · exact .inl (hmore c hc)
  | identifier htext hfirst hmore =>
    rw [htext] at hc
    rcases List.mem_cons.mp hc with rfl | hc
    · exact .inr (.inl hfirst)
    · have hpart := hmore c hc
      simp only [isNamePart, Bool.or_eq_true] at hpart
      rcases hpart with hstart | hdigit
      · exact .inr (.inl hstart)
      · exact .inl (by simp [isNumeral, hdigit])
  | mark htext hfirst =>
    rw [htext, List.mem_singleton] at hc
    rw [hc, hfirst]
    exact .inr (.inr (.inr rfl))

theorem Lexeme.mem_alphabet {first : Char} {rest : List Char} {lexeme : Lexeme}
    (h : munch? first rest = some lexeme) : ∀ c ∈ lexeme.text, c ∈ alphabet := by
  rcases munch_cases h with ⟨-, hgap⟩ | ⟨-, hw, -⟩
  · intro c hc
    exact (mem_alphabet_iff c).mpr (.inr (.inr (.inl (hgap c hc))))
  · have hall := hw.mem_alphabet
    rw [String.toList_ofList] at hall
    exact hall

/-- The character is the first one of the text that does not belong to the alphabet,
and stands at byte `i`. -/
def FirstForeign (start : Nat) (text : List Char) (c : Char) (i : Nat) : Prop :=
  ∃ before after : List Char, text = before ++ c :: after ∧ (∀ x ∈ before, x ∈ alphabet) ∧
    c ∉ alphabet ∧ i = start + byteSize before

theorem exists_firstForeign (start : Nat) {text : List Char} (h : ¬ ∀ c ∈ text, c ∈ alphabet) :
    ∃ c i, FirstForeign start text c i := by
  induction text with
  | nil => exact absurd (by simp) h
  | cons first rest ih =>
    by_cases hfirst : first ∈ alphabet
    · have hrest : ¬ ∀ c ∈ rest, c ∈ alphabet := fun hall =>
        h (List.forall_mem_cons.mpr ⟨hfirst, hall⟩)
      obtain ⟨c, i, before, after, rfl, hbefore, hc, -⟩ := ih hrest
      exact ⟨c, start + byteSize (first :: before), first :: before, after, rfl,
        List.forall_mem_cons.mpr ⟨hfirst, hbefore⟩, hc, rfl⟩
    · exact ⟨first, start, [], rest, rfl, by simp, hfirst, by simp⟩

/-- A lexeme ends before the first foreign character. -/
theorem FirstForeign.after {known rest : List Char} (hknown : ∀ x ∈ known, x ∈ alphabet)
    (h : FirstForeign start (known ++ rest) c i) :
    FirstForeign (start + byteSize known) rest c i := by
  obtain ⟨before, after, htext, hbefore, hc, rfl⟩ := h
  rcases List.append_eq_append_iff.mp htext with ⟨m, rfl, rfl⟩ | ⟨m, rfl, hrest⟩
  · refine ⟨m, after, rfl, ?_, hc, ?_⟩
    · intro x hx
      exact hbefore x (by simp [hx])
    · rw [byteSize_append, Nat.add_assoc]
  · cases m with
    | nil => exact ⟨[], after, by simpa using hrest.symm, by simp, hc, by simp⟩
    | cons c' more =>
      obtain ⟨rfl, -⟩ := List.cons.inj hrest
      exact absurd (hknown c (by simp)) hc

theorem FirstForeign.fault_scanFrom (position : Nat) (text : List Char) (c : Char) (i : Nat) :
    FirstForeign position text c i →
      (scanFrom position text).fault = some (.unexpected c i) := by
  fun_induction scanFrom position text with
  | case1 position =>
    rintro ⟨before, after, htext, -⟩
    simp at htext
  | case2 position first rest hnone =>
    rintro ⟨before, after, htext, hbefore, hc, rfl⟩
    have hfirst := (munch?_eq_none_iff first rest).mp hnone
    cases before with
    | nil =>
      obtain ⟨rfl, -⟩ := List.cons.inj htext
      simp
    | cons c' more =>
      obtain ⟨rfl, -⟩ := List.cons.inj htext
      exact absurd (hbefore first (by simp)) hfirst
  | case3 position first rest lexeme hmunch hle later hspace ih =>
    intro h
    rw [← Lexeme.text_append_rest hmunch] at h
    exact ih (h.after (Lexeme.mem_alphabet hmunch))
  | case4 position first rest lexeme hmunch hle later hspace ih =>
    intro h
    rw [← Lexeme.text_append_rest hmunch] at h
    exact ih (h.after (Lexeme.mem_alphabet hmunch))

theorem fault_scanFrom_eq_none (position : Nat) (text : List Char) :
    (∀ c ∈ text, c ∈ alphabet) → (scanFrom position text).fault = none := by
  fun_induction scanFrom position text with
  | case1 position => exact fun _ => rfl
  | case2 position first rest hnone =>
    intro h
    exact absurd (h first (by simp)) ((munch?_eq_none_iff first rest).mp hnone)
  | case3 position first rest lexeme hmunch hle later hspace ih =>
    intro h
    rw [← Lexeme.text_append_rest hmunch] at h
    exact ih (fun c hc => h c (by simp [hc]))
  | case4 position first rest lexeme hmunch hle later hspace ih =>
    intro h
    rw [← Lexeme.text_append_rest hmunch] at h
    exact ih (fun c hc => h c (by simp [hc]))

/-! ## Tokenizing -/

theorem tokenize_eq_error_iff {source : String} {fault : ScanFault} :
    tokenize source = .error fault ↔ (scan source).fault = some fault := by
  unfold tokenize Scan.result
  cases (scan source).fault <;> simp

theorem tokenize_eq_ok_iff_decomposes {source : String} {tokens : List Token} :
    tokenize source = .ok tokens ↔ Decomposes 0 source.toList tokens :=
  tokenize_eq_ok_iff_cut.trans decomposes_iff_cut.symm

/-- A source that has a foreign character is refused at the first one. -/
theorem tokenize_of_firstForeign {source : String} (h : FirstForeign 0 source.toList c i) :
    tokenize source = .error (.unexpected c i) :=
  tokenize_eq_error_iff.mpr (FirstForeign.fault_scanFrom 0 source.toList c i h)

theorem exists_tokenize_iff (source : String) :
    (∃ tokens, tokenize source = .ok tokens) ↔ ∀ c ∈ source.toList, c ∈ alphabet := by
  constructor
  · rintro ⟨tokens, htokens⟩
    by_contra hforeign
    obtain ⟨c, i, hfirst⟩ := exists_firstForeign 0 hforeign
    rw [tokenize_of_firstForeign hfirst] at htokens
    cases htokens
  · intro h
    have hfault := fault_scanFrom_eq_none 0 source.toList h
    refine ⟨(scan source).tokens, tokenize_eq_ok.mpr ?_⟩
    rw [← hfault]
    rfl

/-- **Tokenizing decomposes the source.** It succeeds just if every character belongs
to the alphabet, and else fails at the first character that does not, with its byte
offset. The tokens that it finds are the only ones that decompose the source. -/
theorem tokenize_decomposition (source : String) :
    ((∃ tokens, tokenize source = .ok tokens) ↔ ∀ c ∈ source.toList, c ∈ alphabet) ∧
    (∀ fault, tokenize source = .error fault ↔
      ∃ c i, fault = .unexpected c i ∧ FirstForeign 0 source.toList c i) ∧
    (∀ tokens, tokenize source = .ok tokens ↔ Decomposes 0 source.toList tokens) ∧
    (∀ ts us, Decomposes 0 source.toList ts → Decomposes 0 source.toList us → ts = us) := by
  refine ⟨exists_tokenize_iff source, ?_, fun _ => tokenize_eq_ok_iff_decomposes, ?_⟩
  · intro fault
    constructor
    · intro hfault
      have hforeign : ¬ ∀ c ∈ source.toList, c ∈ alphabet := by
        intro hall
        obtain ⟨tokens, htokens⟩ := (exists_tokenize_iff source).mpr hall
        rw [htokens] at hfault
        cases hfault
      obtain ⟨c, i, hfirst⟩ := exists_firstForeign 0 hforeign
      rw [tokenize_of_firstForeign hfirst] at hfault
      exact ⟨c, i, (Except.error.inj hfault).symm, hfirst⟩
    · rintro ⟨c, i, rfl, hfirst⟩
      exact tokenize_of_firstForeign hfirst
  · intro ts us hts hus
    have hsame := (tokenize_eq_ok_iff_decomposes.mpr hts).symm.trans
      (tokenize_eq_ok_iff_decomposes.mpr hus)
    exact Except.ok.inj hsame

/-- Letters after digits begin a token of their own, and a blank may have been
skipped before a foreign character. -/
theorem tokenize_digits_letters :
    Decomposes 0 "12ab".toList [⟨.number, "12", 0⟩, ⟨.identifier, "ab", 2⟩] ∧
    (∀ tokens, Decomposes 0 "12ab".toList tokens →
      tokens = [⟨.number, "12", 0⟩, ⟨.identifier, "ab", 2⟩]) ∧
    ∃ c i, ScanFault.unexpected 'é' 2 = .unexpected c i ∧ FirstForeign 0 "1 é".toList c i := by
  obtain ⟨-, -, hdecomposes, hunique⟩ := tokenize_decomposition "12ab"
  obtain ⟨-, hfault, -, -⟩ := tokenize_decomposition "1 é"
  have htokens := (hdecomposes [⟨.number, "12", 0⟩, ⟨.identifier, "ab", 2⟩]).mp (by cbv)
  exact ⟨htokens, fun tokens h => hunique _ _ h htokens, (hfault _).mp (by cbv)⟩

end LineCalc.Token
