import Mathlib
import LineCalc.Proofs.Decomposition
import LineCalc.Proofs.DoubleValue
import LineCalc.Proofs.Foresight
import LineCalc.Proofs.LineEnds

/-!
# What a literal stands for

A text is read by its longest beginning that is a decimal: digits, and perhaps a point and
more digits (`LongestDecimal`). There is just one, and reading depends on nothing else: what it
gives is the double nearest to the exact value of the decimal (`LongestDecimal.read?_eq_some_iff`).

The end of the decimal can also be found as a place in the bytes of the text. All places that
come up then lie between two characters, and what is read is the same (`readBytes?_eq`). Main
statement: `read?_longestDecimal`.
-/

namespace LineCalc.Decimal

/-! ## Decimals -/

/-- Digits, and perhaps a point and more digits. There need not be any digit. -/
def IsDecimal (p : List Char) : Prop :=
  ∃ whole : List Char, (∀ c ∈ whole, c.isDigit = true) ∧
    (p = whole ∨ ∃ fraction : List Char, (∀ c ∈ fraction, c.isDigit = true) ∧
      p = whole ++ '.' :: fraction)

/-- The longest beginning of a text that is a decimal. -/
structure LongestDecimal (p text : List Char) : Prop where
  isPrefix : p <+: text
  isDecimal : IsDecimal p
  longest : ∀ q, q <+: text → IsDecimal q → q.length ≤ p.length

/-- The value of digits behind a point. -/
def fractionValue : List Char → ℚ
  | [] => 0
  | c :: rest => ((c.toNat - '0'.toNat : Nat) + fractionValue rest) / 10

/-- The exact value of a decimal. -/
def exactValue (p : List Char) : ℚ :=
  Nat.ofDigitChars 10 (p.takeWhile Char.isDigit) 0 +
    fractionValue ((p.dropWhile Char.isDigit).drop 1)

theorem LongestDecimal.unique {p q text : List Char} (hp : LongestDecimal p text)
    (hq : LongestDecimal q text) : p = q :=
  (List.prefix_of_prefix_length_le hp.isPrefix hq.isPrefix
    (hq.longest p hp.isPrefix hp.isDecimal)).eq_of_length_le
    (hp.longest q hq.isPrefix hq.isDecimal)

/-- A decimal is its own longest beginning. -/
theorem IsDecimal.longestDecimal {p : List Char} (h : IsDecimal p) : LongestDecimal p p :=
  ⟨List.prefix_refl p, h, fun _ hq _ => hq.length_le⟩

/-! ## The decimal that a text begins with -/

/-- The digits at the beginning, and a point that follows them at once with its digits. -/
def beginning (text : List Char) : List Char :=
  text.takeWhile Char.isDigit ++
    match text.dropWhile Char.isDigit with
    | '.' :: rest => '.' :: rest.takeWhile Char.isDigit
    | _ => []

section
variable {whole fraction text p : List Char}

theorem beginning_append (h : ∀ c ∈ whole, c.isDigit = true) (rest : List Char) :
    beginning (whole ++ rest) = whole ++ beginning rest := by
  rw [beginning, List.takeWhile_append_of_pos h, List.dropWhile_append_of_pos h, List.append_assoc]
  rfl

theorem beginning_point (rest : List Char) :
    beginning ('.' :: rest) = '.' :: rest.takeWhile Char.isDigit := rfl

theorem Literal.leading_append (h : ∀ c ∈ whole, c.isDigit = true) (rest : List Char) :
    leading (whole ++ rest) = ⟨whole ++ (leading rest).whole, (leading rest).fraction⟩ := by
  rw [leading, leading, List.takeWhile_append_of_pos h, List.dropWhile_append_of_pos h]
  split <;> rfl

theorem Literal.leading_point (rest : List Char) :
    leading ('.' :: rest) = ⟨[], rest.takeWhile Char.isDigit⟩ := rfl

theorem takeWhile_eq_self (h : ∀ c ∈ fraction, c.isDigit = true) :
    fraction.takeWhile Char.isDigit = fraction :=
  List.takeWhile_eq_self_iff.mpr h

theorem Literal.leading_digits (h : ∀ c ∈ whole, c.isDigit = true) :
    leading whole = ⟨whole, []⟩ := by
  have happend := leading_append h []
  rwa [List.append_nil, show leading [] = ⟨[], []⟩ from rfl, List.append_nil] at happend

theorem Literal.leading_decimal (h : ∀ c ∈ whole, c.isDigit = true)
    (h' : ∀ c ∈ fraction, c.isDigit = true) :
    leading (whole ++ '.' :: fraction) = ⟨whole, fraction⟩ := by
  rw [leading_append h, leading_point, List.append_nil, takeWhile_eq_self h']

theorem isDigit_of_mem_takeWhile {c : Char} (h : c ∈ text.takeWhile Char.isDigit) :
    c.isDigit = true :=
  List.mem_takeWhile_imp h

theorem isDecimal_beginning (text : List Char) : IsDecimal (beginning text) := by
  refine ⟨text.takeWhile Char.isDigit, fun c => isDigit_of_mem_takeWhile, ?_⟩
  unfold beginning
  split
  · rename_i rest hrest
    exact .inr ⟨rest.takeWhile Char.isDigit, fun c => isDigit_of_mem_takeWhile, rfl⟩
  · exact .inl (List.append_nil _)

theorem beginning_isPrefix (text : List Char) : beginning text <+: text := by
  have htext : text.takeWhile Char.isDigit ++ text.dropWhile Char.isDigit = text :=
    List.takeWhile_append_dropWhile
  unfold beginning
  split
  · rename_i rest hrest
    have hfraction : '.' :: rest.takeWhile Char.isDigit <+: '.' :: rest :=
      List.cons_prefix_cons.mpr ⟨rfl, List.takeWhile_prefix _⟩
    have hprefix := (List.prefix_append_right_inj (text.takeWhile Char.isDigit)).mpr hfraction
    rw [hrest] at htext
    rwa [htext] at hprefix
  · rw [List.append_nil]
    exact List.takeWhile_prefix _

theorem longestDecimal_beginning (text : List Char) : LongestDecimal (beginning text) text := by
  refine ⟨beginning_isPrefix text, isDecimal_beginning text, ?_⟩
  rintro q ⟨more, rfl⟩ ⟨whole, hwhole, rfl | ⟨fraction, hfraction, rfl⟩⟩
  · rw [beginning_append hwhole, List.length_append]
    omega
  · rw [List.append_assoc, List.cons_append, beginning_append hwhole, beginning_point,
      List.takeWhile_append_of_pos hfraction]
    simp only [List.length_append, List.length_cons]
    omega

theorem leading_beginning (text : List Char) :
    Literal.leading (beginning text) = Literal.leading text := by
  have hwhole : ∀ c ∈ text.takeWhile Char.isDigit, c.isDigit = true :=
    fun c => isDigit_of_mem_takeWhile
  unfold beginning
  split
  · rename_i rest hrest
    rw [Literal.leading_decimal hwhole fun c => isDigit_of_mem_takeWhile, Literal.leading, hrest]
    rfl
  · rename_i hrest
    rw [List.append_nil, Literal.leading_digits hwhole, Literal.leading]
    split
    · rename_i rest hpoint
      exact absurd hpoint (hrest rest)
    · rfl

/-- Reading sees only the decimal. -/
theorem LongestDecimal.leading_eq (h : LongestDecimal p text) :
    Literal.leading p = Literal.leading text := by
  rw [h.unique (longestDecimal_beginning text), leading_beginning]

/-! ## The value of a decimal -/

theorem fractionValue_eq (digits : List Char) :
    fractionValue digits = Nat.ofDigitChars 10 digits 0 / 10 ^ digits.length := by
  induction digits with
  | nil => simp [fractionValue]
  | cons c rest ih =>
    rw [fractionValue, ih, Nat.ofDigitChars_cons, List.length_cons,
      @Nat.ofDigitChars_eq_ofDigitChars_zero rest (10 * 0 + (c.toNat - '0'.toNat))]
    push_cast
    field_simp
    ring

/-- All digits read as one number, over the power of ten of the decimal places. -/
theorem Literal.numerator_div_scale (l : Literal) :
    (l.numerator : ℚ) / l.scale = Nat.ofDigitChars 10 l.whole 0 + fractionValue l.fraction := by
  have hscale : (l.scale : ℚ) = 10 ^ l.fraction.length := by
    show ((10 ^ l.fraction.length : Nat) : ℚ) = _
    push_cast
    rfl
  rw [numerator, hscale, Nat.ofDigitChars_append, Nat.ofDigitChars_eq_ofDigitChars_zero,
    fractionValue_eq]
  push_cast
  field_simp

theorem IsDecimal.exactValue_eq (h : IsDecimal p) :
    exactValue p = (Literal.leading p).numerator / (Literal.leading p).scale := by
  rw [Literal.numerator_div_scale]
  obtain ⟨whole, hwhole, rfl | ⟨fraction, hfraction, rfl⟩⟩ := h
  · rw [Literal.leading_digits hwhole, exactValue, takeWhile_eq_self hwhole,
      List.dropWhile_eq_nil_iff.mpr hwhole]
    rfl
  · rw [Literal.leading_decimal hwhole hfraction, exactValue, List.takeWhile_append_of_pos hwhole,
      List.dropWhile_append_of_pos hwhole]
    simp

theorem Literal.roundsTo_toDouble (l : Literal) :
    Double.RoundsTo (l.numerator / l.scale) l.toDouble := by
  have hscale : 0 < l.scale := Nat.pow_pos (by decide)
  have hnearest := Double.nearest_nearestRank l.numerator hscale
  rw [Double.roundsTo_iff (by positivity), toDouble, Double.isNegative_ofRank hnearest.le_top,
    Double.rank_ofRank hnearest.le_top]
  refine ⟨rfl, ?_⟩
  rwa [Nat.cast_mul, mul_div_right_comm] at hnearest

theorem isEmpty_iff_of_digits (h : ∀ c ∈ whole, c.isDigit = true) :
    whole.isEmpty = true ↔ ∀ c ∈ whole, ¬ c.isDigit = true := by
  rw [List.isEmpty_iff, List.eq_nil_iff_forall_not_mem]
  exact forall_congr' fun c => ⟨fun hc hmem => absurd hmem hc, fun hc hmem => hc hmem (h c hmem)⟩

/-- A decimal is bare if it has no digit. -/
theorem IsDecimal.isBare_iff (h : IsDecimal p) :
    (Literal.leading p).isBare = true ↔ ∀ c ∈ p, ¬ c.isDigit = true := by
  obtain ⟨whole, hwhole, rfl | ⟨fraction, hfraction, rfl⟩⟩ := h
  · rw [Literal.leading_digits hwhole, ← isEmpty_iff_of_digits hwhole, Literal.isBare,
      List.isEmpty_nil, Bool.and_true]
  · rw [Literal.leading_decimal hwhole hfraction, Literal.isBare, Bool.and_eq_true,
      isEmpty_iff_of_digits hwhole, isEmpty_iff_of_digits hfraction, List.forall_mem_append,
      List.forall_mem_cons, and_iff_right (show ¬ ('.').isDigit = true by decide)]

end

/-! ## Reading -/

section
variable {text : String} {p : List Char}

theorem read?_eq_none_iff_isBare :
    read? text = none ↔ (Literal.leading text.toList).isBare = true := by
  rw [read?]
  split <;> simp_all

theorem LongestDecimal.read?_eq_none_iff (h : LongestDecimal p text.toList) :
    read? text = none ↔ ∀ c ∈ p, ¬ c.isDigit = true := by
  rw [read?_eq_none_iff_isBare, ← h.leading_eq, h.isDecimal.isBare_iff]

theorem LongestDecimal.read?_eq_some_iff (h : LongestDecimal p text.toList)
    (hdigit : ∃ c ∈ p, c.isDigit = true) (x : Float) :
    read? text = some x ↔ Double.RoundsTo (exactValue p) x := by
  have hbare : ¬ (Literal.leading text.toList).isBare = true := by
    rw [← read?_eq_none_iff_isBare, h.read?_eq_none_iff]
    exact fun hnone => hdigit.elim fun c hc => hnone c hc.1 hc.2
  have hrounds := (Literal.leading p).roundsTo_toDouble
  rw [← h.isDecimal.exactValue_eq] at hrounds
  rw [read?, if_neg hbare, ← h.leading_eq, Option.some.injEq]
  constructor
  · rintro rfl
    exact hrounds
  · intro hx
    exact hrounds.unique hx

theorem LongestDecimal.read?_eq {other : String} (h : LongestDecimal p text.toList)
    (hother : LongestDecimal p other.toList) : read? other = read? text := by
  rw [read?, read?, ← h.leading_eq, ← hother.leading_eq]

end

/-- Digits alone are read as a whole number. -/
theorem read?_digits {digits : List Char} (hne : digits ≠ [])
    (h : ∀ c ∈ digits, c.isDigit = true) (x : Float) :
    read? (.ofList digits) = some x ↔ Double.RoundsTo (Nat.ofDigitChars 10 digits 0 : Nat) x := by
  have hlongest : LongestDecimal digits (String.ofList digits).toList := by
    rw [String.toList_ofList]
    exact IsDecimal.longestDecimal ⟨digits, h, .inl rfl⟩
  have hvalue : exactValue digits = (Nat.ofDigitChars 10 digits 0 : Nat) := by
    rw [exactValue, takeWhile_eq_self h, List.dropWhile_eq_nil_iff.mpr h, List.drop_nil,
      fractionValue, add_zero]
  obtain ⟨first, hfirst⟩ := List.exists_mem_of_ne_nil digits hne
  rw [← hvalue, ← hlongest.read?_eq_some_iff ⟨first, hfirst, h first hfirst⟩]

theorem isDigit_of_mem_zeros {n : Nat} : ∀ c ∈ List.replicate n '0', c.isDigit = true := by
  intro c hc
  rw [List.eq_of_mem_replicate hc]
  rfl

theorem isDigit_of_mem_toDigits {n : Nat} : ∀ c ∈ Nat.toDigits 10 n, c.isDigit = true :=
  fun _ => Nat.isDigit_of_mem_toDigits (by decide) (by decide)

/-- A whole number up to `2 ^ 53` is read exactly, however many zeros it begins with. -/
theorem read?_toDigits {n : Nat} (h : n ≤ 2 ^ 53) (zeros : Nat) : ∃ x : Float,
    read? (.ofList (List.replicate zeros '0' ++ Nat.toDigits 10 n)) = some x ∧
      x.isFinite = true ∧ Double.isNegative x = false ∧ Double.value x = n := by
  obtain ⟨r, hr, hunits⟩ := Double.exists_units_eq h
  have hpos := Double.unitsInOne_pos
  have hexact : (Double.units r : ℚ) / Double.unitsInOne = n := by
    rw [hunits, Nat.cast_mul, mul_div_cancel_right₀ _ hpos.ne']
  have hdigits : ∀ c ∈ List.replicate zeros '0' ++ Nat.toDigits 10 n, c.isDigit = true :=
    List.forall_mem_append.mpr ⟨isDigit_of_mem_zeros, isDigit_of_mem_toDigits⟩
  have hvalue : Nat.ofDigitChars 10 (List.replicate zeros '0' ++ Nat.toDigits 10 n) 0 = n := by
    rw [Nat.ofDigitChars_append, Nat.ofDigitChars_replicate_zero, Nat.mul_zero,
      Nat.ofDigitChars_ten_toDigits]
  refine ⟨Double.ofRank false r, ?_, ?_, Double.isNegative_ofRank hr.le, ?_⟩
  · rw [read?_digits (by simp [Nat.toDigits_ne_nil]) hdigits, hvalue, ← hexact]
    exact Double.roundsTo_units hr
  · rw [Double.isFinite_iff, Double.rank_ofRank hr.le]
    exact hr
  · rw [Double.value_ofRank hr, hexact]

/-- Digits and points are no number if they are one point, or begin with two. -/
theorem read?_numerals {text : String} (hne : text ≠ "")
    (h : ∀ c ∈ text.toList, c ∈ Token.numerals) :
    read? text = none ↔ text = "." ∨ ['.', '.'] <+: text.toList := by
  cases htext : text.toList with
  | nil => exact absurd (String.toList_inj.mp htext) hne
  | cons first more =>
    simp only [htext, List.forall_mem_cons, ← Token.isNumeral_iff] at h
    rw [read?_eq_none_iff htext h.1 h.2, lacksDigit, Bool.or_eq_true, beq_iff_eq,
      List.isPrefixOf_iff_prefix, htext, ← String.toList_inj, htext]
    rfl

/-! ## Places in bytes

The same beginning found by counting bytes. A place behind the end of the bytes or inside a
character is no place to cut. -/

def isDigitByte (byte : UInt8) : Bool := decide (48 ≤ byte.toNat) && decide (byte.toNat ≤ 57)

/-- The bytes from a place on. -/
def from? (bytes : List UInt8) (start : Nat) : Option (List UInt8) :=
  if start ≤ bytes.length then some (bytes.drop start) else none

/-- The characters up to a place. -/
def upTo? : List Char → Nat → Option (List Char)
  | _, 0 => some []
  | [], _ + 1 => none
  | c :: rest, stop + 1 =>
    if c.utf8Size ≤ stop + 1 then (upTo? rest (stop + 1 - c.utf8Size)).map (c :: ·) else none

/-- The numbers of digits before and after the point, and the place where the decimal ends. -/
def places? (bytes : List UInt8) : Option (Nat × Nat × Nat) :=
  let whole := (bytes.takeWhile isDigitByte).length
  if bytes[whole]? = some 46 then
    (from? bytes (whole + 1)).map fun rest =>
      let fraction := (rest.takeWhile isDigitByte).length
      (whole, fraction, whole + 1 + fraction)
  else some (whole, 0, whole)

/-- Reading by places in bytes. There is no answer if one of them is no place to cut. -/
def readBytes? (text : String) : Option (Option Float) :=
  (places? (Text.encoded text)).bind fun (whole, fraction, stop) =>
    if whole + fraction = 0 then some none
    else (upTo? text.toList stop).map fun p => some (Literal.leading p).toDouble

theorem upTo?_append (p rest : List Char) : upTo? (p ++ rest) (Text.byteSize p) = some p := by
  induction p with
  | nil => cases rest <;> rfl
  | cons c p ih =>
    obtain ⟨stop, hstop⟩ := Nat.exists_eq_add_one_of_ne_zero
      (show c.utf8Size + Text.byteSize p ≠ 0 by have := c.utf8Size_pos; omega)
    rw [List.cons_append, Text.byteSize_cons, hstop, upTo?, if_pos (by omega), ← hstop,
      Nat.add_sub_cancel_left, ih]
    rfl

/-- The first byte of a character is its code point if that is small, and large if it is not. -/
theorem encodeChar_eq_cons (c : Char) : ∃ byte more, String.utf8EncodeChar c = byte :: more ∧
    (c.toNat < 128 ∧ c.utf8Size = 1 ∧ more = [] ∧ byte.toNat = c.toNat ∨
      128 ≤ c.toNat ∧ 128 ≤ byte.toNat) := by
  by_cases hsize : c.utf8Size = 1
  · have hsmall : c.toNat ≤ 127 := UInt32.le_iff_toNat_le.mp (Char.utf8Size_eq_one_iff.mp hsize)
    refine ⟨_, [], String.utf8EncodeChar_eq_singleton hsize, .inl ⟨by omega, hsize, rfl, ?_⟩⟩
    exact Nat.mod_eq_of_lt (Nat.lt_of_le_of_lt hsmall (by decide))
  · have hlarge : ¬ c.toNat ≤ 127 := fun h =>
      hsize (Char.utf8Size_eq_one_iff.mpr (UInt32.le_iff_toNat_le.mpr h))
    cases hbytes : String.utf8EncodeChar c with
    | nil =>
      have hlength := String.length_utf8EncodeChar c
      rw [hbytes, List.length_nil] at hlength
      exact absurd hlength c.utf8Size_pos.ne
    | cons byte more =>
      have hmem : byte ∈ String.utf8EncodeChar c := hbytes ▸ List.mem_cons_self
      exact ⟨byte, more, rfl, .inr ⟨by omega, Text.le_toNat_of_mem_encodeChar hsize hmem⟩⟩

theorem isDigit_iff (c : Char) : c.isDigit = true ↔ 48 ≤ c.toNat ∧ c.toNat ≤ 57 := by
  rw [Char.isDigit, Bool.and_eq_true, decide_eq_true_eq, decide_eq_true_eq]
  exact and_congr UInt32.le_iff_toNat_le UInt32.le_iff_toNat_le

theorem isDigitByte_iff (byte : UInt8) :
    isDigitByte byte = true ↔ 48 ≤ byte.toNat ∧ byte.toNat ≤ 57 := by
  rw [isDigitByte, Bool.and_eq_true, decide_eq_true_eq, decide_eq_true_eq]

section
variable {digits : List Char}

/-- As many bytes are those of digits as there are digits, and the bytes that follow are those
of the other characters. -/
theorem takeWhile_isDigitByte (chars : List Char) :
    ((chars.flatMap String.utf8EncodeChar).takeWhile isDigitByte).length =
        (chars.takeWhile Char.isDigit).length ∧
      (chars.flatMap String.utf8EncodeChar).drop (chars.takeWhile Char.isDigit).length =
        (chars.dropWhile Char.isDigit).flatMap String.utf8EncodeChar := by
  induction chars with
  | nil => exact ⟨rfl, rfl⟩
  | cons c rest ih =>
    obtain ⟨byte, more, hbytes, hbyte⟩ := encodeChar_eq_cons c
    have hsame : isDigitByte byte = true ↔ c.isDigit = true := by
      rw [isDigit_iff, isDigitByte_iff]
      omega
    rw [List.flatMap_cons, hbytes, List.cons_append]
    by_cases hdigit : c.isDigit = true
    · obtain rfl : more = [] := by
        rw [isDigit_iff] at hdigit
        rcases hbyte with ⟨-, -, hmore, -⟩ | ⟨hlarge, -⟩
        · exact hmore
        · omega
      rw [List.takeWhile_cons_of_pos (hsame.mpr hdigit), List.takeWhile_cons_of_pos hdigit,
        List.dropWhile_cons_of_pos hdigit, List.length_cons, List.length_cons]
      exact ⟨congrArg (· + 1) ih.1, ih.2⟩
    · rw [List.takeWhile_cons_of_neg (mt hsame.mp hdigit), List.takeWhile_cons_of_neg hdigit,
        List.dropWhile_cons_of_neg hdigit, List.flatMap_cons, hbytes]
      exact ⟨rfl, rfl⟩

theorem head?_encoded_eq_point (chars : List Char) :
    (chars.flatMap String.utf8EncodeChar).head? = some 46 ↔ chars.head? = some '.' := by
  cases chars with
  | nil => exact ⟨nofun, nofun⟩
  | cons c rest =>
    obtain ⟨byte, more, hbytes, hbyte⟩ := encodeChar_eq_cons c
    rw [List.flatMap_cons, hbytes, List.cons_append, List.head?_cons, List.head?_cons,
      Option.some.injEq, Option.some.injEq, ← UInt8.toNat_inj, ← Char.toNat_inj]
    show byte.toNat = 46 ↔ c.toNat = 46
    omega

theorem byteSize_digits (h : ∀ c ∈ digits, c.isDigit = true) :
    Text.byteSize digits = digits.length := by
  induction digits with
  | nil => rfl
  | cons c rest ih =>
    obtain ⟨hc, hrest⟩ := List.forall_mem_cons.mp h
    have hsize : c.utf8Size = 1 := by
      obtain ⟨byte, more, -, hbyte⟩ := encodeChar_eq_cons c
      rw [isDigit_iff] at hc
      omega
    rw [Text.byteSize_cons, hsize, ih hrest, List.length_cons, Nat.add_comm]

end

/-- The beginning of a text that has a point behind its digits, and of one that has none. -/
theorem beginning_cases (chars : List Char) :
    (∃ rest, chars.dropWhile Char.isDigit = '.' :: rest ∧
      Literal.leading chars = ⟨chars.takeWhile Char.isDigit, rest.takeWhile Char.isDigit⟩ ∧
      beginning chars = chars.takeWhile Char.isDigit ++ '.' :: rest.takeWhile Char.isDigit) ∨
    (chars.dropWhile Char.isDigit).head? ≠ some '.' ∧
      Literal.leading chars = ⟨chars.takeWhile Char.isDigit, []⟩ ∧
      beginning chars = chars.takeWhile Char.isDigit := by
  unfold beginning Literal.leading
  cases chars.dropWhile Char.isDigit with
  | nil => exact .inr ⟨nofun, rfl, List.append_nil _⟩
  | cons c rest =>
    by_cases hc : c = '.'
    · subst hc
      exact .inl ⟨rest, rfl, rfl, rfl⟩
    · refine .inr ⟨fun h => hc (Option.some.inj h), ?_, ?_⟩ <;> simp [hc]

theorem places?_flatMap (chars : List Char) : places? (chars.flatMap String.utf8EncodeChar) =
    some ((Literal.leading chars).whole.length, (Literal.leading chars).fraction.length,
      Text.byteSize (beginning chars)) := by
  obtain ⟨hcount, hdrop⟩ := takeWhile_isDigitByte chars
  have hsize : Text.byteSize (chars.takeWhile Char.isDigit) =
      (chars.takeWhile Char.isDigit).length := byteSize_digits fun c => isDigit_of_mem_takeWhile
  simp only [places?, hcount]
  generalize chars.flatMap String.utf8EncodeChar = bytes at hdrop ⊢
  rw [← List.head?_drop, hdrop]
  rcases beginning_cases chars with
    ⟨rest, hrest, hleading, hbeginning⟩ | ⟨hrest, hleading, hbeginning⟩
  · obtain ⟨hcount', -⟩ := takeWhile_isDigitByte rest
    have hsize' : Text.byteSize (rest.takeWhile Char.isDigit) =
      (rest.takeWhile Char.isDigit).length := byteSize_digits fun c => isDigit_of_mem_takeWhile
    rw [hrest] at hdrop ⊢
    have hbytes : bytes.drop (chars.takeWhile Char.isDigit).length =
        46 :: rest.flatMap String.utf8EncodeChar := hdrop
    have hlength := congrArg List.length hbytes
    rw [List.length_drop, List.length_cons] at hlength
    rw [if_pos ((head?_encoded_eq_point _).mpr rfl), from?, if_pos (by omega), ← List.drop_drop,
      hbytes, Option.map_some, List.drop_one, List.tail_cons, hcount', hleading, hbeginning,
      Text.byteSize_append, Text.byteSize_cons, hsize, hsize', Nat.add_assoc]
    rfl
  · rw [if_neg (mt (head?_encoded_eq_point _).mp hrest), hleading, hbeginning, hsize]
    rfl

/-- Every place is one to cut at. -/
theorem readBytes?_eq (text : String) : readBytes? text = some (read? text) := by
  have hbare : (Literal.leading text.toList).whole.length +
      (Literal.leading text.toList).fraction.length = 0 ↔
      (Literal.leading text.toList).isBare = true := by
    rw [Literal.isBare, Bool.and_eq_true, List.isEmpty_iff_length_eq_zero,
      List.isEmpty_iff_length_eq_zero, Nat.add_eq_zero_iff]
  obtain ⟨more, hmore⟩ := beginning_isPrefix text.toList
  have hcut : upTo? text.toList (Text.byteSize (beginning text.toList)) =
      some (beginning text.toList) := by
    nth_rewrite 1 [← hmore]
    exact upTo?_append _ _
  rw [readBytes?, Text.encoded_eq_flatMap, places?_flatMap, Option.bind_some, read?]
  simp only [hcut, Option.map_some, leading_beginning]
  by_cases h : (Literal.leading text.toList).isBare = true
  · rw [if_pos (hbare.mpr h), if_pos h]
  · rw [if_neg (mt hbare.mp h), if_neg h]

/-! ## Main statement -/

/-- **A text is read by the longest decimal that it begins with.** There is a value just if there
is a digit in the decimal, and it is the double nearest to the exact value. The end of the decimal
is a place to cut the text at, and what comes after it does not count. Of the texts of digits and
points, one point alone and those that begin with two points have no value, and a whole number up
to `2 ^ 53` is read exactly, with any number of zeros before it. -/
theorem read?_longestDecimal (text : String) : ∃ p, LongestDecimal p text.toList ∧
    (read? text = none ↔ ∀ c ∈ p, ¬ c.isDigit = true) ∧
    ((∃ c ∈ p, c.isDigit = true) →
      ∀ x, read? text = some x ↔ Double.RoundsTo (exactValue p) x) ∧
    readBytes? text = some (read? text) ∧
    (∀ more, LongestDecimal p (text ++ more).toList → read? (text ++ more) = read? text) ∧
    (text ≠ "" → (∀ c ∈ text.toList, c ∈ Token.numerals) →
      (read? text = none ↔ text = "." ∨ ['.', '.'] <+: text.toList)) ∧
    ∀ n ≤ 2 ^ 53, ∀ zeros, ∃ x : Float,
      read? (.ofList (List.replicate zeros '0' ++ Nat.toDigits 10 n)) = some x ∧
      x.isFinite = true ∧ Double.isNegative x = false ∧ Double.value x = n := by
  have hlongest := longestDecimal_beginning text.toList
  refine ⟨beginning text.toList, hlongest, hlongest.read?_eq_none_iff, hlongest.read?_eq_some_iff,
    readBytes?_eq text, fun more => hlongest.read?_eq, read?_numerals, ?_⟩
  intro n hn zeros
  exact read?_toDigits hn zeros

/-- The second point ends the decimal, two points have none, and zeros before do not count. -/
theorem read?_longestDecimal_sample :
    LongestDecimal "12.5".toList "12.5.7é".toList ∧ Double.RoundsTo (25 / 2) 12.5 ∧
      read? "..5" = none ∧ ∃ x, read? "007" = some x ∧ Double.value x = 7 := by
  have hlongest : LongestDecimal "12.5".toList "12.5.7é".toList :=
    longestDecimal_beginning "12.5.7é".toList
  have hexact : exactValue "12.5".toList = 25 / 2 := by decide +kernel
  obtain ⟨p, hp, -, hsome, -⟩ := read?_longestDecimal "12.5.7é"
  obtain rfl := hlongest.unique hp
  have hall : ∀ c ∈ "..5".toList, c ∈ Token.numerals := fun c hc =>
    (Token.isNumeral_iff c).mp (List.all_eq_true.mp rfl c hc)
  obtain ⟨-, -, -, -, -, -, hnumerals, hwhole⟩ := read?_longestDecimal "..5"
  obtain ⟨x, hread, -, -, hvalue⟩ := hwhole 7 (by omega) 2
  refine ⟨hp, ?_, (hnumerals (by decide) hall).mpr (.inr ⟨_, rfl⟩), x, hread, hvalue⟩
  rw [← hexact, ← hsome ⟨'1', by decide, rfl⟩]
  decide +kernel

end LineCalc.Decimal
