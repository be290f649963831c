import LineCalc.Text.Lines

/-!
# Lines of a text and of its bytes

A text can be cut into lines before or after it is decoded. In UTF-8 the byte of a line feed
occurs in no other character (`ten_notMem_encodeChar`), so bytes are cut exactly where
characters are, and no piece begins or ends inside of a character
(`decodedLines_encoded`). Bytes up to a line feed have lines of their own, whatever comes after
them (`decodedLines_append`).

No line has a line feed in it (`feed_notMem_of_mem_lines`). Lines that are written with a line
feed after each are read again as they were, if none has a line feed in it or a carriage return
at its end (`lines_terminated`).
-/

namespace LineCalc.Text

/-! ## Pieces -/

section
variable {α β : Type} {ends : α → Bool}

/-- A piece goes up to the first element that ends one. -/
theorem pieces_append_cons {front : List α} (hfront : ∀ x ∈ front, ends x = false) {last : α}
    (hlast : ends last = true) (rest : List α) :
    pieces ends (front ++ last :: rest) = (front ++ [last]) :: pieces ends rest := by
  induction front with
  | nil => rw [List.nil_append, pieces, if_pos hlast, List.nil_append]
  | cons x more ih =>
    have hx : ends x = false := hfront x (by simp)
    rw [List.cons_append, pieces, ih fun y hy => hfront y (by simp [hy])]
    simp [hx]

/-- Elements that end no piece belong to the one that comes next. -/
theorem pieces_append {front : List α} (hne : front ≠ [])
    (hfront : ∀ x ∈ front, ends x = false) (rest : List α) :
    pieces ends (front ++ rest) =
      match pieces ends rest with
      | [] => [front]
      | piece :: others => (front ++ piece) :: others := by
  induction front with
  | nil => exact absurd rfl hne
  | cons x more ih =>
    have hx : ends x = false := hfront x (by simp)
    rw [List.cons_append, pieces, if_neg (by simp [hx])]
    cases more with
    | nil => rfl
    | cons y others =>
      rw [ih (by simp) fun z hz => hfront z (by simp [hz])]
      cases pieces ends rest <;> rfl

/-- A list that stops at the end of a piece is cut on its own, whatever comes after it. -/
theorem pieces_append_of_getLast? {front : List α}
    (hlast : ∀ last, front.getLast? = some last → ends last = true) (rest : List α) :
    pieces ends (front ++ rest) = pieces ends front ++ pieces ends rest := by
  induction front with
  | nil => rfl
  | cons x more ih =>
    cases more with
    | nil => simp [pieces, hlast x rfl]
    | cons y others =>
      have hmore : ∀ last, (y :: others).getLast? = some last → ends last = true := by
        intro last hlast'
        exact hlast last (by rw [List.getLast?_cons_cons, hlast'])
      rw [List.cons_append, pieces.eq_2 ends x (y :: others), pieces, ih hmore]
      split
      · rfl
      · -- the rest has pieces, so the element goes to the first of them
        cases hpieces : pieces ends (y :: others) with
        | nil =>
          have hnil := flatten_pieces ends (y :: others)
          rw [hpieces] at hnil
          cases hnil
        | cons piece later => rfl

/-- Only the last element of a piece ends it. -/
theorem ends_eq_false_of_mem_dropLast {l piece : List α} (hpiece : piece ∈ pieces ends l) {x : α}
    (hx : x ∈ piece.dropLast) : ends x = false := by
  induction l generalizing piece with
  | nil => cases hpiece
  | cons y rest ih =>
    rw [pieces] at hpiece
    split at hpiece
    · rcases List.mem_cons.mp hpiece with rfl | hpiece
      · cases hx
      · exact ih hpiece hx
    · rename_i hy
      split at hpiece
      · obtain rfl := List.mem_singleton.mp hpiece
        cases hx
      · rename_i first others hrest
        rcases List.mem_cons.mp hpiece with rfl | hpiece
        · cases first with
          | nil => cases hx
          | cons z first =>
            rcases List.mem_cons.mp hx with rfl | hx
            · simpa using hy
            · exact ih (by simp [hrest]) hx
        · exact ih (by simp [hrest, hpiece]) hx

/-- If what ends a piece is encoded as one element that does, and nothing else has such an
element in it, then pieces may as well be encoded one by one. -/
theorem pieces_flatMap {encode : α → List β} {endsCode : β → Bool}
    (hends : ∀ x, ends x = true → ∃ y, encode x = [y] ∧ endsCode y = true)
    (hother : ∀ x, ends x = false → encode x ≠ [] ∧ ∀ y ∈ encode x, endsCode y = false)
    (l : List α) :
    pieces endsCode (l.flatMap encode) = (pieces ends l).map fun piece => piece.flatMap encode := by
  induction l with
  | nil => rfl
  | cons x rest ih =>
    rw [List.flatMap_cons, pieces]
    cases hx : ends x with
    | true =>
      obtain ⟨y, hencode, hy⟩ := hends x hx
      rw [hencode, List.singleton_append, pieces, if_pos hy, ih]
      simp [hencode]
    | false =>
      obtain ⟨hne, hnone⟩ := hother x hx
      rw [pieces_append hne hnone, ih]
      cases pieces ends rest <;> simp

end

/-! ## Bytes -/

/-- The bytes of a text in UTF-8. -/
def encoded (text : String) : List UInt8 := text.toUTF8.data.toList

theorem encoded_eq_flatMap (text : String) :
    encoded text = text.toList.flatMap String.utf8EncodeChar := by
  have htext : text.toUTF8 = text.toList.utf8Encode := by
    rw [String.toUTF8_eq_toByteArray, ← String.toByteArray_ofList, String.ofList_toList]
  rw [encoded, htext, List.utf8Encode, List.data_toByteArray]

theorem fromUTF8?_encoded (text : String) :
    String.fromUTF8? ⟨(encoded text).toArray⟩ = some text := by
  rw [encoded, Array.toArray_toList, String.toUTF8_eq_toByteArray, String.fromUTF8?]
  exact dif_pos text.isValidUTF8

/-- Bytes of characters are decoded to these characters. -/
theorem fromUTF8?_flatMap (chars : List Char) :
    String.fromUTF8? ⟨(chars.flatMap String.utf8EncodeChar).toArray⟩ = some (.ofList chars) := by
  rw [← fromUTF8?_encoded, encoded_eq_flatMap, String.toList_ofList]

theorem le_toNat_or (x y : UInt8) : y.toNat ≤ (x ||| y).toNat := by
  rw [UInt8.toNat_or]
  exact Nat.right_le_or

/-- All bytes of a character that takes several of them have their highest bit set. -/
theorem le_toNat_of_mem_encodeChar {c : Char} (hsize : c.utf8Size ≠ 1) {byte : UInt8}
    (h : byte ∈ String.utf8EncodeChar c) : 128 ≤ byte.toNat := by
  have hbyte : ∃ x y : UInt8, byte = x ||| y ∧ 128 ≤ y.toNat := by
    rcases Char.utf8Size_eq c with hone | htwo | hthree | hfour
    · exact absurd hone hsize
    · rw [String.utf8EncodeChar_eq_cons_cons htwo] at h
      simp only [List.mem_cons, List.not_mem_nil, or_false] at h
      rcases h with rfl | rfl <;> exact ⟨_, _, rfl, by decide⟩
    · rw [String.utf8EncodeChar_eq_cons_cons_cons hthree] at h
      simp only [List.mem_cons, List.not_mem_nil, or_false] at h
      rcases h with rfl | rfl | rfl <;> exact ⟨_, _, rfl, by decide⟩
    · rw [String.utf8EncodeChar_eq_cons_cons_cons_cons hfour] at h
      simp only [List.mem_cons, List.not_mem_nil, or_false] at h
      rcases h with rfl | rfl | rfl | rfl <;> exact ⟨_, _, rfl, by decide⟩
  obtain ⟨x, y, rfl, hy⟩ := hbyte
  exact Nat.le_trans hy (le_toNat_or x y)

/-- The byte of a line feed occurs in no other character. -/
theorem ten_notMem_encodeChar {c : Char} (h : c ≠ '\n') : 10 ∉ String.utf8EncodeChar c := by
  intro hmem
  by_cases hsize : c.utf8Size = 1
  · -- the one byte is the code point
    rw [String.utf8EncodeChar_eq_singleton hsize, List.mem_singleton] at hmem
    have hsmall : c.val.toNat ≤ 127 := UInt32.le_iff_toNat_le.mp (Char.utf8Size_eq_one_iff.mp hsize)
    have hten : 10 = c.val.toNat % 256 := congrArg UInt8.toNat hmem
    have hval : c.val.toNat = ('\n').val.toNat := by
      show c.val.toNat = 10
      omega
    exact h (Char.ext (UInt32.toNat_inj.mp hval))
  · exact absurd (le_toNat_of_mem_encodeChar hsize hmem) (by decide)

/-- The bytes of a text are cut where the text is. -/
theorem rawLines_encoded (text : String) :
    rawLines (encoded text) =
      (pieces (· == '\n') text.toList).map fun piece => some (.ofList piece) := by
  have hfeed : ∀ c : Char, (c == '\n') = true →
      ∃ byte, String.utf8EncodeChar c = [byte] ∧ (byte == 10) = true := by
    intro c hc
    rw [beq_iff_eq.mp hc]
    exact ⟨10, by decide, rfl⟩
  have hother : ∀ c : Char, (c == '\n') = false →
      String.utf8EncodeChar c ≠ [] ∧ ∀ byte ∈ String.utf8EncodeChar c, (byte == 10) = false := by
    intro c hc
    refine ⟨?_, ?_⟩
    · rw [← List.length_pos_iff, String.length_utf8EncodeChar]
      exact c.utf8Size_pos
    · intro byte hbyte
      rw [beq_eq_false_iff_ne]
      rintro rfl
      exact ten_notMem_encodeChar (beq_eq_false_iff_ne.mp hc) hbyte
  rw [rawLines, encoded_eq_flatMap, pieces_flatMap hfeed hother]
  simp [fromUTF8?_flatMap]

/-- The lines of the bytes of a text are those of the text. -/
theorem decodedLines_encoded (text : String) :
    decodedLines (encoded text) = (lines text).map some := by
  rw [decodedLines, rawLines_encoded, lines]
  simp

/-- Bytes up to a line feed have lines of their own, whatever comes after them. -/
theorem decodedLines_append {front : List UInt8} (h : front = [] ∨ front.getLast? = some 10)
    (later : List UInt8) :
    decodedLines (front ++ later) = decodedLines front ++ decodedLines later := by
  have hlast : ∀ last, front.getLast? = some last → (last == 10) = true := by
    intro last hlast
    rcases h with rfl | h
    · cases hlast
    · rw [h] at hlast
      simpa using hlast.symm
  simp only [decodedLines, rawLines, pieces_append_of_getLast? hlast, List.map_append]

/-! ## Line ends -/

/-- The text in which each of the lines is followed by a line feed. -/
def terminated (lines : List String) : String :=
  .ofList (lines.flatMap fun line => line.toList ++ ['\n'])

/-- A line feed is cut off, and what is before it stays unless it ends in a carriage
return. -/
theorem chomp_append_feed {line : List Char} (h : line.getLast? ≠ some '\r') :
    chomp (line ++ ['\n']) = line := by
  rw [chomp, List.reverse_append, List.reverse_singleton, List.singleton_append]
  split
  · rename_i rest heq
    obtain ⟨-, hline⟩ := List.cons.inj heq
    exact absurd (by rw [List.getLast?_eq_head?_reverse, hline]; rfl) h
  · rename_i rest _ heq
    obtain ⟨-, rfl⟩ := List.cons.inj heq
    exact List.reverse_reverse line
  · rename_i _ hother
    exact absurd rfl (hother _)

/-- No line has a line feed in it. -/
theorem feed_notMem_of_mem_lines {text line : String} (h : line ∈ lines text) :
    '\n' ∉ line.toList := by
  obtain ⟨piece, hpiece, rfl⟩ := List.mem_map.mp h
  have hinside : '\n' ∉ piece.dropLast :=
    fun hmem => absurd (ends_eq_false_of_mem_dropLast hpiece hmem) (by decide)
  rw [String.toList_ofList, chomp]
  split
  · rename_i rest hrest
    obtain rfl : piece = (rest.reverse ++ ['\r']) ++ ['\n'] := by
      simpa using List.reverse_eq_iff.mp hrest
    rw [List.dropLast_concat] at hinside
    exact fun hmem => hinside (by simp [List.mem_reverse.mp hmem])
  · rename_i rest _ hrest
    obtain rfl : piece = rest.reverse ++ ['\n'] := by
      simpa using List.reverse_eq_iff.mp hrest
    rwa [List.dropLast_concat] at hinside
  · rename_i _ hother
    -- the last character is no line feed either
    intro hmem
    rcases List.eq_nil_or_concat piece with rfl | ⟨front, last, rfl⟩
    · cases hmem
    · rw [List.concat_eq_append] at hinside hother hmem
      rw [List.dropLast_concat] at hinside
      rw [List.reverse_concat] at hother
      rcases List.mem_append.mp hmem with hmem | hmem
      · exact hinside hmem
      · obtain rfl := List.mem_singleton.mp hmem
        exact hother _ rfl

theorem lines_terminated {written : List String}
    (h : ∀ line ∈ written, '\n' ∉ line.toList ∧ line.toList.getLast? ≠ some '\r') :
    lines (terminated written) = written := by
  rw [lines, terminated, String.toList_ofList]
  induction written with
  | nil => rfl
  | cons line later ih =>
    obtain ⟨hfeed, hreturn⟩ := h line (by simp)
    have hother : ∀ c ∈ line.toList, (c == '\n') = false := by
      intro c hc
      rw [beq_eq_false_iff_ne]
      rintro rfl
      exact hfeed hc
    rw [List.flatMap_cons, List.append_assoc, List.singleton_append,
      pieces_append_cons hother (by rfl), List.map_cons, chomp_append_feed hreturn,
      ih fun line' hline' => h line' (by simp [hline']), String.ofList_toList]

end LineCalc.Text
