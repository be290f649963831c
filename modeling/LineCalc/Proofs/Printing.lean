import Mathlib
import LineCalc.Proofs.KeepGoing
import LineCalc.Proofs.Literals
import LineCalc.Proofs.ReadBack

/-!
# Values are written and read back

The search for the shortest decimal of a double stays in the interval of the numbers that
round to it (`contains_shortest`), and what it finds is set out as a decimal
(`exactValue_positional`). So the text of a double reads back to it (`read?_text`), as a line
of its own and where it is assigned to a name (`Session.run_printed`).
-/

namespace LineCalc

namespace Decimal

theorem pow_five_pos (n : Nat) : 0 < Nat.pow 5 n := Nat.pow_pos (by decide)

/-! ## The interval of a double -/

namespace Interval

variable {i : Interval} {n value power : Nat}

theorem contains_of_between (hlow : i.low < n) (hhigh : n < i.high) : i.contains n = true := by
  unfold contains
  split <;> simp [hlow, hlow.le, hhigh, hhigh.le]

/-- The ends belong to a closed interval only. -/
theorem between_of_contains (h : i.contains n = true) :
    i.low ≤ n ∧ n ≤ i.high ∧ (n = i.low ∨ n = i.high → i.closed = true) := by
  unfold contains at h
  split at h
  · rename_i hclosed
    rw [Bool.and_eq_true, decide_eq_true_eq, decide_eq_true_eq] at h
    exact ⟨h.1, h.2, fun _ => hclosed⟩
  · rw [Bool.and_eq_true, decide_eq_true_eq, decide_eq_true_eq] at h
    refine ⟨h.1.le, h.2.le, ?_⟩
    rintro (heq | heq)
    · exact absurd heq.symm h.1.ne
    · exact absurd heq h.2.ne

theorem contains_of_onGrid? {multiple : Nat} (h : i.onGrid? value power = some multiple) :
    i.contains (multiple * Nat.pow 10 power) = true := by
  simp only [onGrid?] at h
  split at h
  · rename_i hbelow
    split at h
    · rename_i habove
      cases h
      exact (Bool.and_eq_true _ _ ▸ habove).1
    · cases h
      exact hbelow
  · split at h
    · rename_i habove
      cases h
      exact habove
    · cases h

/-- The search does not leave the interval if it starts inside. -/
theorem contains_coarsest (h : i.contains value = true) (power : Nat) :
    i.contains ((i.coarsest value power).1 * Nat.pow 10 (i.coarsest value power).2) = true := by
  induction power with
  | zero =>
    rw [coarsest]
    exact (Nat.mul_one value).symm ▸ h
  | succ power ih =>
    rw [coarsest]
    split
    · rename_i multiple hgrid
      exact contains_of_onGrid? hgrid
    · exact ih

/-- A value lies between the half-way points to its neighbours. -/
theorem contains_exact {r : Nat} (hr : 0 < r) :
    (ofRank r).contains (2 * Double.units r * Nat.pow 5 finestPlaces) = true := by
  have hpow := pow_five_pos finestPlaces
  have hbelow : Double.units (r - 1) < Double.units r := Double.strictMono_units (by omega)
  have habove : Double.units r < Double.units (r + 1) := Double.strictMono_units (by omega)
  apply contains_of_between
  · exact Nat.mul_lt_mul_of_pos_right (by omega) hpow
  · exact Nat.mul_lt_mul_of_pos_right (by omega) hpow

end Interval

theorem contains_shortest {r : Nat} (hr : 0 < r) :
    (Interval.ofRank r).contains ((shortest r).1 * Nat.pow 10 (shortest r).2) = true :=
  Interval.contains_coarsest (Interval.contains_exact hr) _

/-- What lies in the interval of a double rounds to it. -/
theorem nearest_of_contains {r n : Nat} (htop : r < Double.top)
    (h : (Interval.ofRank r).contains n = true) :
    Double.Nearest (n / (2 * (Nat.pow 5 finestPlaces : Nat))) r := by
  obtain ⟨hlow, hhigh, hends⟩ := Interval.between_of_contains h
  have hpow := pow_five_pos finestPlaces
  simp only [Interval.ofRank, beq_iff_eq] at hlow hhigh hends
  generalize Nat.pow 5 finestPlaces = five at hlow hhigh hends hpow ⊢
  have hfive : (0 : ℚ) < five := Nat.cast_pos.mpr hpow
  have hdouble : 2 * (n / (2 * five) : ℚ) = n / five := by field_simp
  refine Double.nearest_of_between htop.le ?_ ?_
  · rintro s rfl
    rw [Nat.add_sub_cancel] at hlow hends
    rw [hdouble, le_div_iff₀ hfive, div_eq_iff hfive.ne']
    exact ⟨by exact_mod_cast hlow, fun htie => hends (.inl (by exact_mod_cast htie))⟩
  · intro _
    rw [hdouble, div_le_iff₀ hfive, div_eq_iff hfive.ne']
    exact ⟨by exact_mod_cast hhigh, fun htie => hends (.inr (by exact_mod_cast htie))⟩

/-! ## Setting out -/

theorem isDigit_of_mem_paddedDigits {width n : Nat} :
    ∀ c ∈ paddedDigits width n, c.isDigit = true :=
  List.forall_mem_append.mpr ⟨isDigit_of_mem_zeros, isDigit_of_mem_toDigits⟩

/-- Filled up digits have the width and the value of the number. -/
theorem length_paddedDigits {width n : Nat} (hwidth : 0 < width) (h : n < 10 ^ width) :
    (paddedDigits width n).length = width := by
  have hle : (digits n).length ≤ width :=
    (Nat.length_toDigits_le_iff (by decide) hwidth).mpr h
  rw [paddedDigits, List.length_append, List.length_replicate, Nat.sub_add_cancel hle]

theorem ofDigitChars_paddedDigits (width n : Nat) :
    Nat.ofDigitChars 10 (paddedDigits width n) 0 = n := by
  rw [paddedDigits, Nat.ofDigitChars_append, Nat.ofDigitChars_replicate_zero, Nat.mul_zero]
  exact Nat.ofDigitChars_ten_toDigits

theorem isDecimal_positional (multiple power : Nat) : IsDecimal (positional multiple power) := by
  unfold positional
  split
  · refine ⟨_, List.forall_mem_append.mpr ?_, .inl rfl⟩
    exact ⟨isDigit_of_mem_toDigits, isDigit_of_mem_zeros⟩
  · exact ⟨_, isDigit_of_mem_toDigits, .inr ⟨_, isDigit_of_mem_paddedDigits, rfl⟩⟩

theorem exists_digit_positional (multiple power : Nat) :
    ∃ c ∈ positional multiple power, c.isDigit = true := by
  obtain ⟨n, more, h⟩ : ∃ n more, positional multiple power = digits n ++ more := by
    unfold positional
    split <;> exact ⟨_, _, rfl⟩
  obtain ⟨c, hc⟩ := List.exists_mem_of_ne_nil (digits n) Nat.toDigits_ne_nil
  exact ⟨c, h ▸ List.mem_append_left _ hc, isDigit_of_mem_toDigits c hc⟩

theorem exactValue_positional (multiple power : Nat) :
    exactValue (positional multiple power) = multiple * 10 ^ power / 10 ^ finestPlaces := by
  rw [(isDecimal_positional _ _).exactValue_eq, Literal.numerator_div_scale]
  unfold positional digits
  generalize finestPlaces = finest
  split
  · rename_i hle
    obtain ⟨zeros, rfl⟩ := Nat.exists_eq_add_of_le hle
    rw [Literal.leading_digits (List.forall_mem_append.mpr
      ⟨isDigit_of_mem_toDigits, isDigit_of_mem_zeros⟩), Nat.add_sub_cancel_left, fractionValue,
      add_zero, Nat.ofDigitChars_append, Nat.ofDigitChars_replicate_zero,
      Nat.ofDigitChars_ten_toDigits]
    push_cast
    field_simp
    ring
  · rename_i hle
    obtain ⟨places, rfl⟩ := Nat.exists_eq_add_of_le (Nat.lt_of_not_le hle).le
    have hpos : 0 < Nat.pow 10 places := Nat.pow_pos (by decide)
    have hsplit : (multiple : ℚ) = 10 ^ places * (multiple / Nat.pow 10 places : Nat) +
        (multiple % Nat.pow 10 places : Nat) := by
      exact_mod_cast (Nat.div_add_mod multiple (10 ^ places)).symm
    have hlength : (paddedDigits places (multiple % Nat.pow 10 places)).length = places :=
      length_paddedDigits (by omega) (Nat.mod_lt _ hpos)
    dsimp only
    rw [Nat.add_sub_cancel_left,
      Literal.leading_decimal isDigit_of_mem_toDigits isDigit_of_mem_paddedDigits,
      fractionValue_eq, ofDigitChars_paddedDigits, hlength, Nat.ofDigitChars_ten_toDigits, pow_add]
    generalize multiple / Nat.pow 10 places = whole at hsplit ⊢
    generalize multiple % Nat.pow 10 places = fraction at hsplit ⊢
    rw [hsplit]
    field_simp

/-- A multiple of the finest power of ten is a half of a unit, divided by a power of five. -/
theorem ten_pow_finestPlaces :
    (10 : ℚ) ^ finestPlaces = 2 * Double.unitsInOne * (Nat.pow 5 finestPlaces : Nat) := by
  have hgeneral : ∀ n : Nat, (10 : ℚ) ^ (n + 1) = 2 * 2 ^ n * (Nat.pow 5 (n + 1) : Nat) := by
    intro n
    show _ = 2 * 2 ^ n * ((5 ^ (n + 1) : Nat) : ℚ)
    rw [Nat.cast_pow, Nat.cast_ofNat, ← pow_succ', ← mul_pow]
    norm_num
  have hplaces : finestPlaces = 1074 + 1 := rfl
  rw [Double.cast_unitsInOne, hplaces]
  exact hgeneral 1074

/-- The shortest decimal of a double rounds to it. -/
theorem roundsTo_magnitudeText {x : Float} (hpositive : Double.isNegative x = false)
    (hfinite : Double.rank x < Double.top) :
    IsDecimal (magnitudeText (Double.rank x)) ∧
      (∃ c ∈ magnitudeText (Double.rank x), c.isDigit = true) ∧
      Double.RoundsTo (exactValue (magnitudeText (Double.rank x))) x := by
  unfold magnitudeText
  by_cases hzero : Double.rank x = 0
  · rw [if_pos hzero]
    have hvalue : exactValue ['0'] = 0 := by decide +kernel
    refine ⟨⟨['0'], List.forall_mem_singleton.mpr rfl, .inl rfl⟩,
      ⟨'0', List.mem_singleton_self _, rfl⟩, ?_⟩
    rw [hvalue, Double.roundsTo_iff le_rfl, zero_mul, hzero]
    exact ⟨hpositive, Double.nearest_units (Nat.zero_le _)⟩
  · rw [if_neg hzero, if_neg hfinite.ne]
    have hnearest := nearest_of_contains hfinite (contains_shortest (Nat.pos_of_ne_zero hzero))
    generalize shortest (Double.rank x) = found at hnearest ⊢
    obtain ⟨multiple, power⟩ := found
    have hscaled : (multiple * 10 ^ power / 10 ^ finestPlaces : ℚ) * Double.unitsInOne =
        (multiple * Nat.pow 10 power : Nat) / (2 * (Nat.pow 5 finestPlaces : Nat)) := by
      have hpower : ((Nat.pow 10 power : Nat) : ℚ) = 10 ^ power := by
        show ((10 ^ power : Nat) : ℚ) = _
        push_cast
        rfl
      have hunits := Double.unitsInOne_pos
      have hfive : (0 : ℚ) < (Nat.pow 5 finestPlaces : Nat) :=
        Nat.cast_pos.mpr (pow_five_pos finestPlaces)
      rw [ten_pow_finestPlaces, Nat.cast_mul, hpower]
      field_simp
    refine ⟨isDecimal_positional _ _, exists_digit_positional _ _, ?_⟩
    rw [exactValue_positional, Double.roundsTo_iff (by positivity), hscaled]
    exact ⟨hpositive, hnearest⟩

/-! ## The text of a double -/

section
variable {x : Float}

theorem toList_text (hpositive : Double.isNegative x = false) (hfinite : x.isFinite = true) :
    (text x).toList = magnitudeText (Double.rank x) := by
  have hrank := Double.isFinite_iff.mp hfinite
  have hnumber : ¬ x.isNaN = true := ne_true_of_eq_false (Double.isNaN_eq_false hrank.le)
  have hsign : ¬ Double.isNegative x = true := ne_true_of_eq_false hpositive
  rw [text, if_neg hnumber]
  dsimp only
  rw [if_neg hsign, String.toList_ofList]

theorem isDecimal_text (hpositive : Double.isNegative x = false) (hfinite : x.isFinite = true) :
    IsDecimal (text x).toList := by
  rw [toList_text hpositive hfinite]
  exact (roundsTo_magnitudeText hpositive (Double.isFinite_iff.mp hfinite)).1

/-- The text of a double reads back to it. -/
theorem read?_text (hpositive : Double.isNegative x = false) (hfinite : x.isFinite = true) :
    read? (text x) = some x := by
  obtain ⟨-, hdigit, hrounds⟩ :=
    roundsTo_magnitudeText hpositive (Double.isFinite_iff.mp hfinite)
  rw [← toList_text hpositive hfinite] at hdigit hrounds
  exact ((isDecimal_text hpositive hfinite).longestDecimal.read?_eq_some_iff hdigit x).mpr hrounds

theorem isNumeral_of_isDigit {c : Char} (h : c.isDigit = true) : Token.isNumeral c = true := by
  rw [Token.isNumeral, h, Bool.true_or]

theorem IsDecimal.isNumeral {p : List Char} (h : IsDecimal p) :
    ∀ c ∈ p, Token.isNumeral c = true := by
  obtain ⟨whole, hwhole, rfl | ⟨fraction, hfraction, rfl⟩⟩ := h
  · exact fun c hc => isNumeral_of_isDigit (hwhole c hc)
  · rw [List.forall_mem_append, List.forall_mem_cons]
    exact ⟨fun c hc => isNumeral_of_isDigit (hwhole c hc), rfl,
      fun c hc => isNumeral_of_isDigit (hfraction c hc)⟩

theorem spelled_text (hpositive : Double.isNegative x = false) (hfinite : x.isFinite = true) :
    Token.Spelled ⟨.number, text x⟩ := by
  have hnumerals := (isDecimal_text hpositive hfinite).isNumeral
  cases htext : (text x).toList with
  | nil =>
    have hnone : read? (text x) = none := by rw [String.toList_eq_nil_iff.mp htext]; rfl
    rw [read?_text hpositive hfinite] at hnone
    cases hnone
  | cons first more =>
    rw [htext, List.forall_mem_cons] at hnumerals
    exact .number htext hnumerals.1 hnumerals.2

end

end Decimal

/-! ## Lines that are a number -/

section
variable {name text : String}

theorem Token.cut_number (h : Spelled ⟨.number, text⟩) (position : Nat) :
    Cut position text.toList [⟨.number, text, position⟩] := by
  have hstops : Stops .number [] := fun c hc => by cases hc
  rw [← List.append_nil text.toList]
  exact .word h hstops (.nil _)

theorem Token.tokenize_number (h : Spelled ⟨.number, text⟩) :
    tokenize text = .ok [⟨.number, text, 0⟩] :=
  tokenize_eq_ok_iff_cut.mpr (cut_number h 0)

theorem Program.ofSource_number (h : Token.Spelled ⟨.number, text⟩) :
    ofSource text = .ok [.number text 0] :=
  ofSource_eq_ok.mpr ⟨_, Token.tokenize_number h, rfl⟩

theorem Token.stops_blank {kind : Kind} (h : kind = .identifier ∨ kind = .assign)
    (rest : List Char) : Stops kind (' ' :: rest) := by
  rcases h with rfl | rfl <;> rintro c ⟨⟩ <;> rfl

/-- A name, `=` and a number, with a blank between them. -/
theorem Token.tokenize_assignment (hname : IsName name) (h : Spelled ⟨.number, text⟩) :
    ∃ sign place, tokenize (name ++ " = " ++ text) =
      .ok [⟨.identifier, name, 0⟩, ⟨.assign, "=", sign⟩, ⟨.number, text, place⟩] := by
  have hchars : (name ++ " = " ++ text).toList =
      name.toList ++ (' ' :: ("=".toList ++ (' ' :: text.toList))) := by
    rw [String.toList_append, String.toList_append, List.append_assoc]
    rfl
  have hmark : Spelled ⟨.assign, "="⟩ := .mark rfl rfl
  have hvalue : ∀ position, Cut position (' ' :: text.toList) [⟨.number, text, position + 1⟩] :=
    fun position => .space rfl (cut_number h _)
  have hsign : ∀ position, ∃ place, Cut position (' ' :: ("=".toList ++ (' ' :: text.toList)))
      [⟨.assign, "=", position + 1⟩, ⟨.number, text, place⟩] :=
    fun position => ⟨_, .space rfl (.word hmark (stops_blank (.inr rfl) _) (hvalue _))⟩
  obtain ⟨place, hcut⟩ := hsign (0 + Text.byteSize name.toList)
  have hwhole := Cut.word (isName_iff.mp hname) (stops_blank (.inl rfl) _) hcut
  rw [← hchars] at hwhole
  exact ⟨_, place, tokenize_eq_ok_iff_cut.mpr hwhole⟩

namespace Session

variable {x : Float}

/-- A number is a statement of its own. -/
theorem run_number (h : Token.Spelled ⟨.number, text⟩) (hread : Decimal.read? text = some x)
    (s : Session) : (s.run text).1 = .ok x ∧ (s.run text).2.bindings = s.bindings := by
  obtain ⟨hresult, hbindings⟩ := run_eq_program (Program.ofSource_number h) s
  rw [hresult, hbindings, Eval.program, Eval.expr_number, Eval.number, hread]
  exact ⟨rfl, rfl⟩

/-- A number can be assigned to a name. -/
theorem run_assignment (hname : Token.IsName name) (h : Token.Spelled ⟨.number, text⟩)
    (hread : Decimal.read? text = some x) (s : Session) :
    (s.run (name ++ " = " ++ text)).1 = .ok x ∧
      (s.run (name ++ " = " ++ text)).2.bindings = s.bindings.insert name x := by
  obtain ⟨sign, place, htokens⟩ := Token.tokenize_assignment hname h
  have hprogram : Program.ofSource (name ++ " = " ++ text) =
      .ok [.assign (.identifier name 0) (.number text place) sign] :=
    Program.ofSource_eq_ok.mpr ⟨_, htokens, rfl⟩
  obtain ⟨hresult, hbindings⟩ := run_eq_program hprogram s
  rw [hresult, hbindings, Eval.program, Eval.expr_assign, Eval.expr_number, Eval.number, hread]
  exact ⟨rfl, rfl⟩

end Session

end

/-- What is shown for a line that has a value. -/
theorem Command.out_runLines_of_ok {s : Session} {line : String} {x : Float}
    (hblank : Text.isBlank line = false) (hrun : (s.run line).1 = .ok x) (keepGoing : Bool) :
    (runLines keepGoing s [some line]).out = Decimal.text x ++ "\n" := by
  have hanswer : (answer s line).1 = .value x := by
    rw [answer, if_neg (ne_true_of_eq_false hblank)]
    cases hsession : s.run line with
    | mk result s' =>
      rw [hsession] at hrun
      cases hrun
      rfl
  have hgoes : ¬ Fails s line := by
    rintro ⟨-, fault, hfault⟩
    rw [hrun] at hfault
    cases hfault
  rw [runLines_cons_of_goes (.inr hgoes), hanswer]
  exact String.append_empty

namespace Session

/-- **What is shown for a value brings it back.** The text of a finite double without a minus
sign is a decimal, one token and one statement, and running it in any session gives the very
double and binds nothing. Assigned to a name it gives the name that value. -/
theorem run_printed {v : Float} (hfinite : v.isFinite = true)
    (hpositive : Double.isNegative v = false) (s : Session) :
    let text := Decimal.text v
    (∀ (keepGoing : Bool) (s' : Session) (line : String), Text.isBlank line = false →
      (s'.run line).1 = .ok v →
        (Command.runLines keepGoing s' [some line]).out = text ++ "\n") ∧
    Decimal.IsDecimal text.toList ∧
    Token.tokenize text = .ok [⟨.number, text, 0⟩] ∧
    Program.ofSource text = .ok [.number text 0] ∧
    (s.run text).1 = .ok v ∧ (s.run text).2.bindings = s.bindings ∧
    ∀ name, Token.IsName name →
      (s.run (name ++ " = " ++ text)).1 = .ok v ∧
      (s.run (name ++ " = " ++ text)).2.bindings = s.bindings.insert name v := by
  intro text
  have hspelled := Decimal.spelled_text hpositive hfinite
  have hread := Decimal.read?_text hpositive hfinite
  obtain ⟨hvalue, hbindings⟩ := run_number hspelled hread s
  refine ⟨?_, Decimal.isDecimal_text hpositive hfinite, Token.tokenize_number hspelled,
    Program.ofSource_number hspelled, hvalue, hbindings, ?_⟩
  · intro keepGoing s' line hblank hrun
    exact Command.out_runLines_of_ok hblank hrun keepGoing
  · intro name hname
    exact run_assignment hname hspelled hread s

/-- A sum of two decimals that needs all its digits. -/
theorem run_printed_sum :
    let v : Float := 0.1 + 0.2
    v.isFinite = true ∧ Double.isNegative v = false ∧
    (run {} "0.30000000000000004").1 = .ok v ∧
    (Command.runLines false {} [some "0.30000000000000004"]).out = "0.30000000000000004\n" ∧
    Token.IsName "x" ∧
    (run {} "x = 0.30000000000000004").2.bindings = Bindings.empty.insert "x" v := by
  intro v
  have hfinite : v.isFinite = true := by decide +kernel
  have hpositive : Double.isNegative v = false := by decide +kernel
  have htext : Decimal.text v = "0.30000000000000004" := by decide +kernel
  have hname : Token.IsName "x" := Token.isName_iff.mpr (.identifier rfl rfl (by simp))
  obtain ⟨hshown, -, -, -, hvalue, -, hassigned⟩ := run_printed hfinite hpositive {}
  rw [htext] at hshown hvalue
  have hbound := (hassigned "x" hname).2
  rw [htext] at hbound
  exact ⟨hfinite, hpositive, hvalue, hshown false {} _ (by decide +kernel) hvalue, hname, hbound⟩

end Session

end LineCalc
