import Mathlib
import LineCalc.Proofs.Decomposition

/-!
# Which token comes next

A text may begin with several tokens: `12ab` with `1` and with `12`, both numbers. Two
rules are in use for telling which one is meant.

* By *longest match*, all kinds are tried and the longest token is taken.
* By *first match*, the kinds are tried in a fixed order, and the first one that fits is
  taken, with the longest token of that kind.

Which rule applies would matter if tokens of two kinds could begin with the same character.
Under longest match names begin with a letter or an underscore, and no two kinds share a first
character. Under first match names may begin with digits as well (`Kind.loosePattern`), but
there numbers have been tried before.

Main statement: both rules give the tokens, or the fault, that tokenizing gives
(`tokenize_eq_longestMatch_firstMatch`).
-/

namespace LineCalc.Token

open Text (byteSize)

/-! ## Rules -/

/-- The beginnings of a text that match the pattern and are not empty. -/
def fronts (pattern : RegularExpression Char) (text : List Char) : List (List Char) :=
  text.inits.filter fun front => !front.isEmpty && pattern.rmatch front

/-- The longest beginning of a text that matches the pattern and is not empty. -/
def greedy? (pattern : RegularExpression Char) (text : List Char) : Option (List Char) :=
  (fronts pattern text).argmax List.length

/-- The longest tokens of each kind that a text begins with, in the order of the kinds. -/
def fitting (pattern : Kind → RegularExpression Char) (text : List Char) : List Lexeme :=
  Kind.all.filterMap fun kind =>
    (greedy? (pattern kind) text).map fun front => ⟨kind, front, text.drop front.length⟩

/-- A rule for telling the next token. -/
structure Rule where
  /-- The texts that a token of a kind can have. -/
  pattern : Kind → RegularExpression Char
  /-- The token that is taken of those that fit. -/
  choose : List Lexeme → Option Lexeme
  mem_of_choose : ∀ {lexemes lexeme}, choose lexemes = some lexeme → lexeme ∈ lexemes

/-- All kinds are tried, and the longest token is taken. -/
def Rule.longestMatch : Rule where
  pattern := Kind.pattern
  choose := List.argmax fun lexeme => lexeme.text.length
  mem_of_choose := List.argmax_mem

/-- As `Kind.pattern`, but names may begin with a digit. -/
def Kind.loosePattern (kind : Kind) : RegularExpression Char :=
  if kind = identifier then oneOf nameParts * (oneOf nameParts).star else kind.pattern

/-- The first kind that fits is taken. -/
def Rule.firstMatch : Rule where
  pattern := Kind.loosePattern
  choose := List.head?
  mem_of_choose := List.mem_of_head?

variable {pattern : RegularExpression Char} {front text rest : List Char} {first c : Char}
variable {kind : Kind} {lexeme : Lexeme}

theorem mem_fronts :
    front ∈ fronts pattern text ↔ front <+: text ∧ front ≠ [] ∧ pattern.rmatch front = true := by
  rw [fronts, List.mem_filter, List.mem_inits, Bool.and_eq_true, Bool.not_eq_true',
    List.isEmpty_eq_false_iff]

namespace Rule

/-- The token that the rule takes from the beginning of a text. -/
def next? (rule : Rule) (text : List Char) : Option Lexeme :=
  rule.choose (fitting rule.pattern text)

theorem length_rest_lt {rule : Rule} (h : rule.next? text = some lexeme) :
    lexeme.rest.length < text.length := by
  obtain ⟨kind, -, hlexeme⟩ := List.mem_filterMap.mp (rule.mem_of_choose h)
  obtain ⟨front, hfront, rfl⟩ := Option.map_eq_some_iff.mp hlexeme
  obtain ⟨hstart, hne, -⟩ := mem_fronts.mp (List.argmax_mem hfront)
  have hle := hstart.length_le
  have hpos := List.length_pos_iff.mpr hne
  rw [List.length_drop]
  omega

/-- The scan of a text by a rule. The text starts at byte `position` of the source. -/
def scanFrom (rule : Rule) (position : Nat) : List Char → Scan
  | [] => ⟨[], none⟩
  | first :: rest =>
    match h : rule.next? (first :: rest) with
    | none => ⟨[], some (.unexpected first position)⟩
    | some lexeme =>
      have := Nat.le_of_lt_succ (length_rest_lt h)
      let later := rule.scanFrom (position + byteSize lexeme.text) lexeme.rest
      if lexeme.kind = .space then later
      else ⟨⟨lexeme.kind, .ofList lexeme.text, position⟩ :: later.tokens, later.fault⟩
termination_by source => source.length

/-- The tokens of a source by a rule. -/
def tokenize (rule : Rule) (source : String) : Except ScanFault (List Token) :=
  (rule.scanFrom 0 source.toList).result

end Rule

/-! ## Longest beginnings -/

theorem greedy?_eq_some (hstart : front <+: text) (hne : front ≠ [])
    (hmatch : pattern.rmatch front = true)
    (hlongest : ∀ other, other <+: text → pattern.rmatch other = true →
      other.length ≤ front.length) : greedy? pattern text = some front := by
  have hmem : front ∈ fronts pattern text := mem_fronts.mpr ⟨hstart, hne, hmatch⟩
  cases hgreedy : greedy? pattern text with
  | none =>
    rw [greedy?, List.argmax_eq_none] at hgreedy
    rw [hgreedy] at hmem
    cases hmem
  | some other =>
    obtain ⟨hother, -, hmatch'⟩ := mem_fronts.mp (List.argmax_mem hgreedy)
    have hle : front.length ≤ other.length := List.le_of_mem_argmax hmem hgreedy
    have hsame := List.prefix_of_prefix_length_le hstart hother hle
    rw [hsame.eq_of_length_le (hlongest other hother hmatch')]

theorem greedy?_eq_none (h : ∀ front, front <+: text → front ≠ [] → pattern.rmatch front = false) :
    greedy? pattern text = none := by
  rw [greedy?, List.argmax_eq_none, List.eq_nil_iff_forall_not_mem]
  intro front hfront
  obtain ⟨hstart, hne, hmatch⟩ := mem_fronts.mp hfront
  rw [h front hstart hne] at hmatch
  cases hmatch

/-- One character of a class, and as many of another one as follow. -/
theorem greedy?_class {cs ds : List Char} {p q : Char → Bool} (hp : ∀ c, p c = true ↔ c ∈ cs)
    (hq : ∀ c, q c = true ↔ c ∈ ds) (first : Char) (rest : List Char) :
    greedy? (oneOf cs * (oneOf ds).star) (first :: rest) =
      if p first then some (first :: rest.takeWhile q) else none := by
  split
  · rename_i hfirst
    refine greedy?_eq_some ?_ (by simp) ?_ ?_
    · exact (List.cons_prefix_cons).mpr ⟨rfl, List.takeWhile_prefix q⟩
    · exact (rmatch_oneOf_mul_star cs ds _).mpr ⟨first, _, rfl, (hp first).mp hfirst,
        fun c hc => (hq c).mp (List.mem_takeWhile_imp hc)⟩
    · intro other hother hmatch
      obtain ⟨first', more, rfl, -, hmore⟩ := (rmatch_oneOf_mul_star cs ds other).mp hmatch
      obtain ⟨-, later, rfl⟩ := List.cons_prefix_cons.mp hother
      have hall : ∀ c ∈ more, q c = true := fun c hc => (hq c).mpr (hmore c hc)
      rw [List.takeWhile_append_of_pos hall]
      simp
  · rename_i hfirst
    refine greedy?_eq_none ?_
    intro front hfront hne
    by_contra hmatch
    rw [Bool.not_eq_false] at hmatch
    obtain ⟨first', more, rfl, hfirst', -⟩ := (rmatch_oneOf_mul_star cs ds front).mp hmatch
    obtain ⟨rfl, -⟩ := List.cons_prefix_cons.mp hfront
    exact hfirst ((hp first').mpr hfirst')

theorem greedy?_char (c first : Char) (rest : List Char) :
    greedy? (.char c) (first :: rest) = if first = c then some [c] else none := by
  split
  · rename_i hfirst
    subst hfirst
    refine greedy?_eq_some (by simp) (by simp) ((RegularExpression.char_rmatch_iff _ _).mpr rfl) ?_
    intro other _ hmatch
    rw [(RegularExpression.char_rmatch_iff _ _).mp hmatch]
  · rename_i hfirst
    refine greedy?_eq_none ?_
    intro front hfront hne
    by_contra hmatch
    rw [Bool.not_eq_false, RegularExpression.char_rmatch_iff] at hmatch
    subst hmatch
    exact hfirst (List.cons_prefix_cons.mp hfront).1.symm

/-! ## The first character tells the kind -/

/-- Whether tokens of a kind may begin with a character. -/
def begins (kind : Kind) (c : Char) : Bool :=
  match kind with
  | .number => isNumeral c
  | .identifier => isNameStart c
  | .space => isSpace c
  | kind => mark? c == some kind

/-- The kind of the tokens that begin with a character. -/
def kindOf? (c : Char) : Option Kind :=
  if isNumeral c then some .number
  else if isNameStart c then some .identifier
  else if isSpace c then some .space
  else mark? c

/-- The token of a kind that a text begins with, if it begins with one. -/
def lexemeOf (first : Char) (rest : List Char) (kind : Kind) : Lexeme :=
  Lexeme.run kind (continues kind) first rest

theorem munch?_eq_map (first : Char) (rest : List Char) :
    Lexeme.munch? first rest = (kindOf? first).map (lexemeOf first rest) := by
  rw [Lexeme.munch?, kindOf?]
  split
  · rfl
  · split
    · rfl
    · split
      · rfl
      · refine Option.map_congr fun kind hkind => ?_
        have hstops : Stops kind rest := fun c _ => continues_of_mark? hkind c
        rw [lexemeOf, Lexeme.run, hstops.takeWhile, hstops.dropWhile]

theorem kindOf?_of_begins (h : begins kind c = true) : kindOf? c = some kind := by
  cases kind with
  | number => exact if_pos h
  | identifier =>
    have h : isNameStart c = true := h
    simp [kindOf?, isNumeral_of_isNameStart h, h]
  | space =>
    have h : isSpace c = true := h
    obtain ⟨hnumeral, -, hstart⟩ := classes_of_isSpace h
    simp [kindOf?, hnumeral, hstart, h]
  | _ =>
    have hmark := eq_of_beq h
    obtain ⟨hnumeral, -, hstart, hspace⟩ := classes_of_mark? hmark
    simp [kindOf?, hnumeral, hstart, hspace, hmark]

theorem begins_of_kindOf? (h : kindOf? c = some kind) : begins kind c = true := by
  rw [kindOf?] at h
  split at h
  · cases h
    assumption
  · split at h
    · cases h
      assumption
    · split at h
      · cases h
        assumption
      · unfold mark? at h
        split at h <;> cases h <;> rfl

/-- Tokens of different kinds begin with different characters. -/
theorem filter_begins (c : Char) : Kind.all.filter (begins · c) = (kindOf? c).toList := by
  have hbegins : (begins · c) = fun kind => kindOf? c == some kind := by
    funext kind
    rw [Bool.eq_iff_iff, beq_iff_eq]
    exact ⟨kindOf?_of_begins, begins_of_kindOf?⟩
  rw [hbegins]
  cases kindOf? c with
  | none => rfl
  | some kind => cases kind <;> rfl

/-! ## Tokens that fit -/

theorem greedy?_mark (h : mark? c = some kind) (first : Char) (rest : List Char) :
    greedy? kind.pattern (first :: rest) =
      if mark? first == some kind then some (first :: rest.takeWhile (continues kind))
      else none := by
  have hstops : Stops kind rest := fun c _ => continues_of_mark? h c
  have hmark : mark? first = some kind ↔ first = c := by
    constructor
    · intro hfirst
      cases (pattern_of_mark? hfirst).symm.trans (pattern_of_mark? h)
      rfl
    · rintro rfl
      exact h
  rw [pattern_of_mark? h, greedy?_char, hstops.takeWhile]
  simp only [beq_iff_eq, hmark]
  split
  · rename_i hfirst
    rw [hfirst]
  · rfl

theorem greedy?_pattern (kind : Kind) (first : Char) (rest : List Char) :
    greedy? kind.pattern (first :: rest) =
      if begins kind first then some (first :: rest.takeWhile (continues kind)) else none := by
  cases kind with
  | number => exact greedy?_class isNumeral_iff isNumeral_iff first rest
  | identifier => exact greedy?_class isNameStart_iff isNamePart_iff first rest
  | space => exact greedy?_class isSpace_iff isSpace_iff first rest
  | assign => exact greedy?_mark (c := '=') rfl first rest
  | plus => exact greedy?_mark (c := '+') rfl first rest
  | minus => exact greedy?_mark (c := '-') rfl first rest
  | times => exact greedy?_mark (c := '*') rfl first rest
  | divide => exact greedy?_mark (c := '/') rfl first rest
  | remainder => exact greedy?_mark (c := '%') rfl first rest
  | leftParen => exact greedy?_mark (c := '(') rfl first rest
  | rightParen => exact greedy?_mark (c := ')') rfl first rest

/-- Whether tokens of a kind may begin with a character if names may begin with a digit. -/
def beginsLoosely (kind : Kind) (c : Char) : Bool :=
  if kind = .identifier then isNamePart c else begins kind c

theorem greedy?_loosePattern (kind : Kind) (first : Char) (rest : List Char) :
    greedy? kind.loosePattern (first :: rest) =
      if beginsLoosely kind first then some (first :: rest.takeWhile (continues kind))
      else none := by
  rw [Kind.loosePattern, beginsLoosely]
  split
  · rename_i hkind
    subst hkind
    exact greedy?_class isNamePart_iff isNamePart_iff first rest
  · exact greedy?_pattern kind first rest

theorem drop_length_takeWhile (p : Char → Bool) (text : List Char) :
    text.drop (text.takeWhile p).length = text.dropWhile p :=
  calc text.drop (text.takeWhile p).length
    _ = (text.takeWhile p ++ text.dropWhile p).drop (text.takeWhile p).length := by
        rw [List.takeWhile_append_dropWhile]
    _ = text.dropWhile p := List.drop_left

theorem fitting_cons {pattern : Kind → RegularExpression Char} {starts : Kind → Bool}
    (h : ∀ kind, greedy? (pattern kind) (first :: rest) =
      if starts kind then some (first :: rest.takeWhile (continues kind)) else none) :
    fitting pattern (first :: rest) = (Kind.all.filter starts).map (lexemeOf first rest) := by
  rw [fitting, ← List.filterMap_eq_map, List.filterMap_filter]
  refine List.filterMap_congr fun kind _ => ?_
  rw [h]
  split
  · simp [lexemeOf, Lexeme.run, drop_length_takeWhile]
  · rfl

theorem next?_longestMatch (first : Char) (rest : List Char) :
    Rule.longestMatch.next? (first :: rest) = Lexeme.munch? first rest := by
  rw [munch?_eq_map, Rule.next?, Rule.longestMatch,
    fitting_cons fun kind => greedy?_pattern kind first rest, filter_begins]
  cases kindOf? first <;> rfl

/-- Numbers are tried before names, so a digit begins a number. -/
theorem find?_beginsLoosely (c : Char) : Kind.all.find? (beginsLoosely · c) = kindOf? c := by
  by_cases hnumeral : isNumeral c = true
  · simp [Kind.all, beginsLoosely, begins, kindOf?, hnumeral]
  · have hdigit : c.isDigit = false := by
      simp only [isNumeral, Bool.or_eq_true, not_or, Bool.not_eq_true] at hnumeral
      exact hnumeral.1
    have hbegins : (beginsLoosely · c) = (begins · c) := by
      funext kind
      cases kind with
      | identifier => simp [beginsLoosely, begins, isNamePart, hdigit]
      | _ => rfl
    rw [hbegins, ← List.head?_filter, filter_begins]
    cases kindOf? c <;> rfl

theorem next?_firstMatch (first : Char) (rest : List Char) :
    Rule.firstMatch.next? (first :: rest) = Lexeme.munch? first rest := by
  rw [munch?_eq_map, Rule.next?, Rule.firstMatch,
    fitting_cons fun kind => greedy?_loosePattern kind first rest]
  show List.head? _ = _
  rw [List.head?_map, List.head?_filter, find?_beginsLoosely]

/-! ## Scans -/

/-- A rule that takes the same tokens scans alike. -/
theorem Rule.scanFrom_eq {rule : Rule}
    (h : ∀ first rest, rule.next? (first :: rest) = Lexeme.munch? first rest)
    (position : Nat) (text : List Char) :
    rule.scanFrom position text = Token.scanFrom position text := by
  fun_induction Rule.scanFrom rule position text with
  | case1 position => rw [scanFrom_nil]
  | case2 position first rest hnone =>
    rw [h] at hnone
    rw [Token.scanFrom]
    split
    · rfl
    · rename_i hsome
      rw [hnone] at hsome
      cases hsome
  | case3 position first rest lexeme hnext hle later hspace ih =>
    rw [h] at hnext
    rw [scanFrom_cons hnext, ← ih]
    exact (if_pos hspace).symm
  | case4 position first rest lexeme hnext hle later hspace ih =>
    rw [h] at hnext
    rw [scanFrom_cons hnext, ← ih]
    exact (if_neg hspace).symm

/-- **Longest match and first match agree.** Whether the longest token is taken, or one of the
first kind that fits where names may also begin with digits: either way a source has the
tokens, or the fault, that tokenizing gives. -/
theorem tokenize_eq_longestMatch_firstMatch (source : String) :
    tokenize source = Rule.longestMatch.tokenize source ∧
    tokenize source = Rule.firstMatch.tokenize source := by
  rw [Rule.tokenize, Rule.tokenize, Rule.scanFrom_eq next?_longestMatch,
    Rule.scanFrom_eq next?_firstMatch]
  exact ⟨rfl, rfl⟩

-- By longest match, names that may begin with a digit would win over numbers.
example : fitting Kind.loosePattern ['1', '2', 'a'] =
    [⟨.number, ['1', '2'], ['a']⟩, ⟨.identifier, ['1', '2', 'a'], []⟩] := by decide +kernel

end LineCalc.Token
