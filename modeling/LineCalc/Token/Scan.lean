import LineCalc.Fault
import LineCalc.Text.Bytes

/-!
# From text to tokens

The source is cut from left to right. Each token is as long as it can be: a
number takes all digits and points that follow, an identifier all letters,
digits and underscores. Blanks only separate tokens and are dropped. A character
that starts no token ends the scan.
-/

namespace LineCalc.Token

/-! ## Character classes -/

/-- The characters of number literals. -/
def isNumeral (c : Char) : Bool := c.isDigit || c == '.'

/-- The characters that identifiers begin with. -/
def isNameStart (c : Char) : Bool := c.isAlpha || c == '_'

/-- The characters of identifiers after the first. -/
def isNamePart (c : Char) : Bool := isNameStart c || c.isDigit

/-- The blanks that separate tokens. -/
def isSpace (c : Char) : Bool :=
  c == ' ' || c == '\t' || c == '\n' || c == '\x0b' || c == '\x0c' || c == '\r'

/-- The kinds of the tokens that are single characters. -/
def mark? : Char → Option Kind
  | '=' => some .assign
  | '+' => some .plus
  | '-' => some .minus
  | '*' => some .times
  | '/' => some .divide
  | '%' => some .remainder
  | '(' => some .leftParen
  | ')' => some .rightParen
  | _ => none

/-! ## One token -/

/-- A token at the beginning of some text, and the text after it. -/
structure Lexeme where
  kind : Kind
  text : List Char
  rest : List Char
  deriving DecidableEq, Repr

/-- The token that begins with `first` and goes on as long as characters of
its class follow. -/
def Lexeme.run (kind : Kind) (inClass : Char → Bool) (first : Char) (rest : List Char) : Lexeme :=
  ⟨kind, first :: rest.takeWhile inClass, rest.dropWhile inClass⟩

/-- The longest token at the beginning of a text that starts with `first`. -/
def Lexeme.munch? (first : Char) (rest : List Char) : Option Lexeme :=
  if isNumeral first then some (run .number isNumeral first rest)
  else if isNameStart first then some (run .identifier isNamePart first rest)
  else if isSpace first then some (run .space isSpace first rest)
  else (mark? first).map fun kind => ⟨kind, [first], rest⟩

theorem Lexeme.length_rest_le {first : Char} {rest : List Char} {lexeme : Lexeme}
    (h : munch? first rest = some lexeme) : lexeme.rest.length ≤ rest.length := by
  have shorter (p : Char → Bool) : (rest.dropWhile p).length ≤ rest.length :=
    (List.dropWhile_suffix p).length_le
  rw [munch?] at h
  by_cases hn : isNumeral first
  · rw [if_pos hn] at h; cases h; exact shorter _
  · rw [if_neg hn] at h
    by_cases hi : isNameStart first
    · rw [if_pos hi] at h; cases h; exact shorter _
    · rw [if_neg hi] at h
      by_cases hs : isSpace first
      · rw [if_pos hs] at h; cases h; exact shorter _
      · rw [if_neg hs, Option.map_eq_some_iff] at h
        obtain ⟨kind, -, rfl⟩ := h
        exact Nat.le_refl _

/-! ## All tokens -/

/-- What reading a text gave: the tokens up to its end, or up to the character
at which the scan stopped. -/
structure Scan where
  tokens : List Token
  fault : Option ScanFault
  deriving DecidableEq, Repr

/-- The scan of a text that starts at byte `position` of the source. -/
def scanFrom (position : Nat) : List Char → Scan
  | [] => ⟨[], none⟩
  | first :: rest =>
    match h : Lexeme.munch? first rest with
    | none => ⟨[], some (.unexpected first position)⟩
    | some lexeme =>
      have := Lexeme.length_rest_le h
      let later := scanFrom (position + Text.byteSize lexeme.text) lexeme.rest
      if lexeme.kind = .space then later
      else ⟨⟨lexeme.kind, .ofList lexeme.text, position⟩ :: later.tokens, later.fault⟩
termination_by source => source.length

/-- The scan of a whole source. -/
def scan (source : String) : Scan := scanFrom 0 source.toList

/-- The outcome of a scan: its tokens, if it came to the end of the text. -/
def Scan.result (s : Scan) : Except ScanFault (List Token) :=
  match s.fault with
  | none => .ok s.tokens
  | some fault => .error fault

/-- The tokens of a source. -/
def tokenize (source : String) : Except ScanFault (List Token) :=
  (scan source).result

end LineCalc.Token
