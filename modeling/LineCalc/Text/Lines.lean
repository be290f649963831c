/-!
# Lines

A line ends with a line feed, which may have a carriage return before it; the
last line may lack its end. Text that comes as bytes is cut at the line feeds
first, and each piece is decoded on its own, so a piece that is no UTF-8 does not
touch the others.
-/

namespace LineCalc.Text

/-- Cut a list after each element that ends a piece. No piece is empty, and
only the last one may be without an end. -/
def pieces {α : Type} (ends : α → Bool) : List α → List (List α)
  | [] => []
  | x :: rest =>
    if ends x then [x] :: pieces ends rest
    else
      match pieces ends rest with
      | [] => [[x]]
      | piece :: others => (x :: piece) :: others

/-- Nothing is lost: the pieces make up the list. -/
@[simp] theorem flatten_pieces {α : Type} (ends : α → Bool) (l : List α) :
    (pieces ends l).flatten = l := by
  induction l with
  | nil => rfl
  | cons x rest ih =>
    rw [pieces]
    split
    · rw [List.flatten_cons, ih, List.singleton_append]
    · cases h : pieces ends rest with
      | nil =>
        rw [h, List.flatten_nil] at ih
        rw [← ih]
        rfl
      | cons piece others =>
        rw [h, List.flatten_cons] at ih
        rw [← ih]
        rfl

/-- A piece without its line end. A carriage return belongs to the line end
only if a line feed follows it. -/
def chomp (piece : List Char) : List Char :=
  match piece.reverse with
  | '\n' :: '\r' :: rest => rest.reverse
  | '\n' :: rest => rest.reverse
  | _ => piece

/-- The lines of a text, without their ends. -/
def lines (text : String) : List String :=
  (pieces (· == '\n') text.toList).map fun piece => .ofList (chomp piece)

/-- The lines of a text that comes as bytes, with their ends. A line that is
not UTF-8 is `none`. -/
def rawLines (bytes : List UInt8) : List (Option String) :=
  (pieces (· == 10) bytes).map fun piece => String.fromUTF8? ⟨piece.toArray⟩

/-- The lines of a text that comes as bytes, without their ends. -/
def decodedLines (bytes : List UInt8) : List (Option String) :=
  (rawLines bytes).map fun line => line.map fun text => .ofList (chomp text.toList)

end LineCalc.Text
