/-!
# Sizes in bytes

Places in a line are byte offsets in its UTF-8 form.
-/

namespace LineCalc.Text

/-- The number of bytes that some characters take in UTF-8. -/
def byteSize (text : List Char) : Nat := text.foldr (fun c size => c.utf8Size + size) 0

@[simp] theorem byteSize_nil : byteSize [] = 0 := rfl

@[simp] theorem byteSize_cons (c : Char) (text : List Char) :
    byteSize (c :: text) = c.utf8Size + byteSize text := rfl

theorem byteSize_append (a b : List Char) : byteSize (a ++ b) = byteSize a + byteSize b := by
  induction a with
  | nil => simp
  | cons c text ih =>
    simp only [List.cons_append, byteSize_cons, ih]
    omega

end LineCalc.Text
