import LineCalc.Proofs.Rendering

/-!
# Parentheses of a rendering

The text of an expression is put together along its left spine: all parentheses of the
spine open first, and each closes after the right operand that it ends with. This is the
same as writing the two sides of every node one after the other, with an operation in
parentheses and an assignment without (`Expr.plainText`), for an expression of any shape.

So the parentheses of the text are those of the operations, unless there are some in a
number or in a name. Main statement: they are balanced, and there is one pair for each
operation (`Expr.render_balanced`).
-/

namespace LineCalc

/-! ## Balanced texts -/

/-- So many parentheses open and as many close, and none closes that has not been opened. -/
structure Text.Balanced (pairs : Nat) (text : List Char) : Prop where
  opening : text.count '(' = pairs
  closing : text.count ')' = pairs
  closing_le : ∀ front, front <+: text → front.count ')' ≤ front.count '('

namespace Text

variable {m n : Nat} {text later : List Char}

theorem balanced_of_notMem (hopening : '(' ∉ text) (hclosing : ')' ∉ text) :
    Balanced 0 text where
  opening := List.count_eq_zero.mpr hopening
  closing := List.count_eq_zero.mpr hclosing
  closing_le := by
    intro front hfront
    have hnone : ')' ∉ front := fun h => hclosing (hfront.subset h)
    rw [List.count_eq_zero.mpr hnone]
    exact Nat.zero_le _

theorem Balanced.append (h : Balanced m text) (hlater : Balanced n later) :
    Balanced (m + n) (text ++ later) where
  opening := by rw [List.count_append, h.opening, hlater.opening]
  closing := by rw [List.count_append, h.closing, hlater.closing]
  closing_le := by
    intro front hfront
    rcases List.prefix_or_prefix_of_prefix hfront (List.prefix_append text later) with hle | hle
    · exact h.closing_le front hle
    · -- the beginning has the whole first text, which leaves nothing open
      obtain ⟨rest, rfl⟩ := hle
      have hrest := hlater.closing_le rest ((List.prefix_append_right_inj text).mp hfront)
      rw [List.count_append, List.count_append, h.opening, h.closing]
      omega

theorem Balanced.enclosed (h : Balanced n text) : Balanced (n + 1) ('(' :: (text ++ [')'])) where
  opening := by simp [h.opening]
  closing := by simp [h.closing]
  closing_le := by
    intro front hfront
    rcases List.prefix_cons_iff.mp hfront with rfl | ⟨inner, rfl, hinner⟩
    · exact Nat.le_refl 0
    · rcases List.prefix_concat_iff.mp hinner with rfl | hle
      · simp [h.opening, h.closing]
      · have hcount := h.closing_le inner hle
        rw [List.count_cons_self, List.count_cons_of_ne (by decide)]
        omega

end Text

/-! ## The text by plain recursion -/

namespace Expr

/-- The text of an expression: every operation in parentheses, an assignment without. -/
def plainText : Expr → String
  | number text _ => text
  | identifier name _ => name
  | arith op left right _ =>
    "(" ++ left.plainText ++ " " ++ op.symbol ++ " " ++ right.plainText ++ ")"
  | assign target value _ => target.plainText ++ " = " ++ value.plainText

/-- How many operations there are in an expression. -/
def operations : Expr → Nat
  | number _ _ | identifier _ _ => 0
  | arith _ left right _ => left.operations + right.operations + 1
  | assign target value _ => target.operations + value.operations

/-- The texts of the numbers and names in an expression. -/
def leafTexts : Expr → List String
  | number text _ => [text]
  | identifier name _ => [name]
  | arith _ left right _ => left.leafTexts ++ right.leafTexts
  | assign target value _ => target.leafTexts ++ value.leafTexts

theorem render_eq_plainText (e : Expr) : e.render = e.plainText := by
  induction e with
  | number text position => simp [render, renderSpine, openings, plainText]
  | identifier name position => simp [render, renderSpine, openings, plainText]
  | arith op left right position ihLeft ihRight =>
    rw [render_arith, ihLeft, ihRight, plainText]
  | assign target value position ihTarget ihValue =>
    rw [render_assign, ihTarget, ihValue, plainText]

/-! ## One pair for each operation -/

theorem balanced_symbol (op : Operator) :
    Text.Balanced 0 (" " ++ op.symbol ++ " ").toList := by
  cases op <;> exact Text.balanced_of_notMem (by decide) (by decide)

theorem balanced_plainText (e : Expr)
    (h : ∀ text ∈ e.leafTexts, '(' ∉ text.toList ∧ ')' ∉ text.toList) :
    Text.Balanced e.operations e.plainText.toList := by
  induction e with
  | number text position =>
    obtain ⟨hopening, hclosing⟩ := h text (by simp [leafTexts])
    exact Text.balanced_of_notMem hopening hclosing
  | identifier name position =>
    obtain ⟨hopening, hclosing⟩ := h name (by simp [leafTexts])
    exact Text.balanced_of_notMem hopening hclosing
  | arith op left right position ihLeft ihRight =>
    simp only [leafTexts, List.mem_append] at h
    have hleft := ihLeft fun text htext => h text (.inl htext)
    have hright := ihRight fun text htext => h text (.inr htext)
    have hall := ((hleft.append (balanced_symbol op)).append hright).enclosed
    rw [operations, plainText]
    simpa using hall
  | assign target value position ihTarget ihValue =>
    simp only [leafTexts, List.mem_append] at h
    have htarget := ihTarget fun text htext => h text (.inl htext)
    have hvalue := ihValue fun text htext => h text (.inr htext)
    have hsign : Text.Balanced 0 " = ".toList := Text.balanced_of_notMem (by decide) (by decide)
    have hall := (htarget.append hsign).append hvalue
    rw [operations, plainText]
    simpa using hall

/-- **The text of an expression by plain recursion.** The text along the left spine is that
of the plain recursion, whatever the shape of the expression. If there are no parentheses
in its numbers and names, then those of the text are balanced, with exactly one pair for
each operation. -/
theorem render_balanced (e : Expr) :
    e.render = e.plainText ∧
    ((∀ text ∈ e.leafTexts, '(' ∉ text.toList ∧ ')' ∉ text.toList) →
      Text.Balanced e.operations e.render.toList) := by
  refine ⟨e.render_eq_plainText, ?_⟩
  intro h
  rw [render_eq_plainText]
  exact e.balanced_plainText h

/-- Assignments at the bottom of a spine, as a right operand, and as the target and the value
of another one. -/
theorem render_balanced_assignments :
    let spine : Expr := .arith .multiply
      (.arith .add (.assign (.identifier "y" 0) (.number "2" 0) 0) (.number "3" 0) 0)
      (.assign (.identifier "z" 0) (.arith .subtract (.number "4" 0) (.number "5" 0) 0) 0) 0
    let e : Expr := .assign (.assign (.identifier "x" 0) (.number "1" 0) 0) spine 0
    e.render = "x = 1 = ((y = 2 + 3) * z = (4 - 5))" ∧ Text.Balanced 3 e.render.toList := by
  intro spine e
  obtain ⟨hrender, hbalanced⟩ := render_balanced e
  have hleaves : e.leafTexts = ["x", "1", "y", "2", "3", "z", "4", "5"] := rfl
  refine ⟨hrender.trans (by decide), hbalanced ?_⟩
  rw [hleaves]
  decide

end Expr

end LineCalc
