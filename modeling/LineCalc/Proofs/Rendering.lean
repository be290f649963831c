import LineCalc.Proofs.Meaning
import LineCalc.Proofs.Positions

/-!
# What a rendering writes

The text of an expression puts every operation in parentheses. It is therefore a way
of writing not the line that the expression comes from, but that line with every
operation made a group of its own: `Statement.grouped`.

* `Operand.groupedAs`: a grouped operand stands for the same expression, nests as deep
  as the expression has operations one inside the other, and is what the text of the
  expression writes;
* `spaced_rendered`: so the texts of some statements, with a blank between them, write
  the grouped statements one after the other.
-/

namespace LineCalc.Expr

/-! ## The text of an expression by its form -/

theorem openings_succ (count : Nat) : openings (count + 1) = openings count ++ "(" := by
  apply String.ext
  simp [openings, List.replicate_succ']

/-- What stands around the bottom of a spine can as well be put around its text. -/
theorem renderSpine_eq (e : Expr) (opened : Nat) (after : String) :
    e.renderSpine opened after = openings opened ++ e.render ++ after := by
  have hzero : openings 0 = "" := rfl
  induction e generalizing opened after with
  | number text position => simp only [render, renderSpine, hzero, String.empty_append,
      String.append_empty]
  | identifier name position => simp only [render, renderSpine, hzero, String.empty_append,
      String.append_empty]
  | assign target value position ihTarget ihValue =>
    simp only [render, renderSpine, hzero, String.empty_append, String.append_empty,
      String.append_assoc]
  | arith op left right position ihLeft ihRight =>
    -- one more parenthesis is open while the left operand is written
    rw [render, renderSpine, renderSpine, ihLeft, ihLeft, openings_succ, openings_succ, hzero]
    simp only [String.empty_append, String.append_empty, String.append_assoc]

theorem render_arith (op : Operator) (left right : Expr) (position : Nat) :
    (arith op left right position).render =
      "(" ++ left.render ++ " " ++ op.symbol ++ " " ++ right.render ++ ")" := by
  have hone : openings 1 = "(" := rfl
  rw [render, renderSpine, renderSpine_eq, hone, String.append_empty]
  simp only [render, String.append_assoc]

theorem render_assign (target value : Expr) (position : Nat) :
    (assign target value position).render = target.render ++ " = " ++ value.render := by
  have hzero : openings 0 = "" := rfl
  rw [render, renderSpine, hzero, String.empty_append, String.append_empty]
  rfl

theorem render_unplaced (e : Expr) : e.unplaced.render = e.render :=
  e.renderSpine_mapPosition _ 0 ""

/-- How many operations are one inside the other at most. -/
def height : Expr → Nat
  | number _ _ => 0
  | identifier _ _ => 0
  | arith _ left right _ => max left.height right.height + 1
  | assign target value _ => max target.height value.height

theorem height_unplaced (e : Expr) : e.unplaced.height = e.height := by
  unfold unplaced
  induction e with
  | number text position => rfl
  | identifier name position => rfl
  | arith op left right position ihLeft ihRight =>
    rw [mapPosition, height, ihLeft, ihRight, height]
  | assign target value position ihTarget ihValue =>
    rw [mapPosition, height, ihTarget, ihValue, height]

end LineCalc.Expr

namespace LineCalc.Surface

/-! ## What a surface line stands for -/

def Atom.expr : Atom → Expr
  | .number text => .number text 0
  | .name text => .identifier text 0

mutual

/-- An operand as an expression without places. -/
def Operand.expr : Operand → Expr
  | .atom a => a.expr
  | .group first links => links.expr first.expr

def Links.expr : Links → Expr → Expr
  | .nil, left => left
  | .cons op right later, left => later.expr (.arith op left right.expr 0)

end

def Chain.expr (c : Chain) : Expr := c.links.expr c.first.expr

def Statement.expr : Statement → Expr
  | .chain c => c.expr
  | .assign target value => .assign target.expr value.expr 0

/-! ## Every operation a group -/

mutual

/-- The operand with every operation in parentheses of its own, and no others. -/
def Operand.grouped : Operand → Operand
  | .atom a => .atom a
  | .group first links => links.grouped first.grouped

/-- The links worked off from the left, each closing a group with what stands before
it. -/
def Links.grouped : Links → Operand → Operand
  | .nil, left => left
  | .cons op right later, left => later.grouped (.group left (.cons op right.grouped .nil))

end

def Chain.grouped (c : Chain) : Chain := ⟨c.links.grouped c.first.grouped, .nil⟩

def Statement.grouped : Statement → Statement
  | .chain c => .chain c.grouped
  | .assign target value => .assign target value.grouped

/-! ## Words one after the other -/

/-- Spaced words may be followed by others. A gap is needed in between only if an atom
comes next. -/
theorem Spaced.append {ws us : List Word} {text later gap : List Char} (h : Spaced ws text)
    (hne : ws ≠ []) (hgap : IsGap gap)
    (hapart : gap = [] → ∀ next ∈ us.head?, next.kind.isAtom = false)
    (hlater : Spaced us later) : Spaced (ws ++ us) (text ++ (gap ++ later)) := by
  induction h with
  | nil => exact absurd rfl hne
  | @cons w gap' words text' hgap' hapart' hwords ih =>
    cases words with
    | nil =>
      -- the word is the last one, and the gap after it grows
      cases hwords
      have hboth : IsGap (gap' ++ gap) := List.forall_mem_append.mpr ⟨hgap', hgap⟩
      have hsplit : w.text.toList ++ (gap' ++ []) ++ (gap ++ later) =
          w.text.toList ++ ((gap' ++ gap) ++ later) := by simp
      rw [hsplit]
      refine .cons w hboth ?_ hlater
      rintro - ⟨next, hnext, hatom⟩ hnil
      have := hapart (List.append_eq_nil_iff.mp hnil).2 next hnext
      rw [hatom] at this
      cases this
    | cons next words =>
      have hsplit : w.text.toList ++ (gap' ++ text') ++ (gap ++ later) =
          w.text.toList ++ (gap' ++ (text' ++ (gap ++ later))) := by simp
      rw [hsplit]
      exact .cons w hgap' hapart' (ih (List.cons_ne_nil next words))

theorem isGap_nil : IsGap [] := by
  intro c hc
  cases hc

theorem isGap_blank : IsGap [' '] := by
  intro c hc
  rw [List.mem_singleton.mp hc]
  rfl

theorem Spaced.single (w : Word) : Spaced [w] w.text.toList := by
  have h := Spaced.cons w isGap_nil (fun _ ⟨next, hnext, _⟩ => by cases hnext) .nil
  rw [List.append_nil, List.append_nil] at h
  exact h

/-- Texts with a blank between them write the words of all of them. -/
theorem Spaced.intercalate {α : Type} {words : α → List Word} {text : α → String} {xs : List α}
    (hne : ∀ x ∈ xs, words x ≠ []) (h : ∀ x ∈ xs, Spaced (words x) (text x).toList) :
    Spaced (xs.flatMap words) (" ".intercalate (xs.map text)).toList := by
  rw [String.toList_intercalate]
  induction xs with
  | nil => exact .nil
  | cons x later ih =>
    rw [List.forall_mem_cons] at hne h
    have hlater := ih hne.2 h.2
    cases later with
    | nil => simpa using h.1
    | cons next more =>
      have hall := h.1.append hne.1 isGap_blank (by simp) hlater
      simpa using hall

/-- A word that is no atom, with a gap or none before other words. -/
theorem Spaced.mark {w : Word} {gap : List Char} {words : List Word} {text : List Char}
    (hw : w.kind.isAtom = false) (hgap : IsGap gap) (h : Spaced words text) :
    Spaced (w :: words) (w.text.toList ++ (gap ++ text)) := by
  refine .cons w hgap ?_ h
  intro hatom
  rw [hw] at hatom
  cases hatom

theorem isAtom_operatorWord (op : Operator) : (operatorWord op).kind.isAtom = false := by
  cases op <;> rfl

theorem text_operatorWord (op : Operator) : (operatorWord op).text = op.symbol := by
  cases op <;> rfl

/-! ## Grouped operands -/

theorem Operand.words_ne_nil (o : Operand) : o.words ≠ [] := by
  cases o <;> simp [Operand.words]

/-- The operand is the expression with every operation in parentheses, and the text of
the expression writes it. -/
structure GroupedAs (o : Operand) (e : Expr) : Prop where
  spelled : o.Spelled
  expr_eq : o.expr = e
  depth_eq : o.depth = e.height
  written : Spaced o.words e.render.toList

theorem groupedAs_atom {a : Atom} (h : a.Spelled) : GroupedAs (.atom a) a.expr where
  spelled := h
  expr_eq := rfl
  depth_eq := by cases a <;> rfl
  written := by
    have hrender : a.expr.render = a.word.text := by
      cases a <;> simp [Atom.expr, Atom.word, Expr.render, Expr.renderSpine, Expr.openings]
    rw [hrender]
    exact .single a.word

theorem GroupedAs.group {left right : Operand} {e e' : Expr} (hleft : GroupedAs left e)
    (hright : GroupedAs right e') (op : Operator) :
    GroupedAs (.group left (.cons op right .nil)) (.arith op e e' 0) where
  spelled := ⟨hleft.spelled, hright.spelled, trivial⟩
  expr_eq := by
    simp only [Operand.expr, Links.expr, hleft.expr_eq, hright.expr_eq]
  depth_eq := by
    simp only [Operand.depth, Links.depth, Expr.height, hleft.depth_eq, hright.depth_eq]
    omega
  written := by
    have hclosing : Spaced (right.words ++ [⟨.rightParen, ")"⟩]) (e'.render.toList ++ [')']) :=
      hright.written.append right.words_ne_nil isGap_nil (by simp [Token.Kind.isAtom])
        (.single ⟨.rightParen, ")"⟩)
    have hsign := Spaced.mark (isAtom_operatorWord op) isGap_blank hclosing
    have hbody := hleft.written.append left.words_ne_nil isGap_blank (by simp) hsign
    have hopening := Spaced.mark (w := ⟨.leftParen, "("⟩) rfl isGap_nil hbody
    rw [text_operatorWord] at hopening
    have htext : (Expr.arith op e e' 0).render.toList =
        "(".toList ++ ([] ++ (e.render.toList ++
          ([' '] ++ (op.symbol.toList ++ ([' '] ++ (e'.render.toList ++ [')'])))))) := by
      rw [Expr.render_arith]
      simp only [String.toList_append, List.append_assoc, List.nil_append]
      rfl
    rw [htext, Operand.words, Links.words, Links.words, List.append_nil]
    exact hopening

mutual

theorem Operand.groupedAs : ∀ o : Operand, o.Spelled → GroupedAs o.grouped o.expr
  | .atom _, h => groupedAs_atom h
  | .group first links, h => links.groupedAs h.2 (first.groupedAs h.1)

/-- The links are grouped with a left operand that is grouped already. -/
theorem Links.groupedAs : ∀ (l : Links) {left : Operand} {e : Expr}, l.Spelled →
    GroupedAs left e → GroupedAs (l.grouped left) (l.expr e)
  | .nil, _, _, _, hleft => hleft
  | .cons op right later, _, _, h, hleft =>
    later.groupedAs h.2 (hleft.group (right.groupedAs h.1) op)

end

theorem Chain.groupedAs {c : Chain} (h : c.Spelled) : GroupedAs c.grouped.first c.expr :=
  c.links.groupedAs h.2 (c.first.groupedAs h.1)

/-! ## Grouped statements -/

section
variable {s : Statement}

theorem Statement.spelled_grouped (h : s.Spelled) : s.grouped.Spelled := by
  cases s with
  | chain c => exact ⟨(Chain.groupedAs h).spelled, trivial⟩
  | assign target value => exact ⟨h.1, (Chain.groupedAs h.2).spelled, trivial⟩

theorem Statement.expr_grouped (h : s.Spelled) : s.grouped.expr = s.expr := by
  cases s with
  | chain c => exact (Chain.groupedAs h).expr_eq
  | assign target value =>
    have hvalue : value.grouped.expr = value.expr := (Chain.groupedAs h.2).expr_eq
    rw [Statement.grouped, Statement.expr, hvalue, Statement.expr]

theorem Statement.depth_grouped (h : s.Spelled) : s.grouped.depth = s.expr.height := by
  have hchain {c : Chain} (hc : c.Spelled) : c.grouped.depth = c.expr.height := by
    rw [Chain.depth, (Chain.groupedAs hc).depth_eq]
    exact Nat.max_zero _
  cases s with
  | chain c => exact hchain h
  | assign target value =>
    have htarget : target.expr.height = 0 := by cases target <;> rfl
    rw [Statement.grouped, Statement.depth, hchain h.2, Statement.expr, Expr.height, htarget,
      Nat.zero_max]

theorem Statement.words_grouped_ne_nil (s : Statement) : s.grouped.words ≠ [] := by
  cases s with
  | chain c => simp [Statement.grouped, Statement.words, Chain.words, Operand.words_ne_nil]
  | assign target value => simp [Statement.grouped, Statement.words]

theorem Statement.spaced_grouped (h : s.Spelled) :
    Spaced s.grouped.words s.expr.render.toList := by
  have hchain {c : Chain} (hc : c.Spelled) : Spaced c.grouped.words c.expr.render.toList := by
    rw [Chain.words, show c.grouped.links.words = [] from rfl, List.append_nil]
    exact (Chain.groupedAs hc).written
  cases s with
  | chain c => exact hchain h
  | assign target value =>
    have hsign := Spaced.mark (w := ⟨.assign, "="⟩) rfl isGap_blank (hchain h.2)
    have hall := (groupedAs_atom h.1).written.append (Operand.words_ne_nil _) isGap_blank
      (by simp) hsign
    rw [Statement.expr, Expr.render_assign]
    simp only [String.toList_append, List.append_assoc]
    exact hall

end

/-- The texts of statements, with a blank between them, write the grouped statements. -/
theorem spaced_rendered (ss : List Statement) (h : ∀ s ∈ ss, s.Spelled) :
    Spaced ((ss.map Statement.grouped).flatMap Statement.words)
      (" ".intercalate (ss.map fun s => s.expr.render)).toList := by
  rw [List.flatMap_map]
  refine .intercalate (fun s _ => s.words_grouped_ne_nil) ?_
  intro s hs
  exact Statement.spaced_grouped (h s hs)

end LineCalc.Surface
