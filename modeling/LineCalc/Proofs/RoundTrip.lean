import Mathlib
import LineCalc.Proofs.Cutting
import LineCalc.Proofs.NestingLimit
import LineCalc.Proofs.Rendering

/-!
# Reading a rendering

The texts of the statements of a program, with a blank between them, make a line again.
Reading it gives back the program but for the places of its tokens, as long as the
parentheses that a rendering adds are not too many; if they are, the reading fails for
this reason (`Program.ofSource_rendered`).

A derivation stands for the same expressions as the surface line that it is read as
(`unplaced_expr_statement`), and its tokens being scanned ones, that line is spelled
properly (`spelled_surface_statement`). So a rendering writes the grouped line, and its
tokens have a derivation as deep as the expressions are high.
-/

namespace LineCalc.Grammar

/-! ## A derivation and its surface line -/

theorem unplaced_expr_atom (a : Atom) : a.expr.unplaced = a.surface.expr := by
  unfold Atom.expr Atom.surface
  split <;> rfl

mutual

theorem unplaced_expr_operand : ∀ o : Operand, o.expr.unplaced = o.surface.expr
  | .atom a => unplaced_expr_atom a
  | .group _ first links _ => by
    rw [Operand.expr, unplaced_expr_links links, unplaced_expr_operand first, Operand.surface,
      Surface.Operand.expr]

theorem unplaced_expr_links : ∀ (l : Links) (left : Expr),
    (l.expr left).unplaced = l.surface.expr left.unplaced
  | .nil, _ => rfl
  | .cons sign right later, left => by
    rw [Links.expr, unplaced_expr_links later, Links.surface, Surface.Links.expr,
      ← unplaced_expr_operand right]
    rfl

end

/-- Without the places, a derivation and its surface line stand for the same. -/
theorem unplaced_expr_statement (s : Statement) : s.expr.unplaced = s.surface.expr := by
  have hformula (f : Formula) : f.expr.unplaced = f.surface.expr := by
    rw [Formula.expr, unplaced_expr_links, unplaced_expr_operand]
    rfl
  cases s with
  | formula f => exact hformula f
  | assignment target sign value =>
    rw [Statement.surface, Surface.Statement.expr, ← unplaced_expr_atom, ← hformula]
    rfl

theorem spelled_surface_atom {a : Atom} (h : Token.Spelled a.token.word) : a.surface.Spelled := by
  obtain ⟨⟨kind, text, position⟩, hatom⟩ := a
  cases h with
  | @number _ first more htext hfirst hmore =>
    refine ⟨by simp [htext], ?_⟩
    rw [htext]
    exact List.forall_mem_cons.mpr ⟨hfirst, hmore⟩
  | @identifier _ first more htext hfirst hmore => exact ⟨first, more, htext, hfirst, hmore⟩
  | mark htext hfirst =>
    -- a mark is no atom
    unfold Token.mark? at hfirst
    split at hfirst <;> cases hfirst <;> cases hatom

mutual

theorem spelled_surface_operand : ∀ o : Operand, (∀ t ∈ o.tokens, Token.Spelled t.word) →
    o.surface.Spelled
  | .atom a, h => spelled_surface_atom (h a.token (by simp [Operand.tokens]))
  | .group p first links q, h => by
    simp only [Operand.tokens, List.mem_cons, List.mem_append] at h
    exact ⟨spelled_surface_operand first fun t ht => h t (by simp [ht]),
      spelled_surface_links links fun t ht => h t (by simp [ht])⟩

theorem spelled_surface_links : ∀ l : Links, (∀ t ∈ l.tokens, Token.Spelled t.word) →
    l.surface.Spelled
  | .nil, _ => trivial
  | .cons sign right later, h => by
    simp only [Links.tokens, List.mem_cons, List.mem_append] at h
    exact ⟨spelled_surface_operand right fun t ht => h t (by simp [ht]),
      spelled_surface_links later fun t ht => h t (by simp [ht])⟩

end

/-- A derivation of scanned tokens is read as a surface line with proper texts. -/
theorem spelled_surface_statement (s : Statement) (h : ∀ t ∈ s.tokens, Token.Spelled t.word) :
    s.surface.Spelled := by
  have hformula (f : Formula) (hf : ∀ t ∈ f.tokens, Token.Spelled t.word) :
      f.surface.Spelled := by
    simp only [Formula.tokens, List.mem_append] at hf
    exact ⟨spelled_surface_operand f.first fun t ht => hf t (.inl ht),
      spelled_surface_links f.links fun t ht => hf t (.inr ht)⟩
  cases s with
  | formula f => exact hformula f h
  | assignment target sign value =>
    simp only [Statement.tokens, List.mem_cons] at h
    exact ⟨spelled_surface_atom (h target.token (by simp)),
      hformula value fun t ht => h t (by simp [ht])⟩

theorem unplaced_program (d : Derivation) :
    d.program.unplaced = (d.statements.map Statement.surface).map Surface.Statement.expr := by
  simp only [Program.unplaced, Derivation.program, List.map_map]
  exact List.map_congr_left fun s _ => unplaced_expr_statement s

/-- A text that writes statements has a derivation that is read as them. -/
theorem exists_derivation_written {ss : List Surface.Statement} {text : String} (hne : ss ≠ [])
    (hspelled : ∀ s ∈ ss, s.Spelled)
    (h : Surface.Written (ss.flatMap Surface.Statement.words) text) :
    ∃ d : Derivation, Token.tokenize text = .ok d.tokens ∧
      d.statements.map Statement.surface = ss := by
  have hwords : ∀ w ∈ ss.flatMap Surface.Statement.words, Token.Spelled w := by
    intro w hw
    obtain ⟨s, hs, hw⟩ := List.mem_flatMap.mp hw
    exact Surface.Statement.spelled_words (hspelled s hs) w hw
  obtain ⟨tokens, hscan, hmap⟩ := Token.scan_written h hwords
  obtain ⟨gs, rfl, rfl⟩ := exists_statements ss hmap
  exact ⟨⟨gs, by simpa using hne⟩, Token.tokenize_eq_ok.mpr hscan, rfl⟩

end LineCalc.Grammar

namespace LineCalc.Program

open Grammar (Derivation)
open Session (observed)

/-- The texts of the statements, with a blank between them. -/
def rendered (program : Program) : String := " ".intercalate (program.map Expr.render)

theorem rendered_unplaced (program : Program) : program.unplaced.rendered = program.rendered := by
  rw [rendered, unplaced, List.map_map, rendered]
  exact congrArg _ (List.map_congr_left fun e _ => e.render_unplaced)

theorem map_height_unplaced (program : Program) :
    program.unplaced.map Expr.height = program.map Expr.height := by
  rw [unplaced, List.map_map]
  exact List.map_congr_left fun e _ => e.height_unplaced

/-- The tokens of a rendering have a derivation with the same expressions, whose
statements nest as deep as these are high. -/
theorem exists_derivation_rendered {source : String} {program : Program}
    (h : ofSource source = .ok program) :
    ∃ d : Derivation, Token.tokenize program.rendered = .ok d.tokens ∧
      d.program.unplaced = program.unplaced ∧
      d.statements.map Grammar.Statement.depth = program.map Expr.height := by
  obtain ⟨tokens, hscan, hparse⟩ := ofSource_eq_ok.mp h
  obtain ⟨d, -, rfl, rfl⟩ := exists_derivation hparse
  have hspelled : ∀ s ∈ d.statements.map Grammar.Statement.surface, s.Spelled := by
    intro s hs
    obtain ⟨g, hg, rfl⟩ := List.mem_map.mp hs
    refine Grammar.spelled_surface_statement g ?_
    intro t ht
    exact (Token.tokenize_eq_ok_iff_cut.mp hscan).spelled t (List.mem_flatMap.mpr ⟨g, hg, ht⟩)
  have hunplaced := Grammar.unplaced_program d
  have hne : d.statements.map Grammar.Statement.surface ≠ [] := by simpa using d.nonempty
  generalize d.statements.map Grammar.Statement.surface = ss at hspelled hunplaced hne
  -- the rendering writes the statements with every operation a group
  have hwritten : Surface.Written ((ss.map Surface.Statement.grouped).flatMap
      Surface.Statement.words) d.program.rendered := by
    rw [← rendered_unplaced, hunplaced, rendered, List.map_map]
    exact ⟨[], _, Surface.isGap_nil, Surface.spaced_rendered ss hspelled, rfl⟩
  have hgrouped : ∀ s ∈ ss.map Surface.Statement.grouped, s.Spelled := by
    intro g hg
    obtain ⟨s, hs, rfl⟩ := List.mem_map.mp hg
    exact Surface.Statement.spelled_grouped (hspelled s hs)
  obtain ⟨d', hscan', hsurface⟩ :=
    Grammar.exists_derivation_written (by simpa using hne) hgrouped hwritten
  refine ⟨d', hscan', ?_, ?_⟩
  · rw [Grammar.unplaced_program, hsurface, hunplaced, List.map_map]
    exact List.map_congr_left fun s hs => Surface.Statement.expr_grouped (hspelled s hs)
  · calc d'.statements.map Grammar.Statement.depth
      _ = (d'.statements.map Grammar.Statement.surface).map Surface.Statement.depth := by
          rw [List.map_map]
          exact List.map_congr_left fun g _ => g.depth_surface.symm
      _ = (ss.map Surface.Statement.expr).map Expr.height := by
          rw [hsurface, List.map_map, List.map_map]
          exact List.map_congr_left fun s hs => Surface.Statement.depth_grouped (hspelled s hs)
      _ = d.program.map Expr.height := by rw [← hunplaced, map_height_unplaced]

/-- **Reading a rendering.** A program is rendered, and the rendering is read. If no
statement has more operations one inside the other than groups may be open, the program
comes back but for its places, and the rendering does in any session what the source
does. If some statement has more, the rendering is refused for its nesting. -/
theorem ofSource_rendered {source : String} {program : Program}
    (h : ofSource source = .ok program) :
    ((∀ e ∈ program, e.height ≤ groupLimit) →
      ∃ again, ofSource program.rendered = .ok again ∧ again.unplaced = program.unplaced ∧
        ∀ s : Session, observed (s.run program.rendered) = observed (s.run source)) ∧
    ((∃ e ∈ program, groupLimit < e.height) →
      ∃ position, ofSource program.rendered = .error (.parse (.tooDeep position))) := by
  obtain ⟨d, hscan, hunplaced, hdepth⟩ := exists_derivation_rendered h
  constructor
  · intro hheight
    have hlimit : d.WithinLimit := by
      refine d.withinLimit_iff.mpr ?_
      intro g hg
      have hmem : g.depth ∈ program.map Expr.height := hdepth ▸ List.mem_map_of_mem hg
      obtain ⟨e, he, heq⟩ := List.mem_map.mp hmem
      rw [← heq]
      exact hheight e he
    have hagain : ofSource program.rendered = .ok d.program :=
      ofSource_eq_ok.mpr ⟨_, hscan, ofTokens_derivation d hlimit⟩
    refine ⟨d.program, hagain, hunplaced, ?_⟩
    intro s
    -- evaluation does not look at places
    rw [Session.observed_run hagain, Session.observed_run h, Session.evaluate,
      ← Eval.program_unplaced, hunplaced, Eval.program_unplaced, Session.evaluate]
  · rintro ⟨e, he, hheight⟩
    have hmem : e.height ∈ d.statements.map Grammar.Statement.depth :=
      hdepth ▸ List.mem_map_of_mem he
    obtain ⟨g, hg, heq⟩ := List.mem_map.mp hmem
    obtain ⟨position, hparse⟩ :
        ∃ position, ofTokens d.tokens (Text.byteSize program.rendered.toList) =
          .error (.tooDeep position) := ofTokens_eq_tooDeep d ⟨g, hg, heq ▸ hheight⟩
    refine ⟨position, ?_⟩
    rw [ofSource_of_tokens hscan, hparse]
    rfl

/-! ### A sum without parentheses

A source may be within the limit while its rendering is not: a flat chain has a
rendering that nests as deep as the chain is long. -/

/-- The links `+1`, so many of them. -/
def sumLinks : Nat → Surface.Links
  | 0 => .nil
  | n + 1 => .cons .add (.atom (.number "1")) (sumLinks n)

def sumText (n : Nat) : List Char := (List.replicate n ['+', '1']).flatten

/-- The source `1+1+…+1` with so many operators. -/
def flatSum (n : Nat) : String := .ofList ('1' :: sumText n)

theorem spelled_one : (Surface.Atom.number "1").Spelled := by
  simp [Surface.Atom.Spelled, Token.isNumeral]

theorem spelled_sumLinks (n : Nat) : (sumLinks n).Spelled := by
  induction n with
  | zero => trivial
  | succ n ih => exact ⟨spelled_one, ih⟩

theorem depth_sumLinks (n : Nat) : (sumLinks n).depth = 0 := by
  induction n with
  | zero => rfl
  | succ n ih => rw [sumLinks, Surface.Links.depth, ih, Surface.Operand.depth, Nat.max_self]

theorem height_sumLinks (n : Nat) (e : Expr) : ((sumLinks n).expr e).height = e.height + n := by
  induction n generalizing e with
  | zero => rfl
  | succ n ih =>
    have hone : (Surface.Operand.atom (.number "1")).expr.height = 0 := rfl
    rw [sumLinks, Surface.Links.expr, ih, Expr.height, hone, Nat.max_zero]
    omega

theorem spaced_sumLinks (n : Nat) :
    Surface.Spaced (⟨.number, "1"⟩ :: (sumLinks n).words) ('1' :: sumText n) := by
  induction n with
  | zero => exact .single ⟨.number, "1"⟩
  | succ n ih =>
    have htext : '1' :: sumText (n + 1) =
        "1".toList ++ ([] ++ ("+".toList ++ ([] ++ '1' :: sumText n))) := rfl
    have hwords : (sumLinks (n + 1)).words = ⟨.plus, "+"⟩ :: ⟨.number, "1"⟩ :: (sumLinks n).words :=
      rfl
    rw [htext, hwords]
    exact .cons ⟨.number, "1"⟩ Surface.isGap_nil (by simp [Token.Kind.isAtom])
      (.mark rfl Surface.isGap_nil ih)

/-- A flat sum is read however long it is, and is as high as it is long. -/
theorem ofSource_flatSum (n : Nat) : ∃ e, ofSource (flatSum n) = .ok [e] ∧ e.height = n := by
  let s : Surface.Statement := .chain ⟨.atom (.number "1"), sumLinks n⟩
  have hspelled : s.Spelled := ⟨spelled_one, spelled_sumLinks n⟩
  have hwritten : Surface.Written ([s].flatMap Surface.Statement.words) (flatSum n) := by
    rw [List.flatMap_singleton]
    exact ⟨[], _, Surface.isGap_nil, spaced_sumLinks n, String.toList_ofList⟩
  obtain ⟨d, hscan, hsurface⟩ :=
    Grammar.exists_derivation_written (List.cons_ne_nil s []) (by simpa using hspelled) hwritten
  obtain ⟨g, hd, hg⟩ := List.map_eq_singleton_iff.mp hsurface
  have hprogram : d.program = [g.expr] := by rw [Derivation.program, hd, List.map_singleton]
  have hlimit : d.WithinLimit := by
    refine d.withinLimit_iff.mpr ?_
    intro g' hg'
    rw [hd, List.mem_singleton] at hg'
    rw [hg', ← g.depth_surface, hg]
    show max 0 (sumLinks n).depth ≤ groupLimit
    rw [depth_sumLinks]
    exact Nat.zero_le _
  refine ⟨g.expr, ?_, ?_⟩
  · rw [← hprogram]
    exact ofSource_eq_ok.mpr ⟨_, hscan, ofTokens_derivation d hlimit⟩
  · rw [← Expr.height_unplaced, Grammar.unplaced_expr_statement, hg]
    exact (height_sumLinks n _).trans (Nat.zero_add n)

/-- A program that comes back, and a flat sum just too long to. -/
theorem ofSource_rendered_sums :
    (∃ again, ofSource "x = ((1 + 2) * 3) (x / 4)" = .ok again ∧
      again.unplaced = [.assign (.identifier "x" 0) (.arith .multiply
        (.arith .add (.number "1" 0) (.number "2" 0) 0) (.number "3" 0) 0) 0,
        .arith .divide (.identifier "x" 0) (.number "4" 0) 0] ∧
      ∀ s : Session, observed (s.run "x = ((1 + 2) * 3) (x / 4)") =
        observed (s.run "x=1+2*3 x/4")) ∧
    ∃ e, ofSource (flatSum 257) = .ok [e] ∧ e.height = 257 ∧
      ∃ position, ofSource (rendered [e]) = .error (.parse (.tooDeep position)) := by
  have hsource : ofSource "x=1+2*3 x/4" = .ok [.assign (.identifier "x" 0) (.arith .multiply
      (.arith .add (.number "1" 2) (.number "2" 4) 3) (.number "3" 6) 5) 1,
      .arith .divide (.identifier "x" 8) (.number "4" 10) 9] := by cbv
  obtain ⟨e, hsum, hheight⟩ := ofSource_flatSum 257
  refine ⟨(ofSource_rendered hsource).1 (by decide), e, hsum, hheight, ?_⟩
  exact (ofSource_rendered hsum).2 ⟨e, List.mem_singleton_self e, by rw [hheight]; decide⟩

end LineCalc.Program
