import JavaFold.Proofs.Pass.FixedPoint

/-!
# Passes keep programs that can be written

Putting a literal in the place of an operand and splicing the statements of a block into the block around
it break none of the rules of `Legal.lean`: nothing that is written to gives way, and neither a declaration
nor an `if` comes into the place of a body. So what passes make of a program that was read from a source
text is one that can be written again (`legal_applyAll_iterate`).
-/

namespace JavaFold

open Constants (Scope Flow)

/-! ## Propagating constants -/

namespace Propagated

variable {e : Expr}

theorem legal_settled (h : e.Legal) (span : Span) (value : Option Literal) (operands : List Expr) :
    (settled span value operands e).Legal := by
  unfold settled
  split
  · split
    · trivial
    · exact h
  · exact h

end Propagated

open Propagated (legal_settled)

namespace Expr

variable (fields : Scope) (scopes : List Scope)

mutual

theorem legal_propagate : ∀ {e : Expr}, e.Legal → ∀ flow : Flow, (e.propagate fields scopes flow).expr.Legal
  | literal _ _, _, _ => trivial
  | name _ _, h, _ => by
    rw [propagate]
    split
    · trivial
    · exact h
  | binary s op l r, h, _ => by
    have legal : ∀ {l' r' : Expr}, l'.Legal → r'.Legal → (binary s op l' r').Legal := And.intro
    rw [propagate]
    exact legal_settled (legal (legal_propagate h.1 _) (legal_propagate h.2 _)) _ _ _
  | unary _ (.step _) _, h, _ => by
    rw [propagate, Constants.step_expr]
    exact h
  | unary s .neg e, h, _ => legal_settled (e := unary s .neg _) (legal_propagate (e := e) h _) _ _ _
  | unary s .not e, h, _ => legal_settled (e := unary s .not _) (legal_propagate (e := e) h _) _ _ _
  | unary s .bitNot e, h, _ => legal_settled (e := unary s .bitNot _) (legal_propagate (e := e) h _) _ _ _
  | postStep _ _ _, h, _ => by
    rw [propagate, Constants.step_expr]
    exact h
  | assign _ _ _ _, h, _ => by
    obtain ⟨hop, ht, hname, hv⟩ := h
    rw [propagate]
    split <;> exact ⟨hop, ht, hname, legal_propagate hv _⟩
  | call _ _ _, h, _ => ⟨h.1, legal_propagateAll h.2 _⟩

theorem legal_propagateAll : ∀ {es : List Expr}, LegalAll es → ∀ flow : Flow,
    LegalAll (propagateAll fields scopes es flow).1
  | [], _, _ => trivial
  | _ :: _, h, _ => ⟨legal_propagate h.1 _, legal_propagateAll h.2 _⟩

end

theorem legal_propagateOpt {e : Option Expr} (h : LegalOpt e) (flow : Flow) :
    LegalOpt (propagateOpt fields scopes e flow).1 := by
  cases e with
  | none => exact nofun
  | some e =>
    rintro _ ⟨⟩
    exact legal_propagate fields scopes (h e rfl) flow

end Expr

namespace Stmt

variable (fields : Scope)

/-- Propagation keeps the form of a statement. -/
theorem isDeclaration_propagate (scopes : List Scope) (s : Stmt) (flow : Flow) :
    (s.propagate fields scopes flow).1.isDeclaration = s.isDeclaration := by
  cases s with
  | localVar span ty name init => cases init <;> rfl
  | ifElse span c t e => cases e <;> rfl
  | forLoop span init c u b => cases init <;> rfl
  | ret span e => cases e <;> rfl
  | _ => rfl

theorem isSimple_propagate (scopes : List Scope) (s : Stmt) (flow : Flow) :
    (s.propagate fields scopes flow).1.isSimple = s.isSimple := by
  cases s with
  | localVar span ty name init => cases init <;> rfl
  | ifElse span c t e => cases e <;> rfl
  | forLoop span init c u b => cases init <;> rfl
  | ret span e => cases e <;> rfl
  | _ => rfl

theorem takesElse_propagate : ∀ (scopes : List Scope) (s : Stmt) (flow : Flow),
    (s.propagate fields scopes flow).1.takesElse = s.takesElse
  | scopes, ifElse _ _ _ (some e), _ => takesElse_propagate scopes e _
  | scopes, whileLoop _ _ b, _ => takesElse_propagate scopes b _
  | scopes, forLoop _ none _ _ b, _ => takesElse_propagate ([] :: scopes) b _
  | scopes, forLoop _ (some i) _ _ b, _ => takesElse_propagate (i.declared ([] :: scopes)) b _
  | _, localVar _ _ _ none, _ | _, localVar _ _ _ (some _), _ | _, ret _ none, _ | _, ret _ (some _), _
  | _, ifElse _ _ _ none, _ | _, block _ _, _ | _, expr _ _, _ | _, brk _, _ | _, cont _, _
  | _, empty _, _ => rfl

open JavaFold.Expr (legal_propagateOpt)

mutual

theorem legal_propagate : ∀ (scopes : List Scope) {s : Stmt}, s.Legal → ∀ flow : Flow,
    (s.propagate fields scopes flow).1.Legal
  | scopes, block _ _, h, _ => legal_propagateAll ([] :: scopes) h _
  | scopes, expr _ _, h, _ => Expr.legal_propagate fields scopes h _
  | _, localVar _ _ _ none, h, _ => h
  | scopes, localVar _ _ _ (some _), h, _ => by
    obtain ⟨hty, hvoid, hname, hinit⟩ := h
    exact ⟨hty, hvoid, hname, legal_propagateOpt fields scopes hinit _⟩
  | scopes, ifElse _ _ _ none, h, _ =>
    ⟨Expr.legal_propagate fields scopes h.1 _, legal_propagate scopes h.2.1 _,
      (isDeclaration_propagate ..).trans h.2.2⟩
  | scopes, ifElse _ _ _ (some _), h, _ => by
    obtain ⟨hc, ht, htd, htelse, he, hed⟩ := h
    exact ⟨Expr.legal_propagate fields scopes hc _, legal_propagate scopes ht _,
      (isDeclaration_propagate ..).trans htd, (takesElse_propagate ..).trans htelse,
      legal_propagate scopes he _, (isDeclaration_propagate ..).trans hed⟩
  | scopes, whileLoop _ _ _, h, _ =>
    ⟨Expr.legal_propagate fields scopes h.1 _, legal_propagate scopes h.2.1 _,
      (isDeclaration_propagate ..).trans h.2.2⟩
  | scopes, forLoop _ none _ _ _, h, _ => by
    obtain ⟨hc, hu, hb, hbd⟩ := h
    exact ⟨legal_propagateOpt fields _ hc _, legal_propagateOpt fields _ hu _, legal_propagate _ hb _,
      (isDeclaration_propagate ..).trans hbd⟩
  | scopes, forLoop _ (some i) _ _ _, h, _ => by
    obtain ⟨hi, hsimple, hc, hu, hb, hbd⟩ := h
    exact ⟨legal_propagate _ hi _, (isSimple_propagate ..).trans hsimple, legal_propagateOpt fields _ hc _,
      legal_propagateOpt fields _ hu _, legal_propagate _ hb _, (isDeclaration_propagate ..).trans hbd⟩
  | _, ret _ none, h, _ => h
  | scopes, ret _ (some _), h, _ => legal_propagateOpt fields scopes h _
  | _, brk _, _, _ | _, cont _, _, _ | _, empty _, _, _ => trivial

theorem legal_propagateAll : ∀ (scopes : List Scope) {ss : List Stmt}, LegalAll ss → ∀ flow : Flow,
    LegalAll (propagateAll fields scopes ss flow).1
  | _, [], _, _ => trivial
  | scopes, s :: _, h, _ => ⟨legal_propagate scopes h.1 _, legal_propagateAll (s.declared scopes) h.2 _⟩

end

end Stmt

/-- Propagating constants keeps a member that can be written. -/
theorem Member.legal_propagate {m : Member} (h : m.Legal) (fields : Scope) : (m.propagate fields).Legal := by
  cases m with
  | field span d => exact { h with init := Expr.legal_propagateOpt fields [] (FieldDecl.Legal.init h) _ }
  | method span d => exact { h with body := Stmt.legal_propagateAll fields _ (MethodDecl.Legal.body h) _ }

theorem CompilationUnit.legal_propagate {unit : CompilationUnit} (h : unit.Legal) : unit.propagate.Legal := by
  refine List.forall_mem_map.mpr fun c hc => ?_
  exact { h c hc with
    members := List.forall_mem_map.mpr fun m hm => Member.legal_propagate ((h c hc).members m hm) _ }

/-! ## Folding blocks -/

namespace Stmt

theorem legalAll_append {xs ys : List Stmt} (hx : LegalAll xs) (hy : LegalAll ys) : LegalAll (xs ++ ys) := by
  induction xs with
  | nil => exact hy
  | cons x xs ih => exact ⟨hx.1, ih hx.2⟩

theorem legalAll_spliced {s : Stmt} (h : s.Legal) : LegalAll s.spliced := by
  cases s with
  | block span ss => exact h
  | _ => exact ⟨h, trivial⟩

theorem legalAll_flatMap_spliced {ss : List Stmt} (h : LegalAll ss) : LegalAll (ss.flatMap spliced) := by
  induction ss with
  | nil => trivial
  | cons s ss ih => exact legalAll_append (legalAll_spliced h.1) (ih h.2)

theorem isDeclaration_flatten (s : Stmt) : s.flatten.isDeclaration = s.isDeclaration := by
  cases s with
  | ifElse span c t e => cases e <;> rfl
  | forLoop span init c u b => cases init <;> rfl
  | _ => rfl

theorem isSimple_flatten (s : Stmt) : s.flatten.isSimple = s.isSimple := by
  cases s with
  | ifElse span c t e => cases e <;> rfl
  | forLoop span init c u b => cases init <;> rfl
  | _ => rfl

theorem takesElse_flatten : ∀ s : Stmt, s.flatten.takesElse = s.takesElse
  | ifElse _ _ _ (some e) => takesElse_flatten e
  | whileLoop _ _ b | forLoop _ none _ _ b | forLoop _ (some _) _ _ b => takesElse_flatten b
  | ifElse _ _ _ none | block _ _ | expr _ _ | localVar _ _ _ _ | ret _ _ | brk _ | cont _ | empty _ => rfl

mutual

theorem legal_flatten : ∀ {s : Stmt}, s.Legal → s.flatten.Legal
  | block _ _, h => legalAll_flatMap_spliced (legal_flattenAll h)
  | ifElse _ _ t none, h => ⟨h.1, legal_flatten h.2.1, t.isDeclaration_flatten.trans h.2.2⟩
  | ifElse _ _ t (some e), h => by
    obtain ⟨hc, ht, htd, htelse, he, hed⟩ := h
    exact ⟨hc, legal_flatten ht, t.isDeclaration_flatten.trans htd, t.takesElse_flatten.trans htelse,
      legal_flatten he, e.isDeclaration_flatten.trans hed⟩
  | whileLoop _ _ b, h => ⟨h.1, legal_flatten h.2.1, b.isDeclaration_flatten.trans h.2.2⟩
  | forLoop _ none _ _ b, h => by
    obtain ⟨hc, hu, hb, hbd⟩ := h
    exact ⟨hc, hu, legal_flatten hb, b.isDeclaration_flatten.trans hbd⟩
  | forLoop _ (some i) _ _ b, h => by
    obtain ⟨hi, hsimple, hc, hu, hb, hbd⟩ := h
    exact ⟨legal_flatten hi, i.isSimple_flatten.trans hsimple, hc, hu, legal_flatten hb,
      b.isDeclaration_flatten.trans hbd⟩
  | expr _ _, h | localVar _ _ _ _, h | ret _ _, h | brk _, h | cont _, h | empty _, h => h

theorem legal_flattenAll : ∀ {ss : List Stmt}, LegalAll ss → LegalAll (flattenAll ss)
  | [], _ => trivial
  | _ :: _, h => ⟨legal_flatten h.1, legal_flattenAll h.2⟩

end

end Stmt

/-- Folding blocks keeps a member that can be written. -/
theorem Member.legal_flatten {m : Member} (h : m.Legal) : m.flatten.Legal := by
  cases m with
  | field span d => exact h
  | method span d =>
    exact { h with
      body := Stmt.legalAll_flatMap_spliced (Stmt.legal_flattenAll (MethodDecl.Legal.body h)) }

theorem CompilationUnit.legal_flatten {unit : CompilationUnit} (h : unit.Legal) : unit.flatten.Legal := by
  refine List.forall_mem_map.mpr fun c hc => ?_
  exact { h c hc with
    members := List.forall_mem_map.mpr fun m hm => Member.legal_flatten ((h c hc).members m hm) }

/-! ## Passes -/

namespace PassKind

variable {unit : CompilationUnit}

theorem legal_apply (kind : PassKind) (h : unit.Legal) : (kind.apply unit).Legal := by
  cases kind with
  | blockFolding => exact unit.legal_flatten h
  | constantPropagation =>
    rw [apply, CompilationUnit.analysed_eq h]
    exact unit.legal_propagate h

theorem legal_applyAll : ∀ (kinds : List PassKind) {unit : CompilationUnit}, unit.Legal →
    (applyAll kinds unit).Legal
  | [], _, h => h
  | kind :: kinds, _, h => legal_applyAll kinds (kind.legal_apply h)

/-- Sweeps keep programs that can be written. -/
theorem legal_applyAll_iterate (kinds : List PassKind) (h : unit.Legal) : ∀ m : Nat,
    ((applyAll kinds)^[m] unit).Legal
  | 0 => h
  | m + 1 => by
    rw [Function.iterate_succ_apply']
    exact legal_applyAll kinds (legal_applyAll_iterate kinds h m)

end PassKind

/-! ## Reading from a tree -/

namespace Expr

theorem isName_unplaced (e : Expr) : e.unplaced.isName = e.isName := by
  cases e <;> rfl

mutual

theorem legal_unplaced : ∀ {e : Expr}, e.Legal → e.unplaced.Legal
  | literal _ _, _ => trivial
  | name _ _, h => h
  | binary _ _ _ _, h => ⟨legal_unplaced h.1, legal_unplaced h.2⟩
  | unary _ (.step _) e, h => ⟨legal_unplaced h.1, e.isName_unplaced.trans h.2⟩
  | unary _ .neg e, h | unary _ .not e, h | unary _ .bitNot e, h => legal_unplaced (e := e) h
  | postStep _ _ e, h => ⟨legal_unplaced h.1, e.isName_unplaced.trans h.2⟩
  | assign _ _ t _, h => by
    obtain ⟨hop, ht, hname, hv⟩ := h
    exact ⟨hop, legal_unplaced ht, t.isName_unplaced.trans hname, legal_unplaced hv⟩
  | call _ _ _, h => ⟨h.1, legal_unplacedAll h.2⟩

theorem legal_unplacedAll : ∀ {es : List Expr}, LegalAll es → LegalAll (unplacedAll es)
  | [], _ => trivial
  | _ :: _, h => ⟨legal_unplaced h.1, legal_unplacedAll h.2⟩

end

theorem legal_map_unplaced {e : Option Expr} (h : LegalOpt e) : LegalOpt (e.map unplaced) := by
  intro x hx
  obtain ⟨e, he, rfl⟩ := Option.map_eq_some_iff.mp hx
  exact legal_unplaced (h e he)

end Expr

namespace Stmt

theorem isDeclaration_unplaced (s : Stmt) : s.unplaced.isDeclaration = s.isDeclaration := by
  cases s with
  | ifElse span c t e => cases e <;> rfl
  | forLoop span init c u b => cases init <;> rfl
  | _ => rfl

theorem isSimple_unplaced (s : Stmt) : s.unplaced.isSimple = s.isSimple := by
  cases s with
  | ifElse span c t e => cases e <;> rfl
  | forLoop span init c u b => cases init <;> rfl
  | _ => rfl

theorem takesElse_unplaced : ∀ s : Stmt, s.unplaced.takesElse = s.takesElse
  | ifElse _ _ _ (some e) => takesElse_unplaced e
  | whileLoop _ _ b | forLoop _ none _ _ b | forLoop _ (some _) _ _ b => takesElse_unplaced b
  | ifElse _ _ _ none | block _ _ | expr _ _ | localVar _ _ _ _ | ret _ _ | brk _ | cont _ | empty _ => rfl

open JavaFold.Expr (legal_map_unplaced)

mutual

theorem legal_unplaced : ∀ {s : Stmt}, s.Legal → s.unplaced.Legal
  | block _ _, h => legal_unplacedAll h
  | expr _ _, h => Expr.legal_unplaced h
  | localVar _ _ _ _, h => by
    obtain ⟨hty, hvoid, hname, hinit⟩ := h
    exact ⟨hty, hvoid, hname, legal_map_unplaced hinit⟩
  | ifElse _ _ t none, h =>
    ⟨Expr.legal_unplaced h.1, legal_unplaced h.2.1, t.isDeclaration_unplaced.trans h.2.2⟩
  | ifElse _ _ t (some e), h => by
    obtain ⟨hc, ht, htd, htelse, he, hed⟩ := h
    exact ⟨Expr.legal_unplaced hc, legal_unplaced ht, t.isDeclaration_unplaced.trans htd,
      t.takesElse_unplaced.trans htelse, legal_unplaced he, e.isDeclaration_unplaced.trans hed⟩
  | whileLoop _ _ b, h =>
    ⟨Expr.legal_unplaced h.1, legal_unplaced h.2.1, b.isDeclaration_unplaced.trans h.2.2⟩
  | forLoop _ none _ _ b, h => by
    obtain ⟨hc, hu, hb, hbd⟩ := h
    exact ⟨legal_map_unplaced hc, legal_map_unplaced hu, legal_unplaced hb,
      b.isDeclaration_unplaced.trans hbd⟩
  | forLoop _ (some i) _ _ b, h => by
    obtain ⟨hi, hsimple, hc, hu, hb, hbd⟩ := h
    exact ⟨legal_unplaced hi, i.isSimple_unplaced.trans hsimple, legal_map_unplaced hc,
      legal_map_unplaced hu, legal_unplaced hb, b.isDeclaration_unplaced.trans hbd⟩
  | ret _ _, h => legal_map_unplaced h
  | brk _, _ | cont _, _ | empty _, _ => trivial

theorem legal_unplacedAll : ∀ {ss : List Stmt}, LegalAll ss → LegalAll (unplacedAll ss)
  | [], _ => trivial
  | _ :: _, h => ⟨legal_unplaced h.1, legal_unplacedAll h.2⟩

end

end Stmt

theorem Member.legal_unplaced {m : Member} (h : m.Legal) : m.unplaced.Legal := by
  cases m with
  | field span d => exact { h with init := Expr.legal_map_unplaced (FieldDecl.Legal.init h) }
  | method span d => exact { h with body := Stmt.legal_unplacedAll (MethodDecl.Legal.body h) }

theorem CompilationUnit.legal_unplaced {unit : CompilationUnit} (h : unit.Legal) : unit.unplaced.Legal := by
  refine List.forall_mem_map.mpr fun c hc => ?_
  exact { h c hc with
    members := List.forall_mem_map.mpr fun m hm => Member.legal_unplaced ((h c hc).members m hm) }

/-- A program that was folded can be written. -/
theorem FoldOptions.legal_of_run_foldTree {options : FoldOptions} {unit g : CompilationUnit} {report : Report}
    {t : Tree} (h : unit.Legal) (hrun : options.foldTree.run (.ofUnit unit) = .ok report t)
    (hread : t.unit? = .ok g) : g.Legal := by
  obtain ⟨m, rfl⟩ := unit_of_run_foldTree hrun hread
  exact CompilationUnit.legal_unplaced (PassKind.legal_applyAll_iterate options.passes h m)

end JavaFold
