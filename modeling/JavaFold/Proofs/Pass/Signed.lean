import JavaFold.Proofs.Pass.Legal
import JavaFold.Proofs.Program.Map

/-!
# Passes on a program that was read again

Passes look at the kinds of nodes only, and folding blocks not even at expressions. Where constants have been
propagated there is no minus sign in front of a number any more (`signed_propagate`). So passes that are idle
on a program are idle on what its text is read as (`idleAll_reread`).
-/

namespace JavaFold

open OrderedTree

/-! ## Kinds do not depend on spans -/

namespace Expr

mutual

theorem kinds_bare : ∀ e : Expr, e.bare.kinds = e.kinds
  | literal _ _ | name _ _ => rfl
  | binary _ _ l r => by simp only [bare, kinds, parts, OrderedTree.map, mapAll, kinds_bare l, kinds_bare r]
  | unary _ _ e | postStep _ _ e => by simp only [bare, kinds, parts, OrderedTree.map, mapAll, kinds_bare e]
  | assign _ _ t v => by simp only [bare, kinds, parts, OrderedTree.map, mapAll, kinds_bare t, kinds_bare v]
  | call _ _ args => by
    simp only [bare, kinds, parts, OrderedTree.map, kindsAll_bareAll args]
    rfl

theorem kindsAll_bareAll : ∀ es : List Expr, kindsAll (bareAll es) = kindsAll es
  | [] => rfl
  | e :: es => by simp only [bareAll, kindsAll, partsAll, mapAll, kinds_bare e, kindsAll_bareAll es]

end

mutual

theorem kinds_unplaced : ∀ e : Expr, e.unplaced.kinds = e.kinds
  | literal _ _ | name _ _ => rfl
  | binary _ _ l r => by
    simp only [unplaced, kinds, parts, OrderedTree.map, mapAll, kinds_unplaced l, kinds_unplaced r]
  | unary _ _ e | postStep _ _ e => by
    simp only [unplaced, kinds, parts, OrderedTree.map, mapAll, kinds_unplaced e]
  | assign _ _ t v => by
    simp only [unplaced, kinds, parts, OrderedTree.map, mapAll, kinds_unplaced t, kinds_unplaced v]
  | call _ _ args => by
    simp only [unplaced, kinds, parts, OrderedTree.map, kindsAll_unplacedAll args]
    rfl

theorem kindsAll_unplacedAll : ∀ es : List Expr, kindsAll (unplacedAll es) = kindsAll es
  | [] => rfl
  | e :: es => by
    simp only [unplacedAll, kindsAll, partsAll, mapAll, kinds_unplaced e, kindsAll_unplacedAll es]

end

end Expr

section

variable {f : Expr → Expr}

theorem Expr.optKinds_map (hf : ∀ e, (f e).kinds = e.kinds) (e : Option Expr) :
    Expr.optKinds (e.map f) = Expr.optKinds e := by
  cases e with
  | none => rfl
  | some e => exact congrArg (· :: []) (hf e)

namespace Stmt

variable (g h : Span → Span)

open JavaFold.Expr (optKinds_map)

mutual

/-- Where the expressions have the same kinds, so have the statements. -/
theorem kinds_map (hf : ∀ e, (f e).kinds = e.kinds) : ∀ s : Stmt, (s.map f g h).kinds = s.kinds
  | block _ ss => congrArg (OrderedTree.node _) (kindsAll_map hf ss)
  | expr _ e => by simp only [map, kinds, parts, OrderedTree.map, OrderedTree.mapAll, hf e]
  | localVar _ _ _ e | ret _ e => congrArg (OrderedTree.node _) (optKinds_map hf e)
  | ifElse _ c t none => by simp only [map, kinds, parts, OrderedTree.map, OrderedTree.mapAll, hf c, kinds_map hf t]
  | ifElse _ c t (some e) => by
    simp only [map, kinds, parts, OrderedTree.map, OrderedTree.mapAll, hf c, kinds_map hf t, kinds_map hf e]
  | whileLoop _ c b => by simp only [map, kinds, parts, OrderedTree.map, OrderedTree.mapAll, hf c, kinds_map hf b]
  | forLoop _ none c u b => by
    simp only [map, kinds, parts, OrderedTree.map, mapAll_append, OrderedTree.mapAll, optKinds_map hf c,
      optKinds_map hf u, kinds_map hf b, Option.isSome_map]
  | forLoop _ (some i) c u b => by
    simp only [map, kinds, parts, OrderedTree.map, mapAll_append, OrderedTree.mapAll, optKinds_map hf c,
      optKinds_map hf u, kinds_map hf i, kinds_map hf b, Option.isSome_map]
  | brk _ | cont _ | empty _ => rfl

theorem kindsAll_map (hf : ∀ e, (f e).kinds = e.kinds) : ∀ ss : List Stmt,
    kindsAll (Stmt.mapAll f g h ss) = kindsAll ss
  | [] => rfl
  | s :: ss => congrArg₂ List.cons (kinds_map hf s) (kindsAll_map hf ss)

end

mutual

/-- A tree keeps the spans of statements, but not those of names and types. -/
theorem unplaced_eq_map : ∀ s : Stmt, s.unplaced = s.map Expr.unplaced id fun _ => .dummy
  | block _ ss => congrArg _ (unplacedAll_eq_mapAll ss)
  | ifElse _ _ t none => by simp only [unplaced, map, unplaced_eq_map t, id]
  | ifElse _ _ t (some e) => by simp only [unplaced, map, unplaced_eq_map t, unplaced_eq_map e, id]
  | whileLoop _ _ b | forLoop _ none _ _ b => by simp only [unplaced, map, unplaced_eq_map b, id]
  | forLoop _ (some i) _ _ b => by simp only [unplaced, map, unplaced_eq_map i, unplaced_eq_map b, id]
  | expr _ _ | localVar _ _ _ _ | ret _ _ | brk _ | cont _ | empty _ => rfl

theorem unplacedAll_eq_mapAll : ∀ ss : List Stmt,
    unplacedAll ss = Stmt.mapAll Expr.unplaced id (fun _ => .dummy) ss
  | [] => rfl
  | s :: ss => congrArg₂ List.cons (unplaced_eq_map s) (unplacedAll_eq_mapAll ss)

end

end Stmt

theorem Member.kinds_map (hf : ∀ e, (f e).kinds = e.kinds) (g h : Span → Span) (m : Member) :
    (m.map f g h).kinds = m.kinds := by
  cases m with
  | field s d => exact congrArg (OrderedTree.node _) (Expr.optKinds_map hf d.init)
  | method s d => exact congrArg (fun ts => OrderedTree.node _ [.node _ ts]) (Stmt.kindsAll_map g h hf d.body.stmts)

/-- The kinds of the parts of a program. -/
def CompilationUnit.kinds (unit : CompilationUnit) : List (OrderedTree NodeKind) :=
  unit.classes.map ClassDecl.kinds

theorem CompilationUnit.kinds_map (hf : ∀ e, (f e).kinds = e.kinds) (g h : Span → Span)
    (unit : CompilationUnit) : (unit.map f g h).kinds = unit.kinds := by
  have hclass : ∀ c : ClassDecl, (c.map f g h).kinds = c.kinds := by
    intro c
    simp only [ClassDecl.kinds, ClassDecl.parts, ClassDecl.map, OrderedTree.map, mapAll_eq_map, List.map_map]
    exact congrArg _ (List.map_congr_left fun m _ => m.kinds_map hf g h)
  rw [kinds, kinds, map, List.map_map]
  exact List.map_congr_left fun c _ => hclass c

end

theorem CompilationUnit.unplaced_eq_map (unit : CompilationUnit) :
    unit.unplaced = unit.map Expr.unplaced id fun _ => .dummy := by
  have hmember : ∀ m : Member, m.unplaced = m.map Expr.unplaced id fun _ => .dummy := by
    intro m
    cases m with
    | field s d => rfl
    | method s d =>
      simp only [Member.unplaced, Member.map, MethodDecl.unplaced, Stmt.unplacedAll_eq_mapAll, id]
      rfl
  have hclass : ∀ c : ClassDecl, c.unplaced = c.map Expr.unplaced id fun _ => .dummy := by
    intro c
    rw [ClassDecl.unplaced, List.map_congr_left fun m _ => hmember m]
    rfl
  rw [unplaced, List.map_congr_left fun c _ => hclass c]
  rfl

/-! ## Passes are idle on programs of the same kinds -/

namespace ClassDecl

theorem kinds_eq (c : ClassDecl) :
    c.kinds = .node (.classDecl c.modifiers c.name.value) (c.members.map Member.kinds) := by
  rw [kinds, parts, OrderedTree.map, mapAll_eq_map, List.map_map]
  rfl

theorem fields_congr {c c' : ClassDecl} (h : c'.members.map Member.kinds = c.members.map Member.kinds) :
    c'.fields = c.fields := by
  have hfield : ∀ m : Member, m.declaredField? = Constants.fieldOf? m.kinds.label := by
    intro m
    cases m <;> rfl
  have hfields : ∀ ms : List Member, ms.filterMap Member.declaredField? =
      (ms.map Member.kinds).filterMap fun k => Constants.fieldOf? k.label := by
    intro ms
    rw [List.filterMap_map]
    exact List.filterMap_congr fun m _ => hfield m
  rw [fields, fields, hfields, hfields, h]

end ClassDecl

theorem CompilationUnit.settled_congr {unit unit' : CompilationUnit} (h : unit'.kinds = unit.kinds)
    (hs : unit.Settled) : unit'.Settled := by
  intro c' hc' m' hm' s hk
  obtain ⟨c, hc, hkinds⟩ := List.mem_map.mp (h ▸ List.mem_map_of_mem hc' : c'.kinds ∈ unit.kinds)
  rw [ClassDecl.kinds_eq, ClassDecl.kinds_eq, node.injEq] at hkinds
  have hmembers := hkinds.2.symm
  obtain ⟨m, hm, hmk⟩ := List.mem_map.mp (hmembers ▸ List.mem_map_of_mem hm' : m'.kinds ∈ c.members.map Member.kinds)
  rw [ClassDecl.fields_congr hmembers]
  exact hs c hc m hm s (hk.trans hmk.symm)

/-! ## Propagation leaves no minus sign in front of a number -/

open Constants (Scope Flow)
open Propagated (settled)

namespace Expr

theorem signed_settled {e : Expr} (h : e.signed = e) (span : Span) (value : Option Literal)
    (operands : List Expr) : (settled span value operands e).signed = settled span value operands e := by
  unfold settled
  split
  · split
    · rfl
    · exact h
  · exact h

variable (fields : Scope) (scopes : List Scope)

mutual

theorem signed_propagate : ∀ {e : Expr}, e.Legal → ∀ flow : Flow,
    (e.propagate fields scopes flow).expr.signed = (e.propagate fields scopes flow).expr
  | literal _ _, _, _ => rfl
  | name _ _, _, _ => by
    rw [propagate]
    split <;> rfl
  | binary s op l r, h, _ => by
    rw [propagate]
    refine signed_settled ?_ _ _ _
    exact congrArg₂ (binary s op) (signed_propagate h.1 _) (signed_propagate h.2 _)
  | unary s (.step op) e, h, _ => by
    rw [propagate, Constants.step_expr]
    exact congrArg (unary s (.step op)) (isName_signed h.2)
  | unary s .neg e, h, flow => by
    have he := signed_propagate (e := e) h flow
    rw [@Constants.propagate_unary fields scopes .neg nofun]
    dsimp only
    cases hneg : negated? .neg (e.propagate fields scopes flow).expr with
    | none =>
      refine signed_settled ?_ _ _ _
      rw [signed, hneg, he]
    | some n =>
      -- the sign and the number have become a number
      obtain ⟨s', k, -, hexpr, -, -⟩ := negated?_eq_some hneg
      rw [Constants.value_of_expr_eq hexpr, hexpr]
      rfl
  | unary s .not e, h, flow => by
    refine signed_settled ?_ _ _ _
    exact congrArg (unary s .not) (signed_propagate (e := e) h flow)
  | unary s .bitNot e, h, flow => by
    refine signed_settled ?_ _ _ _
    exact congrArg (unary s .bitNot) (signed_propagate (e := e) h flow)
  | postStep s op e, h, _ => by
    rw [propagate, Constants.step_expr]
    exact congrArg (postStep s op) (isName_signed h.2)
  | assign s op t v, h, flow => by
    obtain ⟨-, -, hname, hv⟩ := h
    rw [Constants.assign_expr]
    exact congrArg₂ (assign s op) (isName_signed hname) (signed_propagate hv flow)
  | call s path _, h, flow => congrArg (call s path) (signed_propagateAll h.2 flow)

theorem signed_propagateAll : ∀ {es : List Expr}, LegalAll es → ∀ flow : Flow,
    signedAll (propagateAll fields scopes es flow).1 = (propagateAll fields scopes es flow).1
  | [], _, _ => rfl
  | _ :: _, h, _ => congrArg₂ List.cons (signed_propagate h.1 _) (signed_propagateAll h.2 _)

end

end Expr

theorem Expr.signed_propagateOpt (fields : Scope) (scopes : List Scope) {e : Option Expr} (h : Expr.LegalOpt e)
    (flow : Flow) :
    (Expr.propagateOpt fields scopes e flow).1.map Expr.signed = (Expr.propagateOpt fields scopes e flow).1 := by
  cases e with
  | none => rfl
  | some e => exact congrArg some (Expr.signed_propagate fields scopes (h e rfl) flow)

namespace Stmt

variable (fields : Scope)

open JavaFold.Expr (signed_propagateOpt)

mutual

theorem signed_propagate : ∀ (scopes : List Scope) {s : Stmt}, s.Legal → ∀ flow : Flow,
    (s.propagate fields scopes flow).1.signed = (s.propagate fields scopes flow).1
  | scopes, block s _, h, _ => congrArg (block s) (signed_propagateAll ([] :: scopes) h _)
  | scopes, expr s _, h, _ => congrArg (expr s) (Expr.signed_propagate fields scopes h _)
  | _, localVar _ _ _ none, _, _ => rfl
  | scopes, localVar s ty name (some _), h, flow => by
    obtain ⟨-, -, -, hinit⟩ := h
    exact congrArg (localVar s ty name) (signed_propagateOpt fields scopes hinit flow)
  | scopes, ifElse s _ _ none, h, _ =>
    congrArg₂ (ifElse s · · none) (Expr.signed_propagate fields scopes h.1 _) (signed_propagate scopes h.2.1 _)
  | scopes, ifElse s _ _ (some _), h, _ => by
    obtain ⟨hc, ht, -, -, he, -⟩ := h
    exact congr (congrArg₂ (fun c t e => ifElse s c t (some e)) (Expr.signed_propagate fields scopes hc _)
      (signed_propagate scopes ht _)) (signed_propagate scopes he _)
  | scopes, whileLoop s _ _, h, _ =>
    congrArg₂ (whileLoop s) (Expr.signed_propagate fields scopes h.1 _) (signed_propagate scopes h.2.1 _)
  | scopes, forLoop s none _ _ _, h, _ => by
    obtain ⟨hc, hu, hb, -⟩ := h
    rw [propagate]
    change forLoop s none (Option.map Expr.signed _) (Option.map Expr.signed _) (signed _) = _
    rw [signed_propagateOpt fields _ hc, signed_propagateOpt fields _ hu, signed_propagate _ hb]
  | scopes, forLoop s (some i) _ _ _, h, _ => by
    obtain ⟨hi, -, hc, hu, hb, -⟩ := h
    rw [propagate]
    change forLoop s (some (signed _)) (Option.map Expr.signed _) (Option.map Expr.signed _) (signed _) = _
    rw [signed_propagate _ hi, signed_propagateOpt fields _ hc, signed_propagateOpt fields _ hu,
      signed_propagate _ hb]
  | _, ret _ none, _, _ => rfl
  | scopes, ret s (some _), h, flow => congrArg (ret s) (signed_propagateOpt fields scopes h flow)
  | _, brk _, _, _ | _, cont _, _, _ | _, empty _, _, _ => rfl

theorem signed_propagateAll : ∀ (scopes : List Scope) {ss : List Stmt}, LegalAll ss → ∀ flow : Flow,
    signedAll (propagateAll fields scopes ss flow).1 = (propagateAll fields scopes ss flow).1
  | _, [], _, _ => rfl
  | scopes, s :: _, h, _ =>
    congrArg₂ List.cons (signed_propagate scopes h.1 _) (signed_propagateAll (s.declared scopes) h.2 _)

end

end Stmt

theorem CompilationUnit.signed_propagate {unit : CompilationUnit} (h : unit.Legal) :
    unit.propagate.signed = unit.propagate := by
  have hmember : ∀ {m : Member} (fields : Scope), m.Legal → (m.propagate fields).signed = m.propagate fields := by
    intro m fields hm
    cases m with
    | field s d =>
      exact congrArg (fun init => Member.field s { d with init := init })
        (Expr.signed_propagateOpt fields [] (FieldDecl.Legal.init hm) _)
    | method s d =>
      exact congrArg (fun ss => Member.method s { d with body := ⟨d.body.span, ss⟩ })
        (Stmt.signed_propagateAll fields _ (MethodDecl.Legal.body hm) _)
  rw [signed, map, propagate, List.map_map]
  refine congrArg CompilationUnit.mk (List.map_congr_left fun c hc => ?_)
  change ClassDecl.mk c.span c.modifiers c.name ((c.members.map _).map _) = _
  rw [List.map_map, ClassDecl.propagate]
  refine congrArg (ClassDecl.mk c.span c.modifiers c.name) (List.map_congr_left fun m hm => ?_)
  exact hmember c.fields ((h c hc).members m hm)

/-- In a settled program there is no minus sign in front of a number. -/
theorem CompilationUnit.unplaced_propagate {unit : CompilationUnit} (h : unit.Legal) (hs : unit.Settled) :
    unit.propagate.unplaced = unit.unplaced := by
  obtain ⟨c, t, hrun, ht⟩ := Constants.run_fold (Tree.holds_ofUnit unit)
  obtain ⟨t', hrun', ht'⟩ := Constants.run_fold_settled (Tree.holds_ofUnit unit) hs
  obtain ⟨-, rfl⟩ := EStateM.Result.ok.inj (hrun.symm.trans hrun')
  have hread := ht.unit?_eq
  rw [ht'.unit?_eq, analysed_eq h] at hread
  exact (Except.ok.inj hread).symm

namespace Expr

theorem negated?_unplaced (op : UnaryOp) (e : Expr) : negated? op e.unplaced = negated? op e := by
  cases op with
  | neg => cases e <;> rfl
  | _ => rfl

mutual

theorem signed_unplaced : ∀ e : Expr, e.unplaced.signed = e.signed.unplaced
  | literal _ _ | name _ _ => rfl
  | binary _ _ l r => by simp only [unplaced, signed, signed_unplaced l, signed_unplaced r]
  | unary _ op e => by
    rw [unplaced, signed, negated?_unplaced, signed]
    cases negated? op e with
    | none => simp only [unplaced, signed_unplaced e]
    | some n => rfl
  | postStep _ _ e => by simp only [unplaced, signed, signed_unplaced e]
  | assign _ _ t v => by simp only [unplaced, signed, signed_unplaced t, signed_unplaced v]
  | call _ _ args => by simp only [unplaced, signed, signed_unplacedAll args]

theorem signed_unplacedAll : ∀ es : List Expr, signedAll (unplacedAll es) = unplacedAll (signedAll es)
  | [] => rfl
  | e :: es => by simp only [unplacedAll, signedAll, signed_unplaced e, signed_unplacedAll es]

end

end Expr

theorem CompilationUnit.signed_unplaced (unit : CompilationUnit) :
    unit.unplaced.signed = unit.signed.unplaced := by
  rw [unplaced_eq_map, unplaced_eq_map, signed, signed, map_map, map_map]
  exact congrArg (fun f => unit.map f id fun _ => .dummy) (funext Expr.signed_unplaced)

theorem CompilationUnit.signed_of_settled {unit : CompilationUnit} (h : unit.Legal) (hs : unit.Settled) :
    unit.unplaced.signed = unit.unplaced := by
  rw [← unplaced_propagate h hs, signed_unplaced, signed_propagate h]

/-! ## Flat programs stay flat -/

namespace Blocks

variable (f : Expr → Expr) (g h : Span → Span)

mutual

/-- Whether a statement is flat does not depend on its expressions. -/
theorem isFlat_map : ∀ s : Stmt, (s.map f g h).kinds.label.isBlock = s.kinds.label.isBlock ∧
    isFlat (s.map f g h).kinds = isFlat s.kinds
  | .block _ ss => by
    have ⟨hblocks, hflat⟩ := isFlatAll_map ss
    rw [Stmt.map, Stmt.kinds, Stmt.kinds, Stmt.parts, Stmt.parts, OrderedTree.map, OrderedTree.map, isFlat, isFlat,
      hblocks, hflat]
    exact ⟨rfl, rfl⟩
  | .expr _ _ => ⟨rfl, ((isFlat_node rfl _).trans (isFlatAll_exprs [_])).trans
      ((isFlat_node rfl _).trans (isFlatAll_exprs [_])).symm⟩
  | .localVar _ _ _ e | .ret _ e => ⟨rfl, ((isFlat_node rfl _).trans (isFlatAll_opt _)).trans
      ((isFlat_node rfl _).trans (isFlatAll_opt e)).symm⟩
  | .ifElse _ _ t none => by
    rw [Stmt.map, isFlat_branch, isFlat_branch]
    exact ⟨rfl, (isFlat_map t).2⟩
  | .ifElse _ _ t (some e) => by
    rw [Stmt.map, isFlat_branches, isFlat_branches, (isFlat_map t).2, (isFlat_map e).2]
    exact ⟨rfl, rfl⟩
  | .whileLoop _ _ b => by
    rw [Stmt.map, isFlat_whileLoop, isFlat_whileLoop]
    exact ⟨rfl, (isFlat_map b).2⟩
  | .forLoop _ none _ _ b => by
    rw [Stmt.map, isFlat_forLoop, isFlat_forLoop]
    exact ⟨rfl, (isFlat_map b).2⟩
  | .forLoop _ (some i) _ _ b => by
    rw [Stmt.map, isFlat_forLoop_init, isFlat_forLoop_init, (isFlat_map i).2, (isFlat_map b).2]
    exact ⟨rfl, rfl⟩
  | .brk _ | .cont _ | .empty _ => ⟨rfl, rfl⟩

theorem isFlatAll_map : ∀ ss : List Stmt,
    (Stmt.kindsAll (Stmt.mapAll f g h ss)).any (·.label.isBlock) = (Stmt.kindsAll ss).any (·.label.isBlock) ∧
      isFlatAll (Stmt.kindsAll (Stmt.mapAll f g h ss)) = isFlatAll (Stmt.kindsAll ss)
  | [] => ⟨rfl, rfl⟩
  | s :: ss => ⟨congrArg₂ or (isFlat_map s).1 (isFlatAll_map ss).1,
      congrArg₂ and (isFlat_map s).2 (isFlatAll_map ss).2⟩

end

end Blocks

theorem CompilationUnit.flat_map (f : Expr → Expr) (g h : Span → Span) (unit : CompilationUnit) :
    (unit.map f g h).Flat ↔ unit.Flat := by
  have hmember : ∀ m : Member, Blocks.isFlat (m.map f g h).kinds = Blocks.isFlat m.kinds := by
    intro m
    cases m with
    | field s d =>
      exact ((Blocks.isFlat_node rfl _).trans (Blocks.isFlatAll_opt _)).trans
        ((Blocks.isFlat_node rfl _).trans (Blocks.isFlatAll_opt d.init)).symm
    | method s d =>
      rw [Member.map, Blocks.isFlat_method, Blocks.isFlat_method]
      exact (Blocks.isFlat_map f g h (.block d.body.span d.body.stmts)).2
  simp only [flat_iff, map, ClassDecl.map, List.forall_mem_map, hmember]

/-! ## Passes stay idle -/

namespace PassKind

variable {kinds : List PassKind} {unit again : CompilationUnit}

/-- Passes that are idle on a program are idle on what the text of the program in the tree is read as. -/
theorem idleAll_reread (h : unit.Legal) (hidle : IdleAll kinds unit)
    (hbare : again.bare = unit.unplaced.signed.bare) : IdleAll kinds again := by
  intro kind hkind
  cases kind with
  | blockFolding =>
    have hflat : again.bare.Flat ↔ unit.Flat := by
      rw [hbare, CompilationUnit.unplaced_eq_map]
      simp only [CompilationUnit.bare, CompilationUnit.signed, CompilationUnit.flat_map]
    exact (CompilationUnit.flat_map ..).mp (hflat.mpr (hidle _ hkind))
  | constantPropagation =>
    have hsettled : unit.Settled := hidle _ hkind
    have hkinds : again.kinds = unit.kinds := by
      rw [← CompilationUnit.kinds_map Expr.kinds_bare (fun _ => .dummy) (fun _ => .dummy) again]
      refine (congrArg CompilationUnit.kinds hbare).trans ?_
      rw [CompilationUnit.signed_of_settled h hsettled, CompilationUnit.unplaced_eq_map]
      exact (CompilationUnit.kinds_map Expr.kinds_bare _ _ _).trans
        (CompilationUnit.kinds_map Expr.kinds_unplaced _ _ _)
    exact CompilationUnit.settled_congr hkinds hsettled

end PassKind

end JavaFold
