import JavaFold.Tree.Following
import JavaFold.Proofs.Pass.Signed
import JavaFold.Proofs.Tree.Reachable

/-!
# Trees of the same shape

`Tree.sameShape` compares the kinds of the nodes at and below two nodes. In reachable trees it tells whether the ordered
trees of kinds are equal, and comparing the nodes pair by pair tells the same (`compareWaiting?_shown`): children wait
in pairs only if both lists are equally long, so no child is left out. As the last pair has its turn first, a difference
may be found elsewhere than going from the top down, but it is found.

Programs that are equal up to spans have trees of the same shape, and no others have (`same_kinds_iff`). The tree of a
program without its spans is given by the kinds of its parts (`CompilationUnit.parts_bare`), and it is read as the
program without its spans: all that is optional in a statement shows in the kind or in the number of the children.
-/

namespace JavaFold

open OrderedTree

namespace OrderedTree

mutual

/-- Trees of nodes that have the same kinds in the same arrangement. -/
theorem sameBy_kind_iff : ∀ s u : OrderedTree Placed,
    s.sameBy (fun x y => x.kind == y.kind) u = true ↔ s.kinds = u.kinds
  | .node p ss, .node q us => by
    rw [sameBy, Bool.and_eq_true, beq_iff_eq, sameByAll_kind_iff ss us, kinds, kinds, map, map, node.injEq]

theorem sameByAll_kind_iff : ∀ ss us : List (OrderedTree Placed),
    sameByAll (fun x y => x.kind == y.kind) ss us = true ↔ kindsAll ss = kindsAll us
  | [], [] => by simp [sameByAll]
  | [], u :: us => by simp [sameByAll, mapAll]
  | s :: ss, [] => by simp [sameByAll, mapAll]
  | s :: ss, u :: us => by
    simp only [sameByAll, Bool.and_eq_true, sameBy_kind_iff s u, sameByAll_kind_iff ss us, mapAll, List.cons.injEq]

end

/-- Lists of trees of the same shapes are equally long. -/
theorem length_eq_of_sameByAll {α β : Type} {same : α → β → Bool} : ∀ {ss : List (OrderedTree α)}
    {us : List (OrderedTree β)}, sameByAll same ss us = true → ss.length = us.length
  | [], [], _ => rfl
  | s :: ss, u :: us, h => by
    rw [sameByAll, Bool.and_eq_true] at h
    rw [List.length_cons, List.length_cons, length_eq_of_sameByAll h.2]

end OrderedTree

/-! ## Comparing pair by pair -/

namespace Tree

variable {t t' : Tree}

mutual

/-- Two trees are compared before the next pair that waits has its turn, which it has only if they are alike. -/
theorem compareWaiting?_shown : ∀ (s u : OrderedTree Placed) (waiting : List (NodeId × NodeId)), t.Shows s →
    t'.Shows u → t.compareWaiting? t' ((s.label.id, u.label.id) :: waiting) =
      if s.sameBy (fun x y => x.kind == y.kind) u then t.compareWaiting? t' waiting else some false
  | .node p ss, .node q us, waiting, ⟨⟨parent, hn⟩, hss⟩, ⟨⟨parent', hm⟩, hus⟩ => by
    rw [compareWaiting?.eq_def, sameBy]
    simp only [label, hn, hm, List.length_map]
    by_cases hkind : p.kind = q.kind
    · by_cases hlength : ss.length = us.length
      · rw [if_neg (by simp [hkind, hlength]), beq_iff_eq.mpr hkind, Bool.true_and]
        exact compareWaiting?_shownAll ss us waiting hlength hss hus
      · have hdiffer : sameByAll (fun x y => x.kind == y.kind) ss us = false :=
          Bool.eq_false_iff.mpr fun h => hlength (length_eq_of_sameByAll h)
        rw [if_pos (.inr hlength), hdiffer, Bool.and_false]
        rfl
    · rw [if_pos (.inl hkind), beq_eq_false_iff_ne.mpr hkind]
      rfl

theorem compareWaiting?_shownAll : ∀ (ss us : List (OrderedTree Placed)) (waiting : List (NodeId × NodeId)),
    ss.length = us.length → ShowsAll t ss → ShowsAll t' us →
      t.compareWaiting? t' (((ss.map (·.label.id)).zip (us.map (·.label.id))).reverse ++ waiting) =
        if sameByAll (fun x y => x.kind == y.kind) ss us then t.compareWaiting? t' waiting else some false
  | [], [], _, _, _, _ => rfl
  | s :: ss, u :: us, waiting, hlength, ⟨hs, hss⟩, ⟨hu, hus⟩ => by
    rw [List.map_cons, List.map_cons, List.zip_cons_cons, List.reverse_cons, List.append_assoc, List.singleton_append,
      compareWaiting?_shownAll ss us _ (Nat.succ.inj hlength) hss hus, compareWaiting?_shown s u waiting hs hu,
      sameByAll]
    cases s.sameBy (fun x y => x.kind == y.kind) u <;> simp
  | [], _ :: _, _, h, _, _ => nomatch h
  | _ :: _, [], _, h, _, _ => nomatch h

end

variable {s u : OrderedTree Placed}

theorem sameShape?_of_shows (hs : t.Shows s) (hu : t'.Shows u) :
    t.sameShape? s.label.id t' u.label.id = some (s.sameBy (fun x y => x.kind == y.kind) u) := by
  rw [sameShape?, compareWaiting?_shown s u [] hs hu, compareWaiting?.eq_def]
  cases s.sameBy (fun x y => x.kind == y.kind) u <;> rfl

theorem Linked.sameShape_of_shows (h : t.Linked) (h' : t'.Linked) (hs : t.Shows s) (hu : t'.Shows u) :
    t.sameShape s.label.id t' u.label.id = s.sameBy (fun x y => x.kind == y.kind) u := by
  rw [sameShape, h.subtree?_of_shows hs, h'.subtree?_of_shows hu]

/-- Pair by pair the comparison ends, and tells whether the trees of kinds are equal. -/
theorem sameShape?_eq_true_iff (hs : t.Shows s) (hu : t'.Shows u) :
    t.sameShape? s.label.id t' u.label.id = some true ↔ s.kinds = u.kinds := by
  rw [sameShape?_of_shows hs hu, Option.some.injEq, sameBy_kind_iff]

end Tree

/-! ## Programs without their spans -/

/-- The same part, read from elsewhere. -/
def Part.move (g : Span → Span) (p : Part) : Part := ⟨p.kind, g p.span⟩

namespace Expr

mutual

theorem parts_bare : ∀ e : Expr, e.bare.parts = e.parts.map (Part.move fun _ => .dummy)
  | literal _ _ | name _ _ => rfl
  | binary _ _ l r => by rw [bare, parts, parts, parts_bare l, parts_bare r]; rfl
  | unary _ _ e | postStep _ _ e => by rw [bare, parts, parts, parts_bare e]; rfl
  | assign _ _ t v => by rw [bare, parts, parts, parts_bare t, parts_bare v]; rfl
  | call _ _ args => by rw [bare, parts, parts, partsAll_bareAll args]; rfl

theorem partsAll_bareAll : ∀ es : List Expr, partsAll (bareAll es) = mapAll (Part.move fun _ => .dummy) (partsAll es)
  | [] => rfl
  | e :: es => congrArg₂ List.cons (parts_bare e) (partsAll_bareAll es)

end

mutual

/-- Without spans there are none of paths. -/
theorem unplaced_bare : ∀ e : Expr, e.bare.unplaced = e.bare
  | literal _ _ | name _ _ => rfl
  | binary _ op l r => congrArg₂ (binary .dummy op) (unplaced_bare l) (unplaced_bare r)
  | unary _ op e => congrArg (unary .dummy op) (unplaced_bare e)
  | postStep _ op e => congrArg (postStep .dummy op) (unplaced_bare e)
  | assign _ op t v => congrArg₂ (assign .dummy op) (unplaced_bare t) (unplaced_bare v)
  | call _ path args => congrArg (call .dummy (.made path.value)) (unplacedAll_bareAll args)

theorem unplacedAll_bareAll : ∀ es : List Expr, unplacedAll (bareAll es) = bareAll es
  | [] => rfl
  | e :: es => congrArg₂ List.cons (unplaced_bare e) (unplacedAll_bareAll es)

end

end Expr

section

variable {f : Expr → Expr} {g : Span → Span} (h : Span → Span)

theorem Expr.optParts_map (hf : ∀ e, (f e).parts = e.parts.map (Part.move g)) (e : Option Expr) :
    optParts (e.map f) = mapAll (Part.move g) (optParts e) := by
  cases e with
  | none => rfl
  | some e => exact congrArg (· :: []) (hf e)

namespace Stmt

open JavaFold.Expr (optParts_map)

mutual

/-- Where the parts of expressions are moved, so are those of statements. -/
theorem parts_map (hf : ∀ e, (f e).parts = e.parts.map (Part.move g)) : ∀ s : Stmt,
    (s.map f g h).parts = s.parts.map (Part.move g)
  | block _ ss => congrArg (OrderedTree.node _) (partsAll_map hf ss)
  | expr _ e => congrArg (OrderedTree.node _ [·]) (hf e)
  | localVar _ _ _ e | ret _ e => congrArg (OrderedTree.node _) (optParts_map hf e)
  | ifElse _ c t none => by rw [map, parts, parts, hf c, parts_map hf t]; rfl
  | ifElse _ c t (some e) => by rw [map, parts, parts, hf c, parts_map hf t, parts_map hf e]; rfl
  | whileLoop _ c b => by rw [map, parts, parts, hf c, parts_map hf b]; rfl
  | forLoop _ none c u b => by
    rw [map, parts, parts, optParts_map hf c, optParts_map hf u, parts_map hf b, OrderedTree.map, mapAll_append,
      mapAll_append, Option.isSome_map, Option.isSome_map]
    rfl
  | forLoop _ (some i) c u b => by
    rw [map, parts, parts, optParts_map hf c, optParts_map hf u, parts_map hf i, parts_map hf b, OrderedTree.map,
      OrderedTree.mapAll, mapAll_append, mapAll_append, Option.isSome_map, Option.isSome_map]
    rfl
  | brk _ | cont _ | empty _ => rfl

theorem partsAll_map (hf : ∀ e, (f e).parts = e.parts.map (Part.move g)) : ∀ ss : List Stmt,
    partsAll (mapAll f g h ss) = OrderedTree.mapAll (Part.move g) (partsAll ss)
  | [] => rfl
  | s :: ss => congrArg₂ List.cons (parts_map hf s) (partsAll_map hf ss)

end

end Stmt

theorem Member.parts_map (hf : ∀ e, (f e).parts = e.parts.map (Part.move g)) (m : Member) :
    (m.map f g h).parts = m.parts.map (Part.move g) := by
  cases m with
  | field s d => exact congrArg (OrderedTree.node _) (Expr.optParts_map hf d.init)
  | method s d => exact congrArg (fun ts => OrderedTree.node _ [.node _ ts]) (Stmt.partsAll_map h hf d.body.stmts)

theorem ClassDecl.parts_map (hf : ∀ e, (f e).parts = e.parts.map (Part.move g)) (c : ClassDecl) :
    (c.map f g h).parts = c.parts.map (Part.move g) := by
  rw [parts, parts, OrderedTree.map, mapAll_eq_map, List.map_map, map, List.map_map]
  exact congrArg _ (List.map_congr_left fun m _ => m.parts_map h hf)

end

namespace CompilationUnit

/-- The parts of a program without its spans are given by their kinds. -/
theorem parts_bare (unit : CompilationUnit) :
    unit.bare.classes.map ClassDecl.parts = unit.kinds.map (OrderedTree.map fun kind => ⟨kind, .dummy⟩) := by
  rw [bare, map, kinds, List.map_map, List.map_map]
  refine List.map_congr_left fun c _ => ?_
  rw [Function.comp_apply, Function.comp_apply, ClassDecl.kinds, OrderedTree.map_map]
  exact c.parts_map _ Expr.parts_bare

theorem unplaced_bare (unit : CompilationUnit) : unit.bare.unplaced = unit.bare := by
  rw [unplaced_eq_map, bare, map_map]
  exact congrArg (unit.map · _ _) (funext Expr.unplaced_bare)

/-- Programs whose parts have the same kinds are equal up to spans: without spans both are read from one tree. -/
theorem same_kinds_iff {unit unit' : CompilationUnit} : unit.kinds = unit'.kinds ↔ unit.bare = unit'.bare := by
  constructor
  · intro h
    obtain ⟨hwf, ss, hs, hparts⟩ := Tree.holds_ofUnit unit.bare
    have hread : ∀ {v : CompilationUnit}, partsAll ss = v.bare.classes.map ClassDecl.parts →
        (Tree.ofUnit unit.bare).unit? = .ok v.bare := fun {v} hv => by
      rw [Tree.unit?_of_parts (hwf.subtree?_of_shows hs) hv, unplaced_bare]
    have hparts' : partsAll ss = unit'.bare.classes.map ClassDecl.parts := by rw [hparts, parts_bare, h, parts_bare]
    exact Except.ok.inj ((hread hparts).symm.trans (hread hparts'))
  · intro h
    rw [← kinds_map Expr.kinds_bare (fun _ => .dummy) (fun _ => .dummy) unit, ← bare, h, bare,
      kinds_map Expr.kinds_bare]

end CompilationUnit

/-! ## The same shape -/

namespace Tree

variable {t t' t'' : Tree} {a b c : NodeId}

/-- The tree of a program shows the kinds of its parts below its root. -/
theorem exists_kinds_ofUnit (unit : CompilationUnit) : ∃ s, (ofUnit unit).Shows s ∧
    s.label.id = (ofUnit unit).root ∧ s.kinds = .node .unit unit.kinds := by
  obtain ⟨hwf, ss, hs, hparts⟩ := holds_ofUnit unit
  refine ⟨_, hs, rfl, ?_⟩
  rw [kinds, map, ← kindsAll, kindsAll_of_parts hparts, mapAll_eq_map, List.map_map]
  rfl

theorem sameShape?_ofUnit_iff (unit unit' : CompilationUnit) :
    (ofUnit unit).sameShape? (ofUnit unit).root (ofUnit unit') (ofUnit unit').root = some true ↔
      unit.bare = unit'.bare := by
  obtain ⟨s, hs, hroot, hkinds⟩ := exists_kinds_ofUnit unit
  obtain ⟨u, hu, hroot', hkinds'⟩ := exists_kinds_ofUnit unit'
  rw [← hroot, ← hroot', sameShape?_eq_true_iff hs hu, hkinds, hkinds', node.injEq, and_iff_right rfl,
    CompilationUnit.same_kinds_iff]

/-- Comparing two nodes of reachable trees pair by pair ends, and tells whether the ordered trees of the kinds at and
below them are equal; so being of the same shape is an equivalence, across trees as well as in one. The trees of two
programs have the same shape exactly if the programs are equal up to spans. -/
theorem sameShape_is_equality (h : t.Reachable) (h' : t'.Reachable) (h'' : t''.Reachable)
    (ha : ∃ n, t.get? a = some n) (hb : ∃ n, t'.get? b = some n) (hc : ∃ n, t''.get? c = some n) :
    (∃ s u, t.Shows s ∧ s.label.id = a ∧ t'.Shows u ∧ u.label.id = b ∧
      t.sameShape? a t' b = some (t.sameShape a t' b) ∧ (t.sameShape? a t' b = some true ↔ s.kinds = u.kinds)) ∧
    t.sameShape? a t a = some true ∧
    t.sameShape? a t' b = t'.sameShape? b t a ∧
    (t.sameShape? a t' b = some true → t'.sameShape? b t'' c = some true → t.sameShape? a t'' c = some true) ∧
    ∀ unit unit' : CompilationUnit,
      (ofUnit unit).sameShape? (ofUnit unit).root (ofUnit unit') (ofUnit unit').root = some true ↔
        unit.bare = unit'.bare := by
  have hshown : ∀ {t : Tree} {a : NodeId}, t.Reachable → (∃ n, t.get? a = some n) → ∃ s, t.Shows s ∧ s.label.id = a :=
    fun h ⟨_, hn⟩ => (h.wellFormed.exists_subtree? hn).imp fun _ hs => shows_of_subtree? hs
  obtain ⟨s, hs, rfl⟩ := hshown h ha
  obtain ⟨u, hu, rfl⟩ := hshown h' hb
  obtain ⟨v, hv, rfl⟩ := hshown h'' hc
  have hsymm : s.sameBy (fun x y => x.kind == y.kind) u = u.sameBy (fun x y => x.kind == y.kind) s := by
    rw [Bool.eq_iff_iff, sameBy_kind_iff, sameBy_kind_iff, eq_comm]
  refine ⟨⟨s, u, hs, rfl, hu, rfl, ?_, sameShape?_eq_true_iff hs hu⟩, (sameShape?_eq_true_iff hs hs).mpr rfl, ?_, ?_,
    sameShape?_ofUnit_iff⟩
  · rw [sameShape?_of_shows hs hu, h.wellFormed.sameShape_of_shows h'.wellFormed.toLinked hs hu]
  · rw [sameShape?_of_shows hs hu, sameShape?_of_shows hu hs, hsymm]
  · rw [sameShape?_eq_true_iff hs hu, sameShape?_eq_true_iff hu hv, sameShape?_eq_true_iff hs hv]
    exact Eq.trans

/-- A tree with a class beside its program, in a later slot than in `oneClass`. -/
def classLater : Tree :=
  (Operation.alloc (.classDecl [] "A") ⟨6, 15⟩ []).after ((Operation.alloc .unit .dummy []).after empty)

/-- Slots, spans and parents do not count for the shape: the class in the program and the one beside it are alike, and
so are the programs that the class is read into from two places. -/
theorem sameShape_is_equality_moved : oneClass.Reachable ∧ classLater.Reachable ∧
    (∃ n, oneClass.get? ⟨1, 0⟩ = some n) ∧ (∃ n, classLater.get? ⟨2, 0⟩ = some n) ∧
    oneClass.sameShape? ⟨1, 0⟩ classLater ⟨2, 0⟩ = some true ∧
    classLater.sameShape? ⟨2, 0⟩ oneClass ⟨1, 0⟩ = some true ∧
    (ofUnit ⟨[⟨⟨0, 9⟩, [], ⟨"A", ⟨6, 7⟩⟩, []⟩]⟩).sameShape? ⟨0, 0⟩
      (ofUnit ⟨[⟨⟨6, 15⟩, [], ⟨"A", ⟨12, 13⟩⟩, []⟩]⟩) ⟨0, 0⟩ = some true := by
  have h : oneClass.Reachable := .step _ (.step _ .empty)
  have h' : classLater.Reachable := .step _ (.step _ .empty)
  obtain ⟨⟨s, u, -, -, -, -, heq, -⟩, -, hsymm, -, hunits⟩ :=
    sameShape_is_equality (a := ⟨1, 0⟩) (b := ⟨2, 0⟩) (c := ⟨1, 0⟩) h h' h ⟨_, rfl⟩ ⟨_, rfl⟩ ⟨_, rfl⟩
  have hsame : oneClass.sameShape? ⟨1, 0⟩ classLater ⟨2, 0⟩ = some true := heq
  exact ⟨h, h', ⟨_, rfl⟩, ⟨_, rfl⟩, hsame, hsymm ▸ hsame, (hunits _ _).mpr rfl⟩

end Tree

end JavaFold
