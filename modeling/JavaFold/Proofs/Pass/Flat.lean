import JavaFold.Proofs.Pass.Basic
import JavaFold.Proofs.Pass.Blocks
import JavaFold.Proofs.Pass.Constants.Propagation
import JavaFold.Proofs.Pass.Hygiene
import JavaFold.Proofs.Tree.Kinds

/-!
# Flat programs

A program is flat if no block is a statement of another block. Folding blocks makes every program flat
(`flat_flatten`), keeps what is flat, and says that it has changed something exactly if the program was
not flat (`run_fold`). Propagating constants keeps a program flat (`flat_analysed`).
-/

namespace JavaFold

open OrderedTree

namespace Blocks

/-! ## Flat trees -/

mutual

/-- Whether no block is a child of a block. -/
def isFlat : OrderedTree NodeKind → Bool
  | node k ts => !(k.isBlock && ts.any (·.label.isBlock)) && isFlatAll ts

def isFlatAll : List (OrderedTree NodeKind) → Bool
  | [] => true
  | t :: ts => isFlat t && isFlatAll ts

end

/-- What stands in the place of a part of a block: the statements of a block, or else the part itself. -/
def spliced (p : OrderedTree Part) : List (OrderedTree Part) :=
  if p.label.kind.isBlock then p.children else [p]

mutual

/-- The parts with all inner blocks folded. -/
def flatten : OrderedTree Part → OrderedTree Part
  | node q ps => node q (if q.kind.isBlock then (flattenAll ps).flatMap spliced else flattenAll ps)

def flattenAll : List (OrderedTree Part) → List (OrderedTree Part)
  | [] => []
  | p :: ps => flatten p :: flattenAll ps

end

theorem isFlatAll_append (ts us : List (OrderedTree NodeKind)) :
    isFlatAll (ts ++ us) = (isFlatAll ts && isFlatAll us) := by
  induction ts with
  | nil => rfl
  | cons t ts ih => rw [List.cons_append, isFlatAll, isFlatAll, ih, Bool.and_assoc]

theorem label_flatten (p : OrderedTree Part) : (flatten p).label = p.label := by
  cases p
  rfl

theorem any_isBlock_flattenAll (ps : List (OrderedTree Part)) :
    (flattenAll ps).any (·.label.kind.isBlock) = ps.any (·.label.kind.isBlock) := by
  induction ps with
  | nil => rfl
  | cons p ps ih => rw [flattenAll, List.any_cons, List.any_cons, label_flatten, ih]

theorem any_isBlock_mapAll (ps : List (OrderedTree Part)) :
    (mapAll Part.kind ps).any (·.label.isBlock) = ps.any (·.label.kind.isBlock) := by
  induction ps with
  | nil => rfl
  | cons p ps ih =>
    cases p
    rw [mapAll, List.any_cons, List.any_cons, ih]
    rfl

theorem flatMap_spliced {ps : List (OrderedTree Part)}
    (h : ps.any (·.label.kind.isBlock) = false) : ps.flatMap spliced = ps := by
  induction ps with
  | nil => rfl
  | cons p ps ih =>
    rw [List.any_cons, Bool.or_eq_false_iff] at h
    rw [List.flatMap_cons, ih h.2, spliced, h.1]
    rfl

mutual

theorem flatten_of_isFlat : ∀ p : OrderedTree Part, isFlat (p.map Part.kind) = true → flatten p = p
  | node q ps, h => by
    rw [OrderedTree.map, isFlat, Bool.and_eq_true, Bool.not_eq_true', any_isBlock_mapAll] at h
    have hps := flattenAll_of_isFlat ps h.2
    rw [flatten, hps]
    split
    · next hq =>
      rw [hq, Bool.true_and] at h
      rw [flatMap_spliced h.1]
    · rfl

theorem flattenAll_of_isFlat : ∀ ps : List (OrderedTree Part),
    isFlatAll (mapAll Part.kind ps) = true → flattenAll ps = ps
  | [], _ => rfl
  | p :: ps, h => by
    rw [mapAll, isFlatAll, Bool.and_eq_true] at h
    rw [flattenAll, flatten_of_isFlat p h.1, flattenAll_of_isFlat ps h.2]

end

/-- The statements that a flat part leaves in a block are flat and no blocks. -/
theorem isFlatAll_spliced {p : OrderedTree Part} (h : isFlat (p.map Part.kind) = true) :
    isFlatAll (mapAll Part.kind (spliced p)) = true ∧
      (spliced p).any (·.label.kind.isBlock) = false := by
  cases p with
  | node q ps =>
    rw [spliced]
    split
    · next hq =>
      rw [label] at hq
      rw [OrderedTree.map, isFlat, Bool.and_eq_true, hq, Bool.true_and, Bool.not_eq_true',
        any_isBlock_mapAll] at h
      exact ⟨h.2, h.1⟩
    · next hq =>
      rw [mapAll, mapAll, isFlatAll, isFlatAll, h, List.any_cons, List.any_nil]
      exact ⟨rfl, by simpa using hq⟩

theorem isFlatAll_flatMap_spliced : ∀ {ps : List (OrderedTree Part)},
    isFlatAll (mapAll Part.kind ps) = true → isFlatAll (mapAll Part.kind (ps.flatMap spliced)) = true ∧
      (ps.flatMap spliced).any (·.label.kind.isBlock) = false
  | [], _ => ⟨rfl, rfl⟩
  | p :: ps, h => by
    rw [mapAll, isFlatAll, Bool.and_eq_true] at h
    have ⟨hp, hpb⟩ := isFlatAll_spliced h.1
    have ⟨hps, hpsb⟩ := isFlatAll_flatMap_spliced h.2
    rw [List.flatMap_cons, mapAll_append, isFlatAll_append, hp, hps, List.any_append, hpb, hpsb]
    exact ⟨rfl, rfl⟩

mutual

theorem isFlat_flatten : ∀ p : OrderedTree Part, isFlat ((flatten p).map Part.kind) = true
  | node q ps => by
    have hps := isFlatAll_flattenAll ps
    rw [flatten, OrderedTree.map, isFlat, any_isBlock_mapAll, Bool.and_eq_true]
    split
    · have ⟨hflat, hblocks⟩ := isFlatAll_flatMap_spliced hps
      rw [hblocks, hflat]
      exact ⟨by simp, rfl⟩
    · next hq =>
      rw [Bool.eq_false_of_not_eq_true hq]
      exact ⟨rfl, hps⟩

theorem isFlatAll_flattenAll : ∀ ps : List (OrderedTree Part),
    isFlatAll (mapAll Part.kind (flattenAll ps)) = true
  | [] => rfl
  | p :: ps => by
    rw [flattenAll, mapAll, isFlatAll, isFlat_flatten p, isFlatAll_flattenAll ps]
    rfl

end

/-! ## What a walk makes of parts -/

theorem partsAll_append (ss us : List (OrderedTree Placed)) :
    partsAll (ss ++ us) = partsAll ss ++ partsAll us := by
  rw [partsAll_eq_map, partsAll_eq_map, partsAll_eq_map, List.map_append]

theorem partsAll_flatMap_absorbed (ss : List (OrderedTree Placed)) :
    partsAll (ss.flatMap absorbed) = (partsAll ss).flatMap spliced := by
  induction ss with
  | nil => rfl
  | cons s ss ih =>
    have hs : partsAll (absorbed s) = spliced s.parts := by
      obtain ⟨p, ts⟩ := s
      rw [absorbed, parts, spliced]
      change _ = if p.kind.isBlock = true then _ else _
      rw [label]
      split <;> rfl
    rw [List.flatMap_cons, partsAll_append, hs, ih, partsAll, List.flatMap_cons]

theorem isNestedIn_node (p : Placed) (ss : List (OrderedTree Placed)) :
    isNestedIn (.node p ss) = (partsAll ss).any (·.label.kind.isBlock) := by
  rw [isNestedIn, children, partsAll_eq_map, List.any_map]
  congr
  funext s
  cases s
  rfl

mutual

/-- A walk flattens the parts, and changes something exactly if they are not flat. -/
theorem parts_of_walked : ∀ {s s' : OrderedTree Placed} {q : Placed}
    {before after : List (OrderedTree Placed)} {c : Bool},
    Walk.Walked NodeKind.isBlock Spliced s q before after s' c →
      s'.parts = flatten s.parts ∧ c = !isFlat s.kinds
  | .node p ss, s', q, before, after, c, ⟨ss', c₁, hall, hs⟩ => by
    obtain ⟨hparts, rfl⟩ := partsAll_of_walkedAll hall
    have hnested : (mapAll Placed.kind ss).any (·.label.isBlock) = isNestedIn (.node p ss') := by
      rw [isNestedIn_node, hparts, any_isBlock_flattenAll, ← any_isBlock_mapAll, mapAll_partsAll]
    rw [parts, flatten, ← hparts, kinds, OrderedTree.map, isFlat, hnested,
      show p.part.kind = p.kind from rfl]
    by_cases hb : p.kind.isBlock = true
    · rw [if_pos hb] at hs
      obtain ⟨c₂, ⟨rfl, hspliced⟩, rfl⟩ := hs
      rw [if_pos hb, hb, Bool.true_and, Bool.not_and, Bool.not_not, Bool.or_comm]
      refine ⟨?_, rfl⟩
      by_cases hn : isNestedIn (.node p ss') = true
      · rw [if_pos hn] at hspliced
        obtain ⟨fresh, rfl⟩ := hspliced
        rw [parts, children, partsAll_flatMap_absorbed, Placed.part, Placed.part, eq_of_isBlock hb]
        rfl
      · rw [if_neg hn] at hspliced
        rw [Bool.not_eq_true, isNestedIn_node] at hn
        rw [hspliced, parts, flatMap_spliced hn]
    · rw [if_neg hb] at hs
      obtain ⟨rfl, rfl⟩ := hs
      rw [if_neg hb, Bool.eq_false_of_not_eq_true hb]
      exact ⟨rfl, by simp⟩

theorem partsAll_of_walkedAll : ∀ {ss ss' : List (OrderedTree Placed)} {q : Placed}
    {before : List (OrderedTree Placed)} {c : Bool},
    Walk.WalkedAll NodeKind.isBlock Spliced ss q before ss' c →
      partsAll ss' = flattenAll (partsAll ss) ∧ c = !isFlatAll (kindsAll ss)
  | [], _, _, _, _, ⟨h, hc⟩ => by
    subst h
    exact ⟨rfl, hc⟩
  | s :: ss, _, _, _, _, ⟨s', ss', c₁, c₂, e, hs, hss, hc⟩ => by
    obtain ⟨hparts, rfl⟩ := parts_of_walked hs
    obtain ⟨hrest, rfl⟩ := partsAll_of_walkedAll hss
    subst e
    refine ⟨by rw [partsAll, partsAll, flattenAll, hparts, hrest], ?_⟩
    rw [hc, ← Bool.not_and]
    rfl

end

/-! ## Expressions hold no blocks -/

mutual

theorem isFlat_expr : ∀ e : Expr, isFlat e.kinds = true
  | .literal _ _ | .name _ _ => rfl
  | .unary _ _ e | .postStep _ _ e => by
    have he := isFlat_expr e
    simpa [Expr.kinds, Expr.parts, OrderedTree.map, mapAll, isFlat, isFlatAll, NodeKind.isBlock] using he
  | .binary _ _ l r | .assign _ _ l r => by
    have hl := isFlat_expr l
    have hr := isFlat_expr r
    simpa [Expr.kinds, Expr.parts, OrderedTree.map, mapAll, isFlat, isFlatAll, NodeKind.isBlock] using
      And.intro hl hr
  | .call _ _ args => by
    have hargs := isFlatAll_exprs args
    simpa [Expr.kinds, Expr.parts, OrderedTree.map, isFlat, NodeKind.isBlock] using hargs

theorem isFlatAll_exprs : ∀ es : List Expr, isFlatAll (Expr.kindsAll es) = true
  | [] => rfl
  | e :: es => by
    have he := isFlat_expr e
    have hes := isFlatAll_exprs es
    simpa [Expr.kindsAll, Expr.partsAll, mapAll, isFlatAll] using And.intro he hes

end

theorem isFlatAll_opt (e : Option Expr) : isFlatAll (Expr.optKinds e) = true := by
  cases e with
  | none => rfl
  | some e => simpa [Expr.optKinds, Expr.optParts, mapAll, isFlatAll] using isFlat_expr e

theorem flatten_expr (e : Expr) : flatten e.parts = e.parts := flatten_of_isFlat _ (isFlat_expr e)

theorem flattenAll_opt (e : Option Expr) : flattenAll (Expr.optParts e) = Expr.optParts e :=
  flattenAll_of_isFlat _ (isFlatAll_opt e)

theorem flattenAll_append (ps qs : List (OrderedTree Part)) :
    flattenAll (ps ++ qs) = flattenAll ps ++ flattenAll qs := by
  induction ps with
  | nil => rfl
  | cons p ps ih => rw [List.cons_append, flattenAll, flattenAll, ih, List.cons_append]

end Blocks

/-! ## Flat programs -/

namespace Stmt

/-- What stands in the place of a statement of a block: the statements of a block, or else the statement
itself. -/
def spliced : Stmt → List Stmt
  | block _ ss => ss
  | s => [s]

mutual

/-- The statement with all inner blocks folded. -/
def flatten : Stmt → Stmt
  | block s ss => block s ((flattenAll ss).flatMap spliced)
  | ifElse s c t none => ifElse s c (flatten t) none
  | ifElse s c t (some e) => ifElse s c (flatten t) (some (flatten e))
  | whileLoop s c b => whileLoop s c (flatten b)
  | forLoop s none c u b => forLoop s none c u (flatten b)
  | forLoop s (some i) c u b => forLoop s (some (flatten i)) c u (flatten b)
  | expr s e => expr s e
  | localVar s ty name init => localVar s ty name init
  | ret s e => ret s e
  | brk s => brk s
  | cont s => cont s
  | empty s => empty s

def flattenAll : List Stmt → List Stmt
  | [] => []
  | s :: ss => flatten s :: flattenAll ss

end

theorem partsAll_append (xs ys : List Stmt) : partsAll (xs ++ ys) = partsAll xs ++ partsAll ys := by
  induction xs with
  | nil => rfl
  | cons x xs ih => rw [List.cons_append, partsAll, partsAll, ih, List.cons_append]

theorem partsAll_spliced (x : Stmt) : partsAll x.spliced = Blocks.spliced x.parts := by
  cases x with
  | ifElse s c t e => cases e <;> rfl
  | forLoop s i c u b => cases i <;> rfl
  | _ => rfl

theorem partsAll_flatMap_spliced (xs : List Stmt) :
    partsAll (xs.flatMap spliced) = (partsAll xs).flatMap Blocks.spliced := by
  induction xs with
  | nil => rfl
  | cons x xs ih =>
    rw [List.flatMap_cons, partsAll_append, partsAll_spliced, ih, partsAll, List.flatMap_cons]

open Blocks (flatten_expr flattenAll_opt flattenAll_append)

mutual

theorem parts_flatten : ∀ x : Stmt, x.flatten.parts = Blocks.flatten x.parts
  | block _ ss => by
    rw [flatten, parts, partsAll_flatMap_spliced, partsAll_flattenAll ss]
    rfl
  | expr _ e => by
    simp only [flatten, parts, Blocks.flatten, Blocks.flattenAll, flatten_expr]
    rfl
  | localVar _ _ _ e | ret _ e => by
    simp only [flatten, parts, Blocks.flatten, flattenAll_opt]
    rfl
  | ifElse _ c t none | whileLoop _ c t => by
    simp only [flatten, parts, Blocks.flatten, Blocks.flattenAll, flatten_expr, parts_flatten t]
    rfl
  | ifElse _ c t (some e) => by
    simp only [flatten, parts, Blocks.flatten, Blocks.flattenAll, flatten_expr, parts_flatten t,
      parts_flatten e]
    rfl
  | forLoop _ none c u b => by
    simp only [flatten, parts, Blocks.flatten, Blocks.flattenAll, flattenAll_append, flattenAll_opt,
      parts_flatten b]
    rfl
  | forLoop _ (some i) c u b => by
    simp only [flatten, parts, Blocks.flatten, Blocks.flattenAll, flattenAll_append, flattenAll_opt,
      parts_flatten b, parts_flatten i]
    rfl
  | brk _ | cont _ | empty _ => rfl

theorem partsAll_flattenAll : ∀ xs : List Stmt,
    partsAll (flattenAll xs) = Blocks.flattenAll (partsAll xs)
  | [] => rfl
  | x :: xs => by
    rw [flattenAll, partsAll, partsAll, Blocks.flattenAll, parts_flatten x, partsAll_flattenAll xs]

end

end Stmt

/-- The body of a method with all inner blocks folded. -/
def MethodDecl.flatten (d : MethodDecl) : MethodDecl :=
  { d with body := ⟨d.body.span, (Stmt.flattenAll d.body.stmts).flatMap Stmt.spliced⟩ }

/-- A field has no blocks. -/
def Member.flatten : Member → Member
  | field s d => field s d
  | method s d => method s d.flatten

def ClassDecl.flatten (c : ClassDecl) : ClassDecl := { c with members := c.members.map Member.flatten }

/-- The program with all inner blocks folded. -/
def CompilationUnit.flatten (unit : CompilationUnit) : CompilationUnit :=
  ⟨unit.classes.map ClassDecl.flatten⟩

/-- The parts of a program. -/
abbrev CompilationUnit.parts (unit : CompilationUnit) : List (OrderedTree Part) :=
  unit.classes.map ClassDecl.parts

/-- No block is a statement of another one. -/
def CompilationUnit.Flat (unit : CompilationUnit) : Prop :=
  Blocks.isFlatAll (mapAll Part.kind unit.parts) = true

theorem Member.parts_flatten (m : Member) : m.flatten.parts = Blocks.flatten m.parts := by
  cases m with
  | field s d =>
    rw [flatten, parts, Blocks.flatten, Blocks.flattenAll_opt]
    rfl
  | method s d =>
    have hbody := Stmt.parts_flatten (.block d.body.span d.body.stmts)
    rw [Stmt.flatten, Stmt.parts, Stmt.parts] at hbody
    simp only [flatten, MethodDecl.flatten, parts, hbody]
    rfl

theorem Blocks.flattenAll_eq_map (ps : List (OrderedTree Part)) : flattenAll ps = ps.map flatten := by
  induction ps with
  | nil => rfl
  | cons p ps ih => rw [flattenAll, ih, List.map_cons]

theorem ClassDecl.parts_flatten (c : ClassDecl) : c.flatten.parts = Blocks.flatten c.parts := by
  rw [parts, parts, Blocks.flatten, Blocks.flattenAll_eq_map, flatten, List.map_map, List.map_map]
  exact congrArg _ (List.map_congr_left fun m _ => m.parts_flatten)

theorem CompilationUnit.parts_flatten (unit : CompilationUnit) :
    unit.flatten.parts = Blocks.flattenAll unit.parts := by
  rw [parts, parts, Blocks.flattenAll_eq_map, flatten, List.map_map, List.map_map]
  exact List.map_congr_left fun c _ => c.parts_flatten

theorem CompilationUnit.flat_flatten (unit : CompilationUnit) : unit.flatten.Flat := by
  rw [Flat, parts_flatten]
  exact Blocks.isFlatAll_flattenAll unit.parts

namespace Blocks

/-- Folding the blocks in the tree of a program succeeds, gives the tree of the flat program, and changes
something exactly if the program was not flat. -/
theorem run_fold {t : Tree} {unit : CompilationUnit} (h : t.Holds unit) :
    ∃ c t', (fold t.root).run t = .ok c t' ∧ t'.Holds unit.flatten ∧ (c = false ↔ unit.Flat) := by
  obtain ⟨ss, ss', c, t', hs, hparts, hwalk, hwf', hroot, hs', hrun⟩ := h.run_walk visitor_does rfl
  obtain ⟨hparts', rfl⟩ := partsAll_of_walkedAll hwalk
  refine ⟨_, t', hrun, ⟨hwf', ss', hs', ?_⟩, ?_⟩
  · rw [hparts', hparts]
    exact unit.parts_flatten.symm
  · rw [CompilationUnit.Flat, ← mapAll_partsAll, hparts, Bool.not_eq_false']

/-- Folding the blocks in the tree of a flat program changes nothing. -/
theorem run_fold_flat {t : Tree} {unit : CompilationUnit} (h : t.Holds unit) (hflat : unit.Flat) :
    ∃ t', (fold t.root).run t = .ok false t' ∧ t'.Holds unit := by
  obtain ⟨c, t', hrun, ⟨hwf, ss, hs, hparts⟩, hc⟩ := run_fold h
  refine ⟨t', hc.mpr hflat ▸ hrun, hwf, ss, hs, hparts.trans ?_⟩
  exact unit.parts_flatten.trans (flattenAll_of_isFlat _ hflat)

end Blocks

/-! ## Propagating constants in a flat program -/

namespace Blocks

variable {fields : Constants.Scope}

theorem isFlat_node {k : NodeKind} (h : k.isBlock = false) (ts : List (OrderedTree NodeKind)) :
    isFlat (.node k ts) = isFlatAll ts := by
  rw [isFlat, h]
  rfl

theorem isFlat_branch (s : Span) (c : Expr) (x : Stmt) :
    isFlat (Stmt.ifElse s c x none).kinds = isFlat x.kinds := by
  simp [Stmt.kinds, Stmt.parts, OrderedTree.map, mapAll, isFlat, isFlatAll, NodeKind.isBlock,
    show isFlat (c.parts.map Part.kind) = true from isFlat_expr c]

theorem isFlat_branches (s : Span) (c : Expr) (x y : Stmt) :
    isFlat (Stmt.ifElse s c x (some y)).kinds = (isFlat x.kinds && isFlat y.kinds) := by
  simp [Stmt.kinds, Stmt.parts, OrderedTree.map, mapAll, isFlat, isFlatAll, NodeKind.isBlock,
    show isFlat (c.parts.map Part.kind) = true from isFlat_expr c]

theorem isFlat_whileLoop (s : Span) (c : Expr) (b : Stmt) :
    isFlat (Stmt.whileLoop s c b).kinds = isFlat b.kinds := by
  exact isFlat_branch s c b

theorem isFlatAll_looped (c u : Option Expr) (b : OrderedTree Part) :
    isFlatAll (mapAll Part.kind (Expr.optParts c ++ Expr.optParts u ++ [b])) =
      isFlat (b.map Part.kind) := by
  rw [mapAll_append, mapAll_append, isFlatAll_append, isFlatAll_append, isFlatAll_opt, isFlatAll_opt,
    mapAll, mapAll, isFlatAll, isFlatAll, Bool.and_true, Bool.true_and, Bool.and_true]

theorem isFlat_forLoop (s : Span) (c u : Option Expr) (b : Stmt) :
    isFlat (Stmt.forLoop s none c u b).kinds = isFlat b.kinds := by
  exact (isFlat_node rfl _).trans (isFlatAll_looped c u b.parts)

theorem isFlat_forLoop_init (s : Span) (i : Stmt) (c u : Option Expr) (b : Stmt) :
    isFlat (Stmt.forLoop s (some i) c u b).kinds = (isFlat i.kinds && isFlat b.kinds) := by
  refine (isFlat_node rfl _).trans ?_
  rw [mapAll, isFlatAll, isFlatAll_looped]

mutual

/-- The pass keeps flat statements flat, and blocks blocks. -/
theorem isFlat_analysed : ∀ (x : Stmt) (flow : Constants.Flow) (scopes : List Constants.Scope),
    (x.analysed fields flow scopes).part.kinds.label.isBlock = x.kinds.label.isBlock ∧
      (isFlat x.kinds = true → isFlat (x.analysed fields flow scopes).part.kinds = true)
  | .block _ xs, flow, scopes => by
    have ⟨hblocks, hflat⟩ := isFlatAll_analysed xs flow ([] :: scopes)
    refine ⟨rfl, fun h => ?_⟩
    rw [Stmt.kinds, Stmt.parts, OrderedTree.map, isFlat, Bool.and_eq_true] at h
    rw [Stmt.analysed, Stmt.kinds, Stmt.parts, OrderedTree.map, isFlat, Bool.and_eq_true]
    exact ⟨hblocks ▸ h.1, hflat h.2⟩
  | .expr _ e, flow, scopes => by
    refine ⟨rfl, fun _ => ?_⟩
    exact (isFlat_node rfl _).trans (isFlatAll_exprs [_])
  | .localVar _ _ _ none, _, _ | .ret _ none, _, _ | .brk _, _, _ | .cont _, _, _
  | .empty _, _, _ => ⟨rfl, fun _ => rfl⟩
  | .localVar _ _ _ (some _), _, _ | .ret _ (some _), _, _ => by
    refine ⟨rfl, fun _ => ?_⟩
    exact (isFlat_node rfl _).trans (isFlatAll_exprs [_])
  | .ifElse _ c t none, flow, scopes => by
    have ht := isFlat_analysed t (c.propagate fields scopes flow).flow scopes
    rw [Stmt.analysed, isFlat_branch, isFlat_branch]
    exact ⟨rfl, ht.2⟩
  | .ifElse _ c t (some e), flow, scopes => by
    have ht := isFlat_analysed t (c.propagate fields scopes flow).flow scopes
    have he := isFlat_analysed e (c.propagate fields scopes flow).flow
      (t.analysed fields (c.propagate fields scopes flow).flow scopes).scopes
    rw [Stmt.analysed, isFlat_branches, isFlat_branches, Bool.and_eq_true, Bool.and_eq_true]
    exact ⟨rfl, And.imp ht.2 he.2⟩
  | .whileLoop _ c b, flow, scopes => by
    rw [Stmt.analysed, isFlat_whileLoop, isFlat_whileLoop]
    exact ⟨rfl, (isFlat_analysed b _ scopes).2⟩
  | .forLoop _ none c u b, flow, scopes => by
    rw [Stmt.analysed, isFlat_forLoop, isFlat_forLoop]
    exact ⟨rfl, (isFlat_analysed b _ _).2⟩
  | .forLoop _ (some i) c u b, flow, scopes => by
    rw [Stmt.analysed, isFlat_forLoop_init, isFlat_forLoop_init, Bool.and_eq_true, Bool.and_eq_true]
    exact ⟨rfl, And.imp (isFlat_analysed i flow _).2 (isFlat_analysed b _ _).2⟩

theorem isFlatAll_analysed : ∀ (xs : List Stmt) (flow : Constants.Flow) (scopes : List Constants.Scope),
    (Stmt.kindsAll (Stmt.analysedAll fields xs flow scopes).part).any (·.label.isBlock) =
        (Stmt.kindsAll xs).any (·.label.isBlock) ∧
      (isFlatAll (Stmt.kindsAll xs) = true →
        isFlatAll (Stmt.kindsAll (Stmt.analysedAll fields xs flow scopes).part) = true)
  | [], _, _ => ⟨rfl, id⟩
  | x :: xs, flow, scopes => by
    have ⟨hblock, hflat⟩ := isFlat_analysed x flow scopes
    have ⟨hblocks, hflats⟩ := isFlatAll_analysed xs (x.analysed fields flow scopes).flow
      (x.analysed fields flow scopes).scopes
    refine ⟨congrArg₂ or hblock hblocks, fun h => ?_⟩
    rw [Stmt.kindsAll, Stmt.partsAll, mapAll, isFlatAll, Bool.and_eq_true] at h
    rw [Stmt.analysedAll, Stmt.kindsAll, Stmt.partsAll, mapAll, isFlatAll, Bool.and_eq_true]
    exact ⟨hflat h.1, hflats h.2⟩

end

theorem isFlat_method (s : Span) (d : MethodDecl) :
    isFlat (Member.method s d).kinds = isFlat (Stmt.block d.body.span d.body.stmts).kinds := by
  exact (isFlat_node rfl _).trans (Bool.and_true _)

/-- The pass keeps flat fields and methods flat. -/
theorem isFlat_member {m : Member} (h : isFlat m.kinds = true) :
    isFlat (m.analysed fields).kinds = true := by
  cases m with
  | field s d => exact (isFlat_node rfl _).trans (isFlatAll_opt _)
  | method s d =>
    have hbody := (@isFlat_analysed fields (.block d.body.span d.body.stmts) (some [])
      [d.scope]).2
    rw [isFlat_method] at h
    rw [Member.analysed, isFlat_method]
    exact hbody h

theorem isFlatAll_iff {ts : List (OrderedTree NodeKind)} :
    isFlatAll ts = true ↔ ∀ t ∈ ts, isFlat t = true := by
  induction ts with
  | nil => simp [isFlatAll]
  | cons t ts ih => rw [isFlatAll, Bool.and_eq_true, ih, List.forall_mem_cons]

end Blocks

open Blocks in
theorem CompilationUnit.flat_iff {unit : CompilationUnit} :
    unit.Flat ↔ ∀ c ∈ unit.classes, ∀ m ∈ c.members, isFlat m.kinds = true := by
  have hclass : ∀ c : ClassDecl, isFlat c.kinds = true ↔ ∀ m ∈ c.members, isFlat m.kinds = true := by
    intro c
    rw [ClassDecl.kinds, ClassDecl.parts, OrderedTree.map, isFlat_node rfl, isFlatAll_iff,
      mapAll_eq_map, List.map_map, List.forall_mem_map]
    rfl
  rw [Flat, isFlatAll_iff, mapAll_eq_map, parts, List.map_map, List.forall_mem_map]
  exact forall₂_congr fun c _ => hclass c

/-- Propagating constants keeps a flat program flat. -/
theorem CompilationUnit.flat_analysed {unit : CompilationUnit} (h : unit.Flat) :
    unit.analysed.Flat := by
  rw [flat_iff] at h ⊢
  intro c' hc' m' hm'
  obtain ⟨c, hc, rfl⟩ := List.mem_map.mp hc'
  obtain ⟨m, hm, rfl⟩ := List.mem_map.mp hm'
  exact Blocks.isFlat_member (h c hc m hm)

end JavaFold
