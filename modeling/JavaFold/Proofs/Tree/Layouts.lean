import Mathlib.Algebra.GroupWithZero.Nat
import JavaFold.Proofs.Tree.Reachable
import JavaFold.Proofs.Tree.Reading

/-!
# Trees that are programs

Each kind of node has an arrangement of children: how many there are and of what sort
(`NodeKind.arrangement`). A tree is read as a program exactly if the children of every node below its root are
arranged in this way; putting the program into a tree then gives a tree of the same shape. Otherwise the reading
fails at one of those nodes (`Reading.Decides`). Putting a program into a tree and reading it gives the program
without the spans that no node keeps, and takes one node for the root and one for each part of the program
(`CompilationUnit.nodes`).
-/

namespace JavaFold

/-! ## Arrangements of children -/

/-- What a child of a node can be. -/
inductive NodeSort
  | aClass
  | aMember
  | aBlock
  | aStatement
  | anExpression

/-- Whether a kind of node is of a sort. A block is a statement too. -/
@[simp] def NodeSort.has : NodeSort → NodeKind → Bool
  | aClass, .classDecl _ _ => true
  | aMember, .field _ _ _ => true
  | aMember, .method _ _ _ _ => true
  | aBlock, .stmt .block => true
  | aStatement, .stmt _ => true
  | anExpression, .expr _ => true
  | _, _ => false

/-- What may stand behind the children that a node always has. -/
inductive Remaining
  | nothing
  | perhaps (sort : NodeSort)
  | anyNumber (sort : NodeSort)

@[simp] def Remaining.admits : Remaining → List NodeKind → Bool
  | nothing, kinds => kinds.isEmpty
  | perhaps sort, kinds => decide (kinds.length ≤ 1) && kinds.all sort.has
  | anyNumber sort, kinds => kinds.all sort.has

/-- The sorts of the children that a node has: those it always has, in order, and what may stand behind them. -/
structure Arrangement where
  always : List NodeSort
  remaining : Remaining

/-- Whether children of these kinds are of some sorts in turn, and then as they may stand behind them. -/
def Remaining.admitsAfter (r : Remaining) : List NodeSort → List NodeKind → Bool
  | [], kinds => r.admits kinds
  | _ :: _, [] => false
  | sort :: sorts, kind :: kinds => sort.has kind && r.admitsAfter sorts kinds

/-- Whether children of these kinds are arranged like this. -/
def Arrangement.admits (a : Arrangement) (kinds : List NodeKind) : Bool :=
  a.remaining.admitsAfter a.always kinds

/-- A child that is there if its flag is set. -/
@[simp] def NodeSort.onFlag (sort : NodeSort) (flag : Bool) : List NodeSort := if flag then [sort] else []

@[simp] def StmtKind.arrangement : StmtKind → Arrangement
  | block => ⟨[], .anyNumber .aStatement⟩
  | expression => ⟨[.anExpression], .nothing⟩
  | localVar _ _ => ⟨[], .perhaps .anExpression⟩
  | ifElse => ⟨[.anExpression, .aStatement], .perhaps .aStatement⟩
  | whileLoop => ⟨[.anExpression, .aStatement], .nothing⟩
  | forLoop init cond update =>
    ⟨NodeSort.aStatement.onFlag init ++ NodeSort.anExpression.onFlag cond ++ NodeSort.anExpression.onFlag update ++
      [.aStatement], .nothing⟩
  | ret => ⟨[], .perhaps .anExpression⟩
  | brk | cont | empty => ⟨[], .nothing⟩

@[simp] def ExprKind.arrangement : ExprKind → Arrangement
  | literal _ | name _ => ⟨[], .nothing⟩
  | binary _ | assign _ => ⟨[.anExpression, .anExpression], .nothing⟩
  | unary _ | postStep _ => ⟨[.anExpression], .nothing⟩
  | call _ => ⟨[], .anyNumber .anExpression⟩

/-- The children that a kind of node has. -/
@[simp] def NodeKind.arrangement : NodeKind → Arrangement
  | unit => ⟨[], .anyNumber .aClass⟩
  | classDecl _ _ => ⟨[], .anyNumber .aMember⟩
  | field _ _ _ => ⟨[], .perhaps .anExpression⟩
  | method _ _ _ _ => ⟨[.aBlock], .nothing⟩
  | stmt kind => kind.arrangement
  | expr kind => kind.arrangement

/-- Whether the children of a node are arranged as its kind says. -/
def Tree.laidOut (t : Tree) (id : NodeId) : Bool :=
  match t.get? id with
  | none => false
  | some node => node.kind.arrangement.admits (node.children.filterMap fun c => (t.get? c).map Node.kind)

namespace OrderedTree

mutual

/-- The children of every node are arranged as its kind says. -/
def LaidOut : OrderedTree Placed → Prop
  | .node p ts => p.kind.arrangement.admits (ts.map (·.label.kind)) = true ∧ LaidOutAll ts

def LaidOutAll : List (OrderedTree Placed) → Prop
  | [] => True
  | t :: ts => LaidOut t ∧ LaidOutAll ts

end

theorem laidOutAll_iff {ts : List (OrderedTree Placed)} : LaidOutAll ts ↔ ∀ t ∈ ts, t.LaidOut := by
  induction ts with
  | nil => simp [LaidOutAll]
  | cons t ts ih => simp [LaidOutAll, ih]

/-- The node at the top is of a sort, and the children of every node are arranged as its kind says. -/
def Fits (sort : NodeSort) (s : OrderedTree Placed) : Prop := sort.has s.label.kind = true ∧ s.LaidOut

theorem fitsAll_iff {sort : NodeSort} {ss : List (OrderedTree Placed)} : (∀ s ∈ ss, s.Fits sort) ↔
    (ss.map (·.label.kind)).all sort.has = true ∧ LaidOutAll ss := by
  rw [laidOutAll_iff, List.all_map, List.all_eq_true]
  exact ⟨fun h => ⟨fun s hs => (h s hs).1, fun s hs => (h s hs).2⟩, fun h s hs => ⟨h.1 s hs, h.2 s hs⟩⟩

/-- Trees fit behind those that a node always has below it. -/
@[simp] def FitRemaining : Remaining → List (OrderedTree Placed) → Prop
  | .nothing, ss => ss = []
  | .perhaps sort, ss => ss.length ≤ 1 ∧ ∀ s ∈ ss, s.Fits sort
  | .anyNumber sort, ss => ∀ s ∈ ss, s.Fits sort

/-- Trees fit some sorts in turn, and then what may stand behind them. -/
@[simp] def FitInTurn (r : Remaining) : List NodeSort → List (OrderedTree Placed) → Prop
  | [], ss => FitRemaining r ss
  | _ :: _, [] => False
  | sort :: sorts, s :: ss => s.Fits sort ∧ FitInTurn r sorts ss

theorem fitRemaining_iff {r : Remaining} {ss : List (OrderedTree Placed)} : FitRemaining r ss ↔
    r.admits (ss.map (·.label.kind)) = true ∧ LaidOutAll ss := by
  cases r with
  | nothing => cases ss <;> simp [FitRemaining, Remaining.admits, LaidOutAll]
  | perhaps sort =>
    rw [FitRemaining, Remaining.admits, Bool.and_eq_true, decide_eq_true_iff, List.length_map, fitsAll_iff, and_assoc]
  | anyNumber sort => rw [FitRemaining, Remaining.admits, fitsAll_iff]

theorem fitInTurn_iff {r : Remaining} : ∀ {sorts : List NodeSort} {ss : List (OrderedTree Placed)},
    FitInTurn r sorts ss ↔ r.admitsAfter sorts (ss.map (·.label.kind)) = true ∧ LaidOutAll ss
  | [], ss => by rw [FitInTurn, Remaining.admitsAfter, fitRemaining_iff]
  | _ :: _, [] => by simp [FitInTurn, Remaining.admitsAfter]
  | sort :: sorts, s :: ss => by
    rw [FitInTurn, fitInTurn_iff, List.map_cons, Remaining.admitsAfter, LaidOutAll, Fits, Bool.and_eq_true]
    tauto

/-- Where nothing may stand behind them, there are as many trees as sorts. -/
theorem length_of_fitInTurn : ∀ {sorts : List NodeSort} {ss : List (OrderedTree Placed)},
    FitInTurn .nothing sorts ss → ss.length = sorts.length
  | [], _, h => congrArg List.length (h : _ = [])
  | _ :: _, _ :: _, h => congrArg (· + 1) (length_of_fitInTurn h.2)

/-- A tree fits if its top does and the trees below it are as the kind at the top says. -/
theorem fits_node {sort : NodeSort} {p : Placed} {ts : List (OrderedTree Placed)} : (node p ts).Fits sort ↔
    sort.has p.kind = true ∧ FitInTurn p.kind.arrangement.remaining p.kind.arrangement.always ts := by
  rw [fitInTurn_iff]
  rfl

end OrderedTree

/-- The parts of the body of a method. -/
def Block.parts (b : Block) : OrderedTree Part := .node ⟨.stmt .block, b.span⟩ (Stmt.partsAll b.stmts)

theorem NodeSort.has_aBlock (kind : NodeKind) : NodeSort.aBlock.has kind = kind.isBlock := by
  cases kind with
  | stmt k => cases k <;> rfl
  | unit | classDecl | field | method | expr => rfl

/-! ## Reading is decided by the arrangement -/

namespace Reading

open OrderedTree

variable {α β : Type} {P Q : Prop} {ids : List NodeId} {x : Reading α} {f : α → Reading β} {good : α → Prop}
  {good' : β → Prop}

/-- Reading gives a value if `P` holds, and else fails at one of some nodes. -/
structure Decides (P : Prop) (ids : List NodeId) (x : Reading α) (good : α → Prop) : Prop where
  read : P → ∃ a, x = .ok a ∧ good a
  refused : ¬ P → ∃ id ∈ ids, ∃ expected, x = .error (.malformed id expected)

namespace Decides

theorem pure {a : α} (h : good a) : Decides True ids (Pure.pure a) good :=
  ⟨fun _ => ⟨a, rfl, h⟩, fun hn => absurd trivial hn⟩

theorem malformed {p : Placed} {expected : Layout} (hp : p.id ∈ ids) :
    Decides False ids (Reading.malformed p expected) good :=
  ⟨nofun, fun _ => ⟨p.id, hp, expected, rfl⟩⟩

theorem bind (h : Decides P ids x good) (hf : ∀ a, good a → Decides Q ids (f a) good') :
    Decides (P ∧ Q) ids (x >>= f) good' := by
  constructor
  · rintro ⟨hP, hQ⟩
    obtain ⟨a, rfl, ha⟩ := h.read hP
    exact (hf a ha).read hQ
  · intro hn
    by_cases hP : P
    · obtain ⟨a, rfl, ha⟩ := h.read hP
      exact (hf a ha).refused fun hQ => hn ⟨hP, hQ⟩
    · obtain ⟨id, hid, expected, rfl⟩ := h.refused hP
      exact ⟨id, hid, expected, rfl⟩

theorem within {ids' : List NodeId} (h : Decides P ids x good) (hids : ∀ id ∈ ids, id ∈ ids') :
    Decides P ids' x good :=
  ⟨h.read, fun hn => (h.refused hn).imp fun id ⟨hid, hx⟩ => ⟨hids id hid, hx⟩⟩

theorem congr (hPQ : P ↔ Q) (h : Decides P ids x good) : Decides Q ids x good :=
  ⟨fun hQ => h.read (hPQ.mpr hQ), fun hn => h.refused fun hP => hn (hPQ.mp hP)⟩

/-- Something is read from a tree below a node, and then more is read. -/
theorem child {p : Placed} {s : OrderedTree Placed} {ts : List (OrderedTree Placed)}
    (h : Decides P s.ids x good) (hs : s ∈ ts)
    (hf : ∀ a, good a → Decides Q (node p ts).ids (f a) good') : Decides (P ∧ Q) (node p ts).ids (x >>= f) good' :=
  (h.within fun id hid => by
    rw [ids_node]
    exact List.mem_cons_of_mem _ (mem_idsAll.mpr ⟨s, hs, hid⟩)).bind hf

/-- Something is read from all trees below a node, and then more is read. -/
theorem children {p : Placed} {ts : List (OrderedTree Placed)} (h : Decides P (idsAll ts) x good)
    (hf : ∀ a, good a → Decides Q (node p ts).ids (f a) good') : Decides (P ∧ Q) (node p ts).ids (x >>= f) good' :=
  (h.within fun id hid => by
    rw [ids_node]
    exact List.mem_cons_of_mem _ hid).bind hf

end Decides

/-- What is read from a tree has the parts that its nodes stand for. -/
abbrev Reads (sort : NodeSort) (read : OrderedTree Placed → Reading α) (parts : α → OrderedTree Part)
    (s : OrderedTree Placed) : Prop :=
  Decides (s.Fits sort) s.ids (read s) fun a => parts a = s.parts

theorem mapM_decides {sort : NodeSort} {read : OrderedTree Placed → Reading α} {parts : α → OrderedTree Part}
    (h : ∀ s, Reads sort read parts s) (ss : List (OrderedTree Placed)) :
    Decides (∀ s ∈ ss, s.Fits sort) (idsAll ss) (ss.mapM read) fun as => as.map parts = partsAll ss := by
  induction ss with
  | nil =>
    rw [List.mapM_nil]
    exact .congr (by simp) (.pure rfl)
  | cons s ss ih =>
    rw [List.mapM_cons, idsAll_cons]
    refine .congr (P := s.Fits sort ∧ (∀ u ∈ ss, u.Fits sort) ∧ True) (by simp) ?_
    refine ((h s).within fun _ => List.mem_append_left _).bind fun a ha => ?_
    refine (ih.within fun _ => List.mem_append_right _).bind fun as has => .pure ?_
    rw [List.map_cons, ha, has, partsAll]

theorem mem_ids_node (p : Placed) (ts : List (OrderedTree Placed)) : p.id ∈ (node p ts).ids :=
  id_mem_ids (.node p ts)

/-- The cases in which it is clear from the number of trees below a node whether it fits. -/
theorem Decides.ofFits {sort : NodeSort} {p : Placed} {ts : List (OrderedTree Placed)}
    (h : Decides P (node p ts).ids x good)
    (hP : sort.has p.kind = true ∧ FitInTurn p.kind.arrangement.remaining p.kind.arrangement.always ts ↔ P) :
    Decides ((node p ts).Fits sort) (node p ts).ids x good :=
  h.congr (fits_node.trans hP).symm

mutual

theorem expr_reads : ∀ s : OrderedTree Placed, Reads .anExpression expr Expr.parts s
  | .node ⟨id, kind, span⟩ ts => by
    cases kind with
    | expr k =>
      cases k with
      | literal | name =>
        match ts with
        | [] => exact .ofFits (.pure rfl) (by simp)
        | _ :: _ => exact .ofFits (.malformed (mem_ids_node _ _)) (by simp)
      | binary | assign =>
        match ts with
        | [] | [_] | _ :: _ :: _ :: _ => exact .ofFits (.malformed (mem_ids_node _ _)) (by simp)
        | [l, r] =>
          refine .ofFits ((expr_reads l).child (by simp) fun a ha => (expr_reads r).child (by simp) fun b hb =>
            .pure ?_) (by simp)
          simp [Expr.parts, ha, hb, OrderedTree.parts, partsAll, Placed.part]
      | unary | postStep =>
        match ts with
        | [] | _ :: _ :: _ => exact .ofFits (.malformed (mem_ids_node _ _)) (by simp)
        | [e] =>
          refine .ofFits ((expr_reads e).child (by simp) fun a ha => .pure ?_) (by simp)
          simp [Expr.parts, ha, OrderedTree.parts, partsAll, Placed.part]
      | call path =>
        refine .ofFits ((exprs_decides ts).children fun as has => .pure ?_) (by simp)
        simp [Expr.parts, has, OrderedTree.parts, Placed.part, Spanned.made]
    | unit | classDecl | field | method | stmt => exact .ofFits (.malformed (mem_ids_node _ _)) (by simp)
termination_by structural s => s

theorem exprs_decides : ∀ ss : List (OrderedTree Placed),
    Decides (∀ s ∈ ss, s.Fits .anExpression) (idsAll ss) (exprs ss) fun es => Expr.partsAll es = partsAll ss
  | [] => .congr (by simp) (.pure rfl)
  | s :: ss => by
    rw [idsAll_cons]
    refine .congr (P := s.Fits .anExpression ∧ (∀ u ∈ ss, u.Fits .anExpression) ∧ True) (by simp) ?_
    refine ((expr_reads s).within fun _ => List.mem_append_left _).bind fun a ha => ?_
    refine ((exprs_decides ss).within fun _ => List.mem_append_right _).bind fun as has => .pure ?_
    rw [Expr.partsAll, ha, has, partsAll]
termination_by structural ss => ss

end

/-- A `for` whose number of children does not match its flags is refused. -/
theorem stmt_forLoop_refused {init cond update : Bool} {id : NodeId} {span : Span} {ts : List (OrderedTree Placed)}
    (h : ts.length ≠ init.toNat + cond.toNat + update.toNat + 1) :
    stmt (.node ⟨id, .stmt (.forLoop init cond update), span⟩ ts) =
      malformed ⟨id, .stmt (.forLoop init cond update), span⟩ .forParts := by
  cases init <;> cases cond <;> cases update <;>
    rcases ts with _ | ⟨a, _ | ⟨b, _ | ⟨c, _ | ⟨d, _ | ⟨e, ts⟩⟩⟩⟩⟩ <;> first | rfl | exact absurd rfl h

mutual

theorem stmt_reads : ∀ s : OrderedTree Placed, Reads .aStatement stmt Stmt.parts s
  | .node ⟨id, kind, span⟩ ts => by
    cases kind with
    | stmt k =>
      cases k with
      | block =>
        refine .ofFits ((stmts_decides ts).children fun as has => .pure ?_) (by simp)
        simp [Stmt.parts, has, OrderedTree.parts, Placed.part]
      | expression =>
        match ts with
        | [] | _ :: _ :: _ => exact .ofFits (.malformed (mem_ids_node _ _)) (by simp)
        | [e] =>
          refine .ofFits ((expr_reads e).child (by simp) fun a ha => .pure ?_) (by simp)
          simp [Stmt.parts, ha, OrderedTree.parts, partsAll, Placed.part]
      | localVar | ret =>
        match ts with
        | [] => exact .ofFits (.pure rfl) (by simp)
        | [e] =>
          refine .ofFits ((expr_reads e).child (by simp) fun a ha => .pure ?_) (by simp)
          simp [Stmt.parts, Expr.optParts, ha, OrderedTree.parts, partsAll, Placed.part, Spanned.made]
        | _ :: _ :: _ => exact .ofFits (.malformed (mem_ids_node _ _)) (by simp)
      | ifElse =>
        match ts with
        | [] | [_] | _ :: _ :: _ :: _ :: _ => exact .ofFits (.malformed (mem_ids_node _ _)) (by simp)
        | [c, t] =>
          refine .ofFits ((expr_reads c).child (by simp) fun a ha => (stmt_reads t).child (by simp) fun b hb =>
            .pure ?_) (by simp)
          simp [Stmt.parts, ha, hb, OrderedTree.parts, partsAll, Placed.part]
        | [c, t, e] =>
          refine .ofFits ((expr_reads c).child (by simp) fun a ha => (stmt_reads t).child (by simp) fun b hb =>
            (stmt_reads e).child (by simp) fun d hd => .pure ?_) (by simp)
          simp [Stmt.parts, ha, hb, hd, OrderedTree.parts, partsAll, Placed.part]
      | whileLoop =>
        match ts with
        | [] | [_] | _ :: _ :: _ :: _ => exact .ofFits (.malformed (mem_ids_node _ _)) (by simp)
        | [c, b] =>
          refine .ofFits ((expr_reads c).child (by simp) fun a ha => (stmt_reads b).child (by simp) fun d hd =>
            .pure ?_) (by simp)
          simp [Stmt.parts, ha, hd, OrderedTree.parts, partsAll, Placed.part]
      | forLoop init cond update =>
        by_cases hlen : ts.length = init.toNat + cond.toNat + update.toNat + 1
        · match init, cond, update, ts, hlen with
          | false, false, false, [b], _ =>
            refine .ofFits ((stmt_reads b).child (by simp) fun _ hb => .pure ?_) (by simp)
            simp [Stmt.parts, Expr.optParts, hb, OrderedTree.parts, partsAll, Placed.part]
          | false, false, true, [u, b], _ =>
            refine .ofFits ((expr_reads u).child (by simp) fun _ hu =>
              (stmt_reads b).child (by simp) fun _ hb => .pure ?_) (by simp)
            simp [Stmt.parts, Expr.optParts, hu, hb, OrderedTree.parts, partsAll, Placed.part]
          | false, true, false, [c, b], _ =>
            refine .ofFits ((expr_reads c).child (by simp) fun _ hc =>
              (stmt_reads b).child (by simp) fun _ hb => .pure ?_) (by simp)
            simp [Stmt.parts, Expr.optParts, hc, hb, OrderedTree.parts, partsAll, Placed.part]
          | false, true, true, [c, u, b], _ =>
            refine .ofFits ((expr_reads c).child (by simp) fun _ hc => (expr_reads u).child (by simp) fun _ hu =>
              (stmt_reads b).child (by simp) fun _ hb => .pure ?_) (by simp)
            simp [Stmt.parts, Expr.optParts, hc, hu, hb, OrderedTree.parts, partsAll, Placed.part]
          | true, false, false, [i, b], _ =>
            refine .ofFits ((stmt_reads i).child (by simp) fun _ hi =>
              (stmt_reads b).child (by simp) fun _ hb => .pure ?_) (by simp)
            simp [Stmt.parts, Expr.optParts, hi, hb, OrderedTree.parts, partsAll, Placed.part]
          | true, false, true, [i, u, b], _ =>
            refine .ofFits ((stmt_reads i).child (by simp) fun _ hi => (expr_reads u).child (by simp) fun _ hu =>
              (stmt_reads b).child (by simp) fun _ hb => .pure ?_) (by simp)
            simp [Stmt.parts, Expr.optParts, hi, hu, hb, OrderedTree.parts, partsAll, Placed.part]
          | true, true, false, [i, c, b], _ =>
            refine .ofFits ((stmt_reads i).child (by simp) fun _ hi => (expr_reads c).child (by simp) fun _ hc =>
              (stmt_reads b).child (by simp) fun _ hb => .pure ?_) (by simp)
            simp [Stmt.parts, Expr.optParts, hi, hc, hb, OrderedTree.parts, partsAll, Placed.part]
          | true, true, true, [i, c, u, b], _ =>
            refine .ofFits ((stmt_reads i).child (by simp) fun _ hi => (expr_reads c).child (by simp) fun _ hc =>
              (expr_reads u).child (by simp) fun _ hu => (stmt_reads b).child (by simp) fun _ hb => .pure ?_) (by simp)
            simp [Stmt.parts, Expr.optParts, hi, hc, hu, hb, OrderedTree.parts, partsAll, Placed.part]
        · rw [Reads, stmt_forLoop_refused hlen]
          refine .ofFits (.malformed (mem_ids_node _ _)) (iff_false_intro fun h => hlen ?_)
          rw [length_of_fitInTurn h.2, NodeKind.arrangement, StmtKind.arrangement]
          cases init <;> cases cond <;> cases update <;> rfl
      | brk | cont | empty =>
        match ts with
        | [] => exact .ofFits (.pure rfl) (by simp)
        | _ :: _ => exact .ofFits (.malformed (mem_ids_node _ _)) (by simp)
    | unit | classDecl | field | method | expr => exact .ofFits (.malformed (mem_ids_node _ _)) (by simp)
termination_by structural s => s

theorem stmts_decides : ∀ ss : List (OrderedTree Placed),
    Decides (∀ s ∈ ss, s.Fits .aStatement) (idsAll ss) (stmts ss) fun xs => Stmt.partsAll xs = partsAll ss
  | [] => .congr (by simp) (.pure rfl)
  | s :: ss => by
    rw [idsAll_cons]
    refine .congr (P := s.Fits .aStatement ∧ (∀ u ∈ ss, u.Fits .aStatement) ∧ True) (by simp) ?_
    refine ((stmt_reads s).within fun _ => List.mem_append_left _).bind fun a ha => ?_
    refine ((stmts_decides ss).within fun _ => List.mem_append_right _).bind fun as has => .pure ?_
    rw [Stmt.partsAll, ha, has, partsAll]
termination_by structural ss => ss

end

theorem block_reads (s : OrderedTree Placed) : Reads .aBlock block Block.parts s := by
  obtain ⟨⟨id, kind, span⟩, ts⟩ := s
  by_cases hk : kind.isBlock = true
  · have hkind : kind = .stmt .block := by
      unfold NodeKind.isBlock at hk
      split at hk
      · rfl
      · cases hk
    subst hkind
    refine .ofFits ((stmts_decides ts).children fun as has => .pure ?_) (by simp)
    simp [Block.parts, has, OrderedTree.parts, Placed.part]
  · have hread : block (.node ⟨id, kind, span⟩ ts) = malformed ⟨id, kind, span⟩ .aBlock := by
      simp [block, hk]
    rw [Reads, hread]
    refine .ofFits (.malformed (mem_ids_node _ _)) (iff_false_intro fun h => hk ?_)
    exact (NodeSort.has_aBlock kind).symm.trans h.1

theorem member_reads (s : OrderedTree Placed) : Reads .aMember member Member.parts s := by
  obtain ⟨⟨id, kind, span⟩, ts⟩ := s
  cases kind with
  | field =>
    match ts with
    | [] => exact .ofFits (.pure rfl) (by simp)
    | [e] =>
      refine .ofFits ((expr_reads e).child (by simp) fun a ha => .pure ?_) (by simp)
      simp [Member.parts, Expr.optParts, ha, OrderedTree.parts, partsAll, Placed.part, Spanned.made]
    | _ :: _ :: _ => exact .ofFits (.malformed (mem_ids_node _ _)) (by simp)
  | method =>
    match ts with
    | [] | _ :: _ :: _ => exact .ofFits (.malformed (mem_ids_node _ _)) (by simp)
    | [b] =>
      refine .ofFits ((block_reads b).child (by simp) fun a ha => .pure ?_) (by simp)
      rw [Block.parts] at ha
      simp [Member.parts, ha, OrderedTree.parts, partsAll, Placed.part, Spanned.made]
  | unit | classDecl | stmt | expr => exact .ofFits (.malformed (mem_ids_node _ _)) (by simp)

theorem classDecl_reads (s : OrderedTree Placed) : Reads .aClass classDecl ClassDecl.parts s := by
  obtain ⟨⟨id, kind, span⟩, ts⟩ := s
  cases kind with
  | classDecl =>
    refine .ofFits ((mapM_decides member_reads ts).children fun as has => .pure ?_) (by simp)
    simp [ClassDecl.parts, has, OrderedTree.parts, Placed.part, Spanned.made]
  | unit | field | method | stmt | expr => exact .ofFits (.malformed (mem_ids_node _ _)) (by simp)

end Reading

namespace Tree

open OrderedTree

variable {t : Tree}

mutual

/-- A tree that is shown is laid out if all its nodes are. -/
theorem Shows.laidOut_iff : ∀ s : OrderedTree Placed, t.Shows s → (s.LaidOut ↔ ∀ id ∈ s.ids, t.laidOut id = true)
  | .node p ts, ⟨⟨parent, hn⟩, hts⟩ => by
    have htop : t.laidOut p.id = p.kind.arrangement.admits (ts.map (·.label.kind)) := by
      rw [laidOut, hn]
      dsimp only
      rw [ShowsAll.filterMap_kind ts hts]
    rw [LaidOut, ids_node, List.forall_mem_cons, htop, ShowsAll.laidOutAll_iff ts hts]

theorem ShowsAll.laidOutAll_iff : ∀ ts : List (OrderedTree Placed), t.ShowsAll ts →
    (LaidOutAll ts ↔ ∀ id ∈ idsAll ts, t.laidOut id = true)
  | [], _ => by simp [LaidOutAll]
  | s :: ts, ⟨hs, hts⟩ => by
    rw [LaidOutAll, idsAll_cons, List.forall_mem_append, Shows.laidOut_iff s hs, ShowsAll.laidOutAll_iff ts hts]

theorem ShowsAll.filterMap_kind : ∀ ts : List (OrderedTree Placed), t.ShowsAll ts →
    (ts.map (·.label.id)).filterMap (fun c => (t.get? c).map Node.kind) = ts.map (·.label.kind)
  | [], _ => rfl
  | s :: ts, ⟨hs, hts⟩ => by
    obtain ⟨parent, hn⟩ := Shows.top hs
    rw [List.map_cons, List.filterMap_cons, hn, Option.map_some, List.map_cons, ShowsAll.filterMap_kind ts hts]

end

/-- Reading the tree is decided by whether it is laid out. -/
theorem WellFormed.unit?_decides (h : t.WellFormed) : ∃ s, t.subtree? t.root = some s ∧
    Reading.Decides s.LaidOut s.ids t.unit? fun unit => s.label.kind = .unit ∧
      unit.classes.map ClassDecl.parts = partsAll s.children := by
  obtain ⟨n, hn, -, hkind⟩ := h.root
  obtain ⟨s, hs⟩ := h.exists_subtree? hn
  refine ⟨s, hs, ?_⟩
  obtain ⟨hshow, hid⟩ := shows_of_subtree? hs
  obtain ⟨parent, htop⟩ := hshow.top
  have hunit : s.label.kind = .unit := by
    rw [hid, hn] at htop
    cases htop
    exact hkind
  obtain ⟨⟨id, kind, span⟩, ts⟩ := s
  have hlaid : (∀ s ∈ ts, s.Fits .aClass) ∧ True ↔ (node ⟨id, kind, span⟩ ts).LaidOut := by
    rw [and_true, LaidOut, show kind = .unit from hunit]
    exact (fitInTurn_iff : FitInTurn (.anyNumber .aClass) [] ts ↔ _)
  have hread : t.unit? = (do return ⟨← ts.mapM Reading.classDecl⟩ : Reading CompilationUnit) := by
    rw [Tree.unit?, hs]
    rfl
  rw [hread]
  refine .congr hlaid ((Reading.mapM_decides Reading.classDecl_reads ts).children fun classes hc => .pure ?_)
  exact ⟨hunit, hc⟩

end Tree

/-! ## The number of nodes -/

namespace Expr

mutual

/-- The number of expressions at and in an expression. -/
def nodes : Expr → Nat
  | literal _ _ | name _ _ => 1
  | binary _ _ l r => 1 + nodes l + nodes r
  | unary _ _ e | postStep _ _ e => 1 + nodes e
  | assign _ _ target value => 1 + nodes target + nodes value
  | call _ _ args => 1 + nodesAll args

def nodesAll : List Expr → Nat
  | [] => 0
  | e :: es => nodes e + nodesAll es

end

/-- The number of expressions at and in one that may be missing. -/
def optNodes : Option Expr → Nat
  | none => 0
  | some e => e.nodes

end Expr

namespace Stmt

mutual

/-- The number of statements and expressions at and in a statement. -/
def nodes : Stmt → Nat
  | block _ ss => 1 + nodesAll ss
  | expr _ e => 1 + e.nodes
  | localVar _ _ _ init => 1 + Expr.optNodes init
  | ifElse _ c t none => 1 + c.nodes + nodes t
  | ifElse _ c t (some e) => 1 + c.nodes + nodes t + nodes e
  | whileLoop _ c b => 1 + c.nodes + nodes b
  | forLoop _ none c u b => 1 + Expr.optNodes c + Expr.optNodes u + nodes b
  | forLoop _ (some i) c u b => 1 + nodes i + Expr.optNodes c + Expr.optNodes u + nodes b
  | ret _ e => 1 + Expr.optNodes e
  | brk _ | cont _ | empty _ => 1

def nodesAll : List Stmt → Nat
  | [] => 0
  | s :: ss => nodes s + nodesAll ss

end

end Stmt

/-- The number of statements and expressions in a member, and one for the member and one for the body of a method. -/
def Member.nodes : Member → Nat
  | field _ d => 1 + Expr.optNodes d.init
  | method _ d => 1 + (1 + Stmt.nodesAll d.body.stmts)

/-- One for the class, and the nodes of its members. -/
def ClassDecl.nodes (c : ClassDecl) : Nat := 1 + (c.members.map Member.nodes).sum

/-- The number of classes, members, method bodies, statements and expressions in a program. -/
def CompilationUnit.nodes (unit : CompilationUnit) : Nat := (unit.classes.map ClassDecl.nodes).sum

namespace OrderedTree

theorem length_labelsAll_map {α β : Type} (f : β → OrderedTree α) (bs : List β) :
    (labelsAll (bs.map f)).length = (bs.map fun b => (f b).labels.length).sum := by
  induction bs with
  | nil => rfl
  | cons b bs ih => rw [List.map_cons, labelsAll, List.length_append, ih, List.map_cons, List.sum_cons]

end OrderedTree

open OrderedTree

mutual

theorem Expr.length_labels : ∀ e : Expr, e.parts.labels.length = e.nodes
  | .literal _ _ | .name _ _ => rfl
  | .binary _ _ l r | .assign _ _ l r => by
    simp [Expr.parts, labels, labelsAll, Expr.nodes, Expr.length_labels l, Expr.length_labels r]
    omega
  | .unary _ _ e | .postStep _ _ e => by
    simp [Expr.parts, labels, labelsAll, Expr.nodes, Expr.length_labels e]
    omega
  | .call _ _ args => by
    simp [Expr.parts, labels, Expr.nodes, Expr.length_labelsAll args]
    omega

theorem Expr.length_labelsAll : ∀ es : List Expr, (labelsAll (Expr.partsAll es)).length = Expr.nodesAll es
  | [] => rfl
  | e :: es => by
    rw [Expr.partsAll, labelsAll, List.length_append, Expr.length_labels e, Expr.length_labelsAll es, Expr.nodesAll]

end

theorem Expr.length_optLabels (e : Option Expr) : (labelsAll (Expr.optParts e)).length = Expr.optNodes e := by
  cases e with
  | none => rfl
  | some e => simp [Expr.optParts, labelsAll, Expr.optNodes, Expr.length_labels e]

mutual

theorem Stmt.length_labels : ∀ s : Stmt, s.parts.labels.length = s.nodes
  | .block _ ss => by
    simp [Stmt.parts, labels, Stmt.nodes, Stmt.length_labelsAll ss]
    omega
  | .expr _ e => by
    simp [Stmt.parts, labels, labelsAll, Stmt.nodes, Expr.length_labels e]
    omega
  | .localVar _ _ _ e | .ret _ e => by
    simp [Stmt.parts, labels, Stmt.nodes, Expr.length_optLabels e]
    omega
  | .ifElse _ c t none | .whileLoop _ c t => by
    simp [Stmt.parts, labels, labelsAll, Stmt.nodes, Expr.length_labels c, Stmt.length_labels t]
    omega
  | .ifElse _ c t (some e) => by
    simp [Stmt.parts, labels, labelsAll, Stmt.nodes, Expr.length_labels c, Stmt.length_labels t, Stmt.length_labels e]
    omega
  | .forLoop _ none c u b => by
    simp [Stmt.parts, labels, labelsAll, labelsAll_append, Stmt.nodes, Expr.length_optLabels, Stmt.length_labels b]
    omega
  | .forLoop _ (some i) c u b => by
    simp [Stmt.parts, labels, labelsAll, labelsAll_append, Stmt.nodes, Expr.length_optLabels,
      Stmt.length_labels b, Stmt.length_labels i]
    omega
  | .brk _ | .cont _ | .empty _ => rfl

theorem Stmt.length_labelsAll : ∀ ss : List Stmt, (labelsAll (Stmt.partsAll ss)).length = Stmt.nodesAll ss
  | [] => rfl
  | s :: ss => by
    rw [Stmt.partsAll, labelsAll, List.length_append, Stmt.length_labels s, Stmt.length_labelsAll ss, Stmt.nodesAll]

end

theorem Member.length_labels (m : Member) : m.parts.labels.length = m.nodes := by
  cases m with
  | field sp d =>
    simp [Member.parts, labels, Member.nodes, Expr.length_optLabels]
    omega
  | method sp d =>
    simp [Member.parts, labels, labelsAll, Member.nodes, Stmt.length_labelsAll]
    omega

theorem ClassDecl.length_labels (c : ClassDecl) : c.parts.labels.length = c.nodes := by
  simp only [ClassDecl.parts, labels, List.length_cons, length_labelsAll_map, Member.length_labels]
  exact Nat.add_comm _ _

namespace Tree

theorem live_updateNode (t : Tree) (id : NodeId) (f : Node → Node) : (t.updateNode id f).live = t.live := by
  unfold updateNode
  split <;> rfl

theorem live_updateAll (f : Node → Node) (ids : List NodeId) (t : Tree) :
    (ids.foldl (fun t c => t.updateNode c f) t).live = t.live := by
  induction ids generalizing t with
  | nil => rfl
  | cons c ids ih => rw [List.foldl_cons, ih, live_updateNode]

theorem live_insert (t : Tree) (kind : NodeKind) (span : Span) (ids : List NodeId) :
    (t.insert kind span ids).2.live = t.live + 1 := by
  have hreserve : t.reserve.2.live = t.live := by
    unfold reserve
    split <;> rfl
  simp only [insert, live_updateAll, hreserve]

theorem live_link (t : Tree) (p c : NodeId) : (t.link p c).live = t.live := by
  rw [link, live_updateNode, live_updateNode]

mutual

theorem live_insertParts : ∀ (p : OrderedTree Part) (t : Tree), (insertParts p t).2.live = t.live + p.labels.length
  | .node q ps, t => by
    rw [insertParts, live_insert, live_insertAllParts ps t, labels, List.length_cons, Nat.add_assoc]

theorem live_insertAllParts : ∀ (ps : List (OrderedTree Part)) (t : Tree),
    (insertAllParts ps t).2.live = t.live + (labelsAll ps).length
  | [], t => rfl
  | p :: ps, t => by
    rw [insertAllParts, live_insertAllParts ps, live_insertParts p t, labelsAll, List.length_append, Nat.add_assoc]

end

theorem live_linkAll (ids : List NodeId) (t : Tree) :
    (ids.foldl (fun t id => t.link t.root id) t).live = t.live := by
  induction ids generalizing t with
  | nil => rfl
  | cons c ids ih => rw [List.foldl_cons, ih, live_link]

/-- The tree of a program has a node for the root and one for each part. -/
theorem live_ofUnit (unit : CompilationUnit) : (ofUnit unit).live = 1 + unit.nodes := by
  simp only [ofUnit, live_linkAll, live_insertAllParts, length_labelsAll_map, ClassDecl.length_labels]
  rfl

end Tree

/-! ## The same shape -/

mutual

theorem OrderedTree.sameBy_of_parts : ∀ s u : OrderedTree Placed, s.parts = u.parts →
    s.sameBy (fun x y => x.kind == y.kind) u = true
  | .node p ss, .node q us, h => by
    rw [OrderedTree.parts, OrderedTree.parts, node.injEq] at h
    have hkind : p.kind = q.kind := congrArg Part.kind h.1
    simp [sameBy, hkind, sameByAll_of_partsAll ss us h.2]

theorem OrderedTree.sameByAll_of_partsAll : ∀ ss us : List (OrderedTree Placed), partsAll ss = partsAll us →
    sameByAll (fun x y => x.kind == y.kind) ss us = true
  | [], [], _ => rfl
  | s :: ss, u :: us, h => by
    rw [partsAll, partsAll, List.cons.injEq] at h
    rw [sameByAll, sameBy_of_parts s u h.1, sameByAll_of_partsAll ss us h.2]
    rfl
  | [], _ :: _, h => nomatch h
  | _ :: _, [], h => nomatch h

end

namespace Tree

variable {t : Tree}

/-- The tree of a program has the shape of every tree whose nodes stand for the parts of the program. -/
theorem sameShape_ofUnit {unit : CompilationUnit} {s : OrderedTree Placed} (hs : t.subtree? t.root = some s)
    (hkind : s.label.kind = .unit) (hparts : unit.classes.map ClassDecl.parts = partsAll s.children) :
    (ofUnit unit).sameShape (ofUnit unit).root t t.root = true := by
  obtain ⟨hwf, ss, hshow, hss⟩ := ofUnit_spec unit
  have hroot : (ofUnit unit).subtree? (ofUnit unit).root = some _ := hwf.subtree?_of_shows hshow
  rw [sameShape, hroot, hs]
  obtain ⟨⟨id, kind, span⟩, ts⟩ := s
  dsimp only
  rw [sameBy, sameByAll_of_partsAll ss ts (hss.trans hparts), show kind = .unit from hkind]
  rfl

/-- Putting a program into a tree and reading it gives the program without the spans that no node keeps, and takes
one node for the root and one for each class, member, method body, statement and expression. A reachable tree is
read as a program exactly if the children of every node at and below its root are arranged as the node's kind says;
then the tree of the program has the shape of the tree that was read, and else reading fails at one of those nodes. -/
theorem reads_iff_laidOut :
    (∀ unit : CompilationUnit, (ofUnit unit).unit? = .ok unit.unplaced ∧ (ofUnit unit).live = 1 + unit.nodes) ∧
    ∀ t : Tree, t.Reachable →
      ((∃ unit, t.unit? = .ok unit) ↔ ∀ id ∈ t.descendants t.root, t.laidOut id = true) ∧
      (∀ unit, t.unit? = .ok unit → (ofUnit unit).sameShape (ofUnit unit).root t t.root = true) ∧
      ∀ e, t.unit? = .error e → ∃ id ∈ t.descendants t.root, ∃ expected, e = .malformed id expected := by
  refine ⟨fun unit => ⟨(holds_ofUnit unit).unit?_eq, live_ofUnit unit⟩, fun t h => ?_⟩
  obtain ⟨s, hs, hdec⟩ := h.wellFormed.unit?_decides
  have hids : t.descendants t.root = s.ids := by
    rw [descendants, hs]
    rfl
  rw [hids, ← (shows_of_subtree? hs).1.laidOut_iff]
  by_cases hlaid : s.LaidOut
  · obtain ⟨unit, hunit, hkind, hparts⟩ := hdec.read hlaid
    rw [hunit]
    refine ⟨⟨fun _ => hlaid, fun _ => ⟨unit, rfl⟩⟩, ?_, nofun⟩
    rintro _ ⟨⟩
    exact sameShape_ofUnit hs hkind hparts
  · obtain ⟨id, hid, expected, herror⟩ := hdec.refused hlaid
    rw [herror]
    refine ⟨⟨nofun, fun h => absurd h hlaid⟩, nofun, ?_⟩
    rintro _ ⟨⟩
    exact ⟨id, hid, expected, rfl⟩

/-- A class may hold no block. -/
theorem reads_iff_laidOut_refused :
    let ops : List Operation := [.alloc (.stmt .block) .dummy [], .alloc (.classDecl [] "A") .dummy [⟨1, 0⟩],
      .pushChild ⟨0, 0⟩ ⟨2, 0⟩]
    let t := ops.foldl Operation.after empty
    t.Reachable ∧ t.laidOut ⟨2, 0⟩ = false ∧ ¬ ∃ unit, t.unit? = .ok unit := by
  intro ops t
  have ht : t.Reachable := .step (.pushChild ⟨0, 0⟩ ⟨2, 0⟩)
    (.step (.alloc (.classDecl [] "A") .dummy [⟨1, 0⟩]) (.step (.alloc (.stmt .block) .dummy []) .empty))
  refine ⟨ht, rfl, fun hread => ?_⟩
  have hall := (reads_iff_laidOut.2 t ht).1.mp hread ⟨2, 0⟩ (by decide)
  cases hall

end Tree

end JavaFold
