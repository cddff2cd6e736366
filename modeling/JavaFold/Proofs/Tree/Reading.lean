import JavaFold.Proofs.Tree.Programs

/-!
# Reading a program from a tree

A tree whose nodes stand for the parts of a program is read as this program, but for the spans of names,
types and paths, which no node keeps (`CompilationUnit.unplaced`).
-/

namespace JavaFold

namespace Expr

mutual

/-- The expression without the spans of paths. -/
def unplaced : Expr → Expr
  | literal s v => literal s v
  | name s x => name s x
  | binary s op l r => binary s op (unplaced l) (unplaced r)
  | unary s op e => unary s op (unplaced e)
  | postStep s op e => postStep s op (unplaced e)
  | assign s op t v => assign s op (unplaced t) (unplaced v)
  | call s path args => call s (.made path.value) (unplacedAll args)

def unplacedAll : List Expr → List Expr
  | [] => []
  | e :: es => unplaced e :: unplacedAll es

end

end Expr

namespace Stmt

mutual

/-- The statement without the spans of names, types and paths. -/
def unplaced : Stmt → Stmt
  | block s ss => block s (unplacedAll ss)
  | expr s e => expr s e.unplaced
  | localVar s ty name init =>
    localVar s (.made ty.value) (.made name.value) (init.map Expr.unplaced)
  | ifElse s c t none => ifElse s c.unplaced (unplaced t) none
  | ifElse s c t (some e) => ifElse s c.unplaced (unplaced t) (some (unplaced e))
  | whileLoop s c b => whileLoop s c.unplaced (unplaced b)
  | forLoop s none c u b => forLoop s none (c.map Expr.unplaced) (u.map Expr.unplaced) (unplaced b)
  | forLoop s (some i) c u b =>
    forLoop s (some (unplaced i)) (c.map Expr.unplaced) (u.map Expr.unplaced) (unplaced b)
  | ret s e => ret s (e.map Expr.unplaced)
  | brk s => brk s
  | cont s => cont s
  | empty s => empty s

def unplacedAll : List Stmt → List Stmt
  | [] => []
  | s :: ss => unplaced s :: unplacedAll ss

end

end Stmt

def FieldDecl.unplaced (d : FieldDecl) : FieldDecl :=
  ⟨d.modifiers, .made d.ty.value, .made d.name.value, d.init.map Expr.unplaced⟩

def MethodDecl.unplaced (d : MethodDecl) : MethodDecl :=
  ⟨d.modifiers, .made d.ret.value, .made d.name.value, d.params,
    ⟨d.body.span, Stmt.unplacedAll d.body.stmts⟩⟩

/-- The member without the spans of names, types and paths. -/
def Member.unplaced : Member → Member
  | field s d => field s d.unplaced
  | method s d => method s d.unplaced

def ClassDecl.unplaced (c : ClassDecl) : ClassDecl :=
  ⟨c.span, c.modifiers, .made c.name.value, c.members.map Member.unplaced⟩

def CompilationUnit.unplaced (unit : CompilationUnit) : CompilationUnit :=
  ⟨unit.classes.map ClassDecl.unplaced⟩

namespace Reading

open OrderedTree

mutual

theorem expr_of_parts : ∀ (e : Expr) {s : OrderedTree Placed}, s.parts = e.parts →
    expr s = .ok e.unplaced
  | .literal sp v, s, h => by
    obtain ⟨id, ts, rfl, hts⟩ := parts_eq_node h
    cases partsAll_eq_nil hts
    rfl
  | .name sp x, s, h => by
    obtain ⟨id, ts, rfl, hts⟩ := parts_eq_node h
    cases partsAll_eq_nil hts
    rfl
  | .binary sp op l r, s, h => by
    obtain ⟨id, ts, rfl, hts⟩ := parts_eq_node h
    obtain ⟨sl, sr, rfl, hl, hr⟩ := partsAll_eq_pair hts
    simp only [expr, expr_of_parts l hl, expr_of_parts r hr]
    rfl
  | .unary sp op e, s, h => by
    obtain ⟨id, ts, rfl, hts⟩ := parts_eq_node h
    obtain ⟨se, rfl, he⟩ := partsAll_eq_singleton hts
    simp only [expr, expr_of_parts e he]
    rfl
  | .postStep sp op e, s, h => by
    obtain ⟨id, ts, rfl, hts⟩ := parts_eq_node h
    obtain ⟨se, rfl, he⟩ := partsAll_eq_singleton hts
    simp only [expr, expr_of_parts e he]
    rfl
  | .assign sp op t v, s, h => by
    obtain ⟨id, ts, rfl, hts⟩ := parts_eq_node h
    obtain ⟨st, sv, rfl, ht, hv⟩ := partsAll_eq_pair hts
    simp only [expr, expr_of_parts t ht, expr_of_parts v hv]
    rfl
  | .call sp path args, s, h => by
    obtain ⟨id, ts, rfl, hts⟩ := parts_eq_node h
    simp only [expr, exprs_of_parts args hts]
    rfl

theorem exprs_of_parts : ∀ (es : List Expr) {ss : List (OrderedTree Placed)},
    partsAll ss = Expr.partsAll es → exprs ss = .ok (Expr.unplacedAll es)
  | [], ss, h => by
    cases partsAll_eq_nil h
    rfl
  | e :: es, ss, h => by
    obtain ⟨s, ss, rfl, hs, hss⟩ := partsAll_eq_cons h
    simp only [exprs, expr_of_parts e hs, exprs_of_parts es hss]
    rfl

end

mutual

theorem stmt_of_parts : ∀ (x : Stmt) {s : OrderedTree Placed}, s.parts = x.parts →
    stmt s = .ok x.unplaced
  | .block sp xs, s, h => by
    obtain ⟨id, ts, rfl, hts⟩ := parts_eq_node h
    simp only [stmt, stmts_of_parts xs hts]
    rfl
  | .expr sp e, s, h => by
    obtain ⟨id, ts, rfl, hts⟩ := parts_eq_node h
    obtain ⟨se, rfl, he⟩ := partsAll_eq_singleton hts
    simp only [stmt, expr_of_parts e he]
    rfl
  | .localVar sp ty name init, s, h => by
    obtain ⟨id, ts, rfl, hts⟩ := parts_eq_node h
    rcases partsAll_eq_optParts hts with ⟨rfl, rfl⟩ | ⟨e, se, rfl, rfl, he⟩
    · rfl
    · simp only [stmt, expr_of_parts e he]
      rfl
  | .ifElse sp c t none, s, h => by
    obtain ⟨id, ts, rfl, hts⟩ := parts_eq_node h
    obtain ⟨sc, st, rfl, hc, ht⟩ := partsAll_eq_pair hts
    simp only [stmt, expr_of_parts c hc, stmt_of_parts t ht]
    rfl
  | .ifElse sp c t (some e), s, h => by
    obtain ⟨id, ts, rfl, hts⟩ := parts_eq_node h
    obtain ⟨sc, ss, rfl, hc, hss⟩ := partsAll_eq_cons hts
    obtain ⟨st, se, rfl, ht, he⟩ := partsAll_eq_pair hss
    simp only [stmt, expr_of_parts c hc, stmt_of_parts t ht, stmt_of_parts e he]
    rfl
  | .whileLoop sp c b, s, h => by
    obtain ⟨id, ts, rfl, hts⟩ := parts_eq_node h
    obtain ⟨sc, sb, rfl, hc, hb⟩ := partsAll_eq_pair hts
    simp only [stmt, expr_of_parts c hc, stmt_of_parts b hb]
    rfl
  | .forLoop sp none c u b, s, h => by
    obtain ⟨id, ts, rfl, hts⟩ := parts_eq_node h
    obtain ⟨sc, su, sb, rfl, hc, hu, hb⟩ := partsAll_eq_looped hts
    have hbody := stmt_of_parts b hb
    rcases partsAll_eq_optParts hc with ⟨rfl, rfl⟩ | ⟨c, sc, rfl, rfl, hcond⟩
    · rcases partsAll_eq_optParts hu with ⟨rfl, rfl⟩ | ⟨u, su, rfl, rfl, hupdate⟩
      · simp only [stmt, List.nil_append, Option.isSome, hbody]
        rfl
      · simp only [stmt, List.nil_append, List.singleton_append, Option.isSome, expr_of_parts u hupdate,
          hbody]
        rfl
    · rcases partsAll_eq_optParts hu with ⟨rfl, rfl⟩ | ⟨u, su, rfl, rfl, hupdate⟩
      · simp only [stmt, List.append_nil, List.singleton_append, Option.isSome, expr_of_parts c hcond,
          hbody]
        rfl
      · simp only [stmt, List.cons_append, List.nil_append, Option.isSome, expr_of_parts c hcond,
          expr_of_parts u hupdate, hbody]
        rfl
  | .forLoop sp (some i) c u b, s, h => by
    obtain ⟨id, ts, rfl, hts⟩ := parts_eq_node h
    obtain ⟨si, ts, rfl, hi, hts⟩ := partsAll_eq_cons hts
    obtain ⟨sc, su, sb, rfl, hc, hu, hb⟩ := partsAll_eq_looped hts
    have hinit := stmt_of_parts i hi
    have hbody := stmt_of_parts b hb
    rcases partsAll_eq_optParts hc with ⟨rfl, rfl⟩ | ⟨c, sc, rfl, rfl, hcond⟩
    · rcases partsAll_eq_optParts hu with ⟨rfl, rfl⟩ | ⟨u, su, rfl, rfl, hupdate⟩
      · simp only [stmt, List.nil_append, Option.isSome, hinit, hbody]
        rfl
      · simp only [stmt, List.nil_append, List.singleton_append, Option.isSome, hinit,
          expr_of_parts u hupdate, hbody]
        rfl
    · rcases partsAll_eq_optParts hu with ⟨rfl, rfl⟩ | ⟨u, su, rfl, rfl, hupdate⟩
      · simp only [stmt, List.append_nil, List.singleton_append, Option.isSome, hinit,
          expr_of_parts c hcond, hbody]
        rfl
      · simp only [stmt, List.cons_append, List.nil_append, Option.isSome, hinit, expr_of_parts c hcond,
          expr_of_parts u hupdate, hbody]
        rfl
  | .ret sp e, s, h => by
    obtain ⟨id, ts, rfl, hts⟩ := parts_eq_node h
    rcases partsAll_eq_optParts hts with ⟨rfl, rfl⟩ | ⟨e, se, rfl, rfl, he⟩
    · rfl
    · simp only [stmt, expr_of_parts e he]
      rfl
  | .brk sp, s, h => by
    obtain ⟨id, ts, rfl, hts⟩ := parts_eq_node h
    cases partsAll_eq_nil hts
    rfl
  | .cont sp, s, h => by
    obtain ⟨id, ts, rfl, hts⟩ := parts_eq_node h
    cases partsAll_eq_nil hts
    rfl
  | .empty sp, s, h => by
    obtain ⟨id, ts, rfl, hts⟩ := parts_eq_node h
    cases partsAll_eq_nil hts
    rfl

theorem stmts_of_parts : ∀ (xs : List Stmt) {ss : List (OrderedTree Placed)},
    partsAll ss = Stmt.partsAll xs → stmts ss = .ok (Stmt.unplacedAll xs)
  | [], ss, h => by
    cases partsAll_eq_nil h
    rfl
  | x :: xs, ss, h => by
    obtain ⟨s, ss, rfl, hs, hss⟩ := partsAll_eq_cons h
    simp only [stmts, stmt_of_parts x hs, stmts_of_parts xs hss]
    rfl

end

theorem member_of_parts (m : Member) {s : OrderedTree Placed} (h : s.parts = m.parts) :
    member s = .ok m.unplaced := by
  cases m with
  | field sp d =>
    obtain ⟨modifiers, ty, name, init⟩ := d
    obtain ⟨id, ts, rfl, hts⟩ := parts_eq_node h
    rcases partsAll_eq_optParts hts with ⟨rfl, rfl⟩ | ⟨e, se, rfl, rfl, he⟩
    · rfl
    · simp only [member, expr_of_parts e he]
      rfl
  | method sp d =>
    obtain ⟨id, ts, rfl, hts⟩ := parts_eq_node h
    obtain ⟨sb, rfl, hb⟩ := partsAll_eq_singleton hts
    obtain ⟨id', bs, rfl, hbs⟩ := parts_eq_node hb
    simp only [member, block, NodeKind.isBlock, if_true, stmts_of_parts d.body.stmts hbs]
    rfl

/-- Things that are read one by one. -/
theorem mapM_of_parts {α : Type} {read : OrderedTree Placed → Reading α} {part : α → OrderedTree Part}
    {unplaced : α → α} (h : ∀ a {s : OrderedTree Placed}, s.parts = part a → read s = .ok (unplaced a)) :
    ∀ {as : List α} {ss : List (OrderedTree Placed)}, partsAll ss = as.map part →
      ss.mapM read = .ok (as.map unplaced) := by
  intro as
  induction as with
  | nil =>
    intro ss hp
    cases partsAll_eq_nil hp
    rfl
  | cons a as ih =>
    intro ss hp
    obtain ⟨s, ss, rfl, hs, hss⟩ := partsAll_eq_cons hp
    rw [List.mapM_cons, h a hs, ih hss]
    rfl

theorem classDecl_of_parts (c : ClassDecl) {s : OrderedTree Placed} (h : s.parts = c.parts) :
    classDecl s = .ok c.unplaced := by
  obtain ⟨id, ts, rfl, hts⟩ := parts_eq_node h
  simp only [classDecl, mapM_of_parts member_of_parts hts]
  rfl

end Reading

/-- A tree whose nodes stand for the classes of a program is read as that program. -/
theorem Tree.unit?_of_parts {t : Tree} {s : OrderedTree Placed} {unit : CompilationUnit}
    (hs : t.subtree? t.root = some s)
    (h : OrderedTree.partsAll s.children = unit.classes.map ClassDecl.parts) :
    t.unit? = .ok unit.unplaced := by
  rw [Tree.unit?, hs]
  dsimp only
  rw [Reading.mapM_of_parts Reading.classDecl_of_parts h]
  rfl

theorem Tree.Holds.unit?_eq {t : Tree} {unit : CompilationUnit} (h : t.Holds unit) :
    t.unit? = .ok unit.unplaced := by
  obtain ⟨hwf, ss, hs, hparts⟩ := h
  exact unit?_of_parts (hwf.subtree?_of_shows hs) hparts

end JavaFold
