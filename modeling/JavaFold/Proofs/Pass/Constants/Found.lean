import JavaFold.Pass.Constants
import JavaFold.Proofs.Pass.Constants.Plug
import JavaFold.Proofs.Pass.Constants.Propagation
import JavaFold.Proofs.Tree.Kinds

/-!
# What the analysis finds

The analysis goes through the tree of a program just as `analysed` goes through the program: it comes to
the same values and to the same knowledge, and the replacements that it finds make the tree of the
propagated program out of the tree of the program (`finds_expr`, `finds_stmt`, `plug_replacements`).
-/

namespace JavaFold

open OrderedTree

namespace Constants

/-! ## What may be written to -/

/-- The top of the tree of an expression tells its name. -/
theorem name?_of_kinds {s : OrderedTree Placed} {e : Expr} (h : s.kinds = e.kinds) :
    s.label.kind.name? = e.name? := by
  cases e <;> obtain ⟨id, span, ts, rfl, -⟩ := kinds_eq_node h <;> rfl

theorem writtenIn_append (ss us : List (OrderedTree Placed)) :
    writtenIn (ss ++ us) = writtenIn ss ++ writtenIn us := by
  have h : subtreesAll (ss ++ us) = subtreesAll ss ++ subtreesAll us := by
    induction ss with
    | nil => rfl
    | cons s ss ih => rw [List.cons_append, subtreesAll, subtreesAll, ih, List.append_assoc]
  rw [writtenIn, h, List.filterMap_append, writtenIn, writtenIn]

theorem writtenIn_cons (s : OrderedTree Placed) (ss : List (OrderedTree Placed)) :
    writtenIn (s :: ss) = writtenIn [s] ++ writtenIn ss := by
  exact writtenIn_append [s] ss

theorem writtenIn_node (p : Placed) (ts : List (OrderedTree Placed)) :
    writtenIn [.node p ts] = (written? (.node p ts)).toList ++ writtenIn ts := by
  rw [writtenIn, subtreesAll, subtreesAll, List.append_nil, subtrees, List.filterMap_cons, writtenIn]
  cases written? (.node p ts) <;> rfl

/-- The name that a node writes to, given the tree of its target. -/
theorem target_of_kinds {s : OrderedTree Placed} {e : Expr} (h : s.kinds = e.kinds) :
    (s.label.kind.name?.filter (!isDotted ·)) = e.target := by
  rw [name?_of_kinds h, Expr.target]

mutual

theorem writtenIn_expr : ∀ (e : Expr) {s : OrderedTree Placed}, s.kinds = e.kinds →
    writtenIn [s] = e.written
  | .literal sp v, s, h => by
    obtain ⟨id, span, ts, rfl, hts⟩ := kinds_eq_node h
    rw [writtenIn_node, kindsAll_eq_nil hts]
    rfl
  | .name sp x, s, h => by
    obtain ⟨id, span, ts, rfl, hts⟩ := kinds_eq_node h
    rw [writtenIn_node, kindsAll_eq_nil hts]
    rfl
  | .binary sp op l r, s, h => by
    obtain ⟨id, span, ts, rfl, hts⟩ := kinds_eq_node h
    obtain ⟨sl, sr, rfl, hl, hr⟩ := kindsAll_eq_pair hts
    rw [writtenIn_node, writtenIn_cons, writtenIn_expr l hl, writtenIn_expr r hr, Expr.written]
    rfl
  | .unary sp op e, s, h => by
    obtain ⟨id, span, ts, rfl, hts⟩ := kinds_eq_node h
    obtain ⟨se, rfl, he⟩ := kindsAll_eq_singleton hts
    rw [writtenIn_node, writtenIn_expr e he]
    cases op with
    | step op =>
      rw [Expr.written, ← target_of_kinds he]
      rfl
    | _ => rfl
  | .postStep sp op e, s, h => by
    obtain ⟨id, span, ts, rfl, hts⟩ := kinds_eq_node h
    obtain ⟨se, rfl, he⟩ := kindsAll_eq_singleton hts
    rw [writtenIn_node, writtenIn_expr e he, Expr.written, ← target_of_kinds he]
    rfl
  | .assign sp op t v, s, h => by
    obtain ⟨id, span, ts, rfl, hts⟩ := kinds_eq_node h
    obtain ⟨st, sv, rfl, ht, hv⟩ := kindsAll_eq_pair hts
    rw [writtenIn_node, writtenIn_cons, writtenIn_expr t ht, writtenIn_expr v hv, Expr.written,
      ← target_of_kinds ht]
    rfl
  | .call sp path args, s, h => by
    obtain ⟨id, span, ts, rfl, hts⟩ := kinds_eq_node h
    rw [writtenIn_node, writtenIn_exprs args hts, Expr.written]
    rfl

theorem writtenIn_exprs : ∀ (es : List Expr) {ss : List (OrderedTree Placed)},
    kindsAll ss = Expr.kindsAll es → writtenIn ss = Expr.writtenAll es
  | [], ss, h => by
    rw [kindsAll_eq_nil h]
    rfl
  | e :: es, ss, h => by
    obtain ⟨s, ss, rfl, hs, hss⟩ := kindsAll_eq_cons h
    rw [writtenIn_cons, writtenIn_expr e hs, writtenIn_exprs es hss, Expr.writtenAll]

end

theorem writtenIn_opt {e : Option Expr} {ss : List (OrderedTree Placed)}
    (h : kindsAll ss = Expr.optKinds e) : writtenIn ss = Expr.writtenOpt e := by
  rcases kindsAll_eq_optKinds h with ⟨rfl, rfl⟩ | ⟨e, s, rfl, rfl, hs⟩
  · rfl
  · exact writtenIn_expr e hs

mutual

theorem writtenIn_stmt : ∀ (x : Stmt) {s : OrderedTree Placed}, s.kinds = x.kinds →
    writtenIn [s] = x.written
  | .block sp body, s, h => by
    obtain ⟨id, span, ts, rfl, hts⟩ := kinds_eq_node h
    rw [writtenIn_node, writtenIn_stmts body hts]
    rfl
  | .expr sp e, s, h => by
    obtain ⟨id, span, ts, rfl, hts⟩ := kinds_eq_node h
    obtain ⟨se, rfl, he⟩ := kindsAll_eq_singleton hts
    rw [writtenIn_node, writtenIn_expr e he]
    rfl
  | .localVar sp ty name init, s, h => by
    obtain ⟨id, span, ts, rfl, hts⟩ := kinds_eq_node h
    rw [writtenIn_node, writtenIn_opt hts]
    rfl
  | .ifElse sp c t none, s, h => by
    obtain ⟨id, span, ts, rfl, hts⟩ := kinds_eq_node h
    obtain ⟨sc, st, rfl, hc, ht⟩ := kindsAll_eq_pair hts
    rw [writtenIn_node, writtenIn_cons, writtenIn_expr c hc, writtenIn_stmt t ht, Stmt.written]
    rfl
  | .ifElse sp c t (some e), s, h => by
    obtain ⟨id, span, ts, rfl, hts⟩ := kinds_eq_node h
    obtain ⟨sc, ss, rfl, hc, hss⟩ := kindsAll_eq_cons hts
    obtain ⟨st, se, rfl, ht, he⟩ := kindsAll_eq_pair hss
    rw [writtenIn_node, writtenIn_cons, writtenIn_cons st, writtenIn_expr c hc, writtenIn_stmt t ht,
      writtenIn_stmt e he, Stmt.written]
    rfl
  | .whileLoop sp c b, s, h => by
    obtain ⟨id, span, ts, rfl, hts⟩ := kinds_eq_node h
    obtain ⟨sc, sb, rfl, hc, hb⟩ := kindsAll_eq_pair hts
    rw [writtenIn_node, writtenIn_cons, writtenIn_expr c hc, writtenIn_stmt b hb, Stmt.written]
    rfl
  | .forLoop sp none c u b, s, h => by
    obtain ⟨id, span, ts, rfl, hts⟩ := kinds_eq_node h
    obtain ⟨sc, su, sb, rfl, hc, hu, hb⟩ := kindsAll_eq_looped hts
    rw [writtenIn_node, writtenIn_append, writtenIn_append, writtenIn_opt hc, writtenIn_opt hu,
      writtenIn_stmt b hb, Stmt.written,
      List.append_assoc (Expr.writtenOpt c)]
    rfl
  | .forLoop sp (some i) c u b, s, h => by
    obtain ⟨id, span, ts, rfl, hts⟩ := kinds_eq_node h
    obtain ⟨si, ts, rfl, hi, hts⟩ := kindsAll_eq_cons hts
    obtain ⟨sc, su, sb, rfl, hc, hu, hb⟩ := kindsAll_eq_looped hts
    rw [writtenIn_node, writtenIn_cons, writtenIn_stmt i hi, writtenIn_append, writtenIn_append,
      writtenIn_opt hc, writtenIn_opt hu, writtenIn_stmt b hb, Stmt.written,
      List.append_assoc (Expr.writtenOpt c)]
    rfl
  | .ret sp e, s, h => by
    obtain ⟨id, span, ts, rfl, hts⟩ := kinds_eq_node h
    rw [writtenIn_node, writtenIn_opt hts]
    rfl
  | .brk sp, s, h => by
    obtain ⟨id, span, ts, rfl, hts⟩ := kinds_eq_node h
    rw [writtenIn_node, kindsAll_eq_nil hts]
    rfl
  | .cont sp, s, h => by
    obtain ⟨id, span, ts, rfl, hts⟩ := kinds_eq_node h
    rw [writtenIn_node, kindsAll_eq_nil hts]
    rfl
  | .empty sp, s, h => by
    obtain ⟨id, span, ts, rfl, hts⟩ := kinds_eq_node h
    rw [writtenIn_node, kindsAll_eq_nil hts]
    rfl

theorem writtenIn_stmts : ∀ (xs : List Stmt) {ss : List (OrderedTree Placed)},
    kindsAll ss = Stmt.kindsAll xs → writtenIn ss = Stmt.writtenAll xs
  | [], ss, h => by
    rw [kindsAll_eq_nil h]
    rfl
  | x :: xs, ss, h => by
    obtain ⟨s, ss, rfl, hs, hss⟩ := kindsAll_eq_cons h
    rw [writtenIn_cons, writtenIn_stmt x hs, writtenIn_stmts xs hss, Stmt.writtenAll]

end

/-! ## Steps of the analysis -/

namespace Analyse

variable {α β : Type} {st : State}

theorem run_then (x : Analyse α) (f : α → Analyse β) :
    (x >>= f).run st = (f (x.run st).1).run (x.run st).2 := rfl

theorem run_flow : flow.run st = (st.flow, st) := rfl

theorem run_setFlow (flow : Flow) :
    (setFlow flow).run st = ((), ⟨flow, st.scopes, st.found⟩) := rfl

theorem run_aside (x : Analyse α) :
    (aside x).run st = ((x.run st).1, ⟨st.flow, (x.run st).2.scopes, (x.run st).2.found⟩) := rfl

theorem run_forgetFields :
    forgetFields.run st = ((), ⟨st.flow.forgetFields st.scopes, st.scopes, st.found⟩) := rfl

theorem run_bind (fields : Scope) (name : String) (value : Option Literal) :
    (bind fields name value).run st =
      ((), ⟨st.flow.give fields st.scopes name value, st.scopes, st.found⟩) := rfl

theorem run_write (fields : Scope) (name : String) (value : Option Literal) :
    (write fields name value).run st =
      ((), ⟨st.flow.write fields st.scopes name value, st.scopes, st.found⟩) := by
  rw [write, Flow.write]
  split <;> rfl

theorem run_enterLoop (ts : List (OrderedTree Placed)) :
    (enterLoop ts).run st =
      ((), ⟨st.flow.enterLoop st.scopes (writtenIn ts), st.scopes, st.found⟩) := rfl

theorem run_enterScope :
    enterScope.run st = ((), ⟨st.flow, [] :: st.scopes, st.found⟩) := rfl

theorem run_declare (name : String) (ty : Ty) :
    (declare name ty).run st = ((), ⟨st.flow, declaring name ty st.scopes, st.found⟩) := by
  obtain ⟨flow, scopes, found⟩ := st
  cases scopes <;> rfl

theorem run_leaveScope :
    leaveScope.run st = ((), ⟨st.flow.leave (st.scopes.headD []), st.scopes.tail, st.found⟩) := by
  obtain ⟨flow, scopes, found⟩ := st
  cases scopes with
  | nil => cases flow <;> rfl
  | cons scope scopes => rfl

theorem run_replace (id : NodeId) (v : Literal) :
    (replace id v).run st = (⟨some v, true⟩, ⟨st.flow, st.scopes, ⟨id, v⟩ :: st.found⟩) := rfl

/-- The statement that has `n` children before it. -/
theorem nthStmt_eq (fields : Scope) : ∀ (n : Nat) (ts : List (OrderedTree Placed)),
    nthStmt fields n ts = (ts[n]?).elim (return ()) (stmt fields)
  | n, [] => by rw [nthStmt]; rfl
  | 0, t :: ts => by rw [nthStmt]; rfl
  | n + 1, t :: ts => by rw [nthStmt, nthStmt_eq fields n ts]; rfl

end Analyse

/-! ## Expressions -/

section

open Propagated Analyse

variable {t : Tree} {fields : Scope}

/-- The step `x` of the analysis gets from `st` to the result `a` and to `flow` and `scopes`, and what it
finds makes `outs` of the trees `ss`. -/
def Finds {α : Type} (x : Analyse α) (st : State) (a : α) (flow : Flow)
    (scopes : List Scope) (ss : List (OrderedTree Placed)) (outs : List (OrderedTree Part)) : Prop :=
  ∃ rs, Yields ss rs outs ∧ x.run st = (a, ⟨flow, scopes, rs.reverse ++ st.found⟩)

/-- Where nothing is found, the trees stay as they are. -/
theorem finds_nothing {α : Type} {x : Analyse α} {st : State} {a : α} {flow : Flow}
    {scopes : List Scope} {ss : List (OrderedTree Placed)} {outs : List (OrderedTree Part)}
    (hp : partsAll ss = outs) (h : x.run st = (a, ⟨flow, scopes, st.found⟩)) :
    Finds x st a flow scopes ss outs := by
  exact ⟨[], hp ▸ .unchanged ss, h⟩

/-- An operator settles as on the program. -/
theorem run_settle {p : Placed} {ss : List (OrderedTree Placed)} {outs : List (OrderedTree Part)}
    {rs : List Replacement} {e : Expr} (h : t.WellFormed) (hs : t.Shows (.node p ss))
    (hrs : Yields ss rs outs) (he : e.parts = .node p.part outs) (hlit : e.isLiteral = false)
    (operands : List Propagated) (value : Option Literal) (flow : Flow) (scopes : List Scope)
    (found : List Replacement) :
    let values : List Value := operands.map fun r => ⟨r.value, r.expr.isLiteral⟩
    let out := settled p.span value (operands.map (·.expr)) e
    ∃ rs', Yields [.node p ss] rs' [out.parts] ∧
      (Analyse.settle p.id value values).run ⟨flow, scopes, rs.reverse ++ found⟩ =
        (⟨value, out.isLiteral⟩, ⟨flow, scopes, rs'.reverse ++ found⟩) := by
  intro values out
  have hall : values.all (·.isLiteral) = (operands.map (·.expr)).all Expr.isLiteral := by
    rw [List.all_map, List.all_map]
    rfl
  cases value with
  | none =>
    refine ⟨rs, ?_, ?_⟩
    · rw [show out = e from rfl, he]
      exact hrs.node h hs
    · rw [show out = e from rfl, hlit]
      rfl
  | some v =>
    rw [Analyse.settle, hall]
    by_cases hops : (operands.map (·.expr)).all Expr.isLiteral = true
    · have hout : out = .literal p.span v := if_pos hops
      rw [if_pos hops, run_replace, hout]
      exact ⟨_, hrs.replaced h hs v, by rw [List.reverse_append]; rfl⟩
    · have hout : out = e := if_neg hops
      rw [if_neg hops, hout, he, hlit]
      exact ⟨rs, hrs.node h hs, rfl⟩

/-- A step of a variable changes no node. -/
theorem finds_step {s u : OrderedTree Placed} {target e : Expr} (hs : s.parts = target.parts)
    (hu : u.parts = e.parts) (hlit : e.isLiteral = false) (op : StepOp) (isAfter : Bool) (st : State) :
    let r := Propagated.step fields st.scopes op isAfter target e st.flow
    Finds (Analyse.step fields op isAfter s) st ⟨r.value, r.expr.isLiteral⟩ r.flow st.scopes [u]
      [r.expr.parts] := by
  have hsame : (Propagated.step fields st.scopes op isAfter target e st.flow).expr = e := by
    rw [Propagated.step]
    split <;> rfl
  refine finds_nothing (by rw [hsame, partsAll, partsAll, hu]) ?_
  rw [hsame, hlit, Propagated.step, Analyse.step, name?_of_kinds (kinds_of_parts hs)]
  cases target.name? with
  | none => rfl
  | some x =>
    simp only [run_then, run_flow, run_write]
    rfl

mutual

/-- The analysis of the tree of an expression. -/
theorem finds_expr (h : t.WellFormed) : ∀ (e : Expr) {s : OrderedTree Placed} (st : State),
    t.Shows s → s.parts = e.parts →
    let r := e.propagate fields st.scopes st.flow
    Finds (Analyse.expr fields s) st ⟨r.value, r.expr.isLiteral⟩ r.flow st.scopes [s]
      [r.expr.parts]
  | .literal sp v, s, st, hs, hp => by
    refine finds_nothing (by rw [partsAll, partsAll, hp, Expr.propagate]) ?_
    obtain ⟨id, ts, rfl, hts⟩ := parts_eq_node hp
    simp only [Analyse.expr, Expr.propagate]
    rfl
  | .name sp x, s, st, hs, hp => by
    obtain ⟨id, ts, rfl, hts⟩ := parts_eq_node hp
    simp only [Analyse.expr, Expr.propagate]
    cases hv : st.flow.value? x with
    | none =>
      refine finds_nothing (by rw [partsAll, partsAll, hp]) ?_
      rw [run_then, run_flow, hv]
      rfl
    | some v =>
      refine ⟨_, (Yields.unchanged ts).replaced h hs v, ?_⟩
      rw [run_then, run_flow, hv, run_replace]
      rfl
  | .binary sp op l r, s, st, hs, hp => by
    obtain ⟨id, ts, rfl, hts⟩ := parts_eq_node hp
    obtain ⟨sl, sr, rfl, hl, hr⟩ := partsAll_eq_pair hts
    obtain ⟨rsl, hyl, hrunl⟩ := finds_expr h l st hs.2.1 hl
    simp only [Expr.propagate]
    generalize l.propagate fields st.scopes st.flow = left at hyl hrunl ⊢
    obtain ⟨rsr, hyr, hrunr⟩ := finds_expr h r ⟨left.flow, st.scopes, rsl.reverse ++ st.found⟩
      hs.2.2.1 hr
    simp only at hyr hrunr
    generalize r.propagate fields st.scopes left.flow = right at hyr hrunr ⊢
    rw [← List.append_assoc, ← List.reverse_append] at hrunr
    obtain ⟨rs, hys, hruns⟩ := run_settle (e := .binary sp op left.expr right.expr) h hs
      (hyl.append (spread_of_shows h hs) hyr) rfl rfl [left, right]
      (combined op left.value right.value)
      (if op.isShortCircuit then left.flow.join right.flow else right.flow) st.scopes st.found
    refine ⟨rs, hys, ?_⟩
    simp only [Analyse.expr, run_then, hrunl, run_flow, hrunr]
    refine Eq.trans ?_ hruns
    split <;> rfl
  | .unary sp op e, s, st, hs, hp => by
    have hu := hp
    obtain ⟨id, ts, rfl, hts⟩ := parts_eq_node hp
    obtain ⟨se, rfl, he⟩ := partsAll_eq_singleton hts
    obtain ⟨rse, hye, hrune⟩ := finds_expr h e st hs.2.1 he
    let inner := e.propagate fields st.scopes st.flow
    obtain ⟨rs, hys, hruns⟩ := run_settle (e := .unary sp op inner.expr) h hs hye rfl rfl [inner]
      (inner.value.bind op.eval?) inner.flow st.scopes st.found
    cases op with
    | step op =>
      simp only [Analyse.expr, Expr.propagate]
      exact finds_step he hu rfl op false st
    | _ =>
      refine ⟨rs, hys, ?_⟩
      simp only [Analyse.expr, run_then, hrune]
      exact hruns
  | .postStep sp op e, s, st, hs, hp => by
    have hu := hp
    obtain ⟨id, ts, rfl, hts⟩ := parts_eq_node hp
    obtain ⟨se, rfl, he⟩ := partsAll_eq_singleton hts
    simp only [Analyse.expr, Expr.propagate]
    exact finds_step he hu rfl op true st
  | .assign sp op target v, s, st, hs, hp => by
    obtain ⟨id, ts, rfl, hts⟩ := parts_eq_node hp
    obtain ⟨sx, sv, rfl, hx, hv⟩ := partsAll_eq_pair hts
    obtain ⟨rs, hy, hrun⟩ := finds_expr h v st hs.2.2.1 hv
    have hys := ((Yields.unchanged [sx]).append (spread_of_shows h hs) hy).node h hs
    simp only [Analyse.expr, Expr.propagate, name?_of_kinds (kinds_of_parts hx)]
    generalize v.propagate fields st.scopes st.flow = right at hys hrun ⊢
    cases target.name? with
    | none =>
      refine ⟨rs, by rw [Expr.parts, ← hx]; exact hys, ?_⟩
      simp only [run_then, hrun, run_forgetFields]
      rfl
    | some x =>
      refine ⟨rs, by rw [Expr.parts, ← hx]; exact hys, ?_⟩
      simp only [run_then, run_flow, hrun, run_write]
      cases op with
      | plain => rfl
      | compound op => cases st.flow.value? x <;> cases right.value <;> rfl
  | .call sp path args, s, st, hs, hp => by
    obtain ⟨id, ts, rfl, hts⟩ := parts_eq_node hp
    obtain ⟨rs, hy, hrun⟩ := finds_exprs h args st (spread_of_shows h hs) hts
    refine ⟨rs, hy.node h hs, ?_⟩
    simp only [Analyse.expr, Expr.propagate, run_then, hrun, run_forgetFields]
    rfl

/-- The analysis of the trees of some expressions. -/
theorem finds_exprs (h : t.WellFormed) : ∀ (es : List Expr) {ss : List (OrderedTree Placed)}
    (st : State), Spread t ss → partsAll ss = Expr.partsAll es →
    let r := Expr.propagateAll fields st.scopes es st.flow
    Finds (Analyse.exprs fields ss) st () r.2 st.scopes ss (Expr.partsAll r.1)
  | [], ss, st, hs, hp => by
    rw [partsAll_eq_nil hp]
    exact finds_nothing rfl rfl
  | e :: es, ss, st, hs, hp => by
    obtain ⟨s, ss, rfl, he, hes⟩ := partsAll_eq_cons hp
    obtain ⟨rs, hy, hrun⟩ := finds_expr h e st hs.1.1 he
    obtain ⟨rs', hy', hrun'⟩ := finds_exprs h es
      ⟨(e.propagate fields st.scopes st.flow).flow, st.scopes, rs.reverse ++ st.found⟩
      (show Spread t ([s] ++ ss) from hs).append.2 hes
    refine ⟨rs ++ rs', hy.append hs hy', ?_⟩
    rw [List.reverse_append, List.append_assoc]
    simp only [Analyse.exprs, Expr.propagateAll, run_then, hrun, hrun']

end

/-- The analysis of an expression that may be missing. -/
theorem finds_opt (h : t.WellFormed) {e : Option Expr} {ss : List (OrderedTree Placed)} (st : State)
    (hs : t.ShowsAll ss) (hp : partsAll ss = Expr.optParts e) :
    let r := Expr.propagateOpt fields st.scopes e st.flow
    Finds (Analyse.optExpr fields ss.head?) st () r.2 st.scopes ss (Expr.optParts r.1) := by
  rcases partsAll_eq_optParts hp with ⟨rfl, rfl⟩ | ⟨e, s, rfl, rfl, he⟩
  · exact finds_nothing rfl rfl
  · obtain ⟨rs, hy, hrun⟩ := finds_expr h e st hs.1 he
    refine ⟨rs, hy, ?_⟩
    simp only [List.head?_cons, Analyse.optExpr, Expr.propagateOpt, run_then, hrun]
    rfl

/-! ## Statements -/

/-- The parts of a loop are found among the children. -/
theorem forParts_ofList {init : Bool} {c u : Option Expr} {si sc su : List (OrderedTree Placed)}
    (sb : OrderedTree Placed) (hi : si.length = init.toNat) (hc : kindsAll sc = Expr.optKinds c)
    (hu : kindsAll su = Expr.optKinds u) :
    let ts := si ++ (sc ++ su ++ [sb])
    Analyse.ForParts.ofList init c.isSome u.isSome ts = ⟨sc.head?, su.head?, some sb⟩ ∧
      ts[Analyse.ForParts.count init c.isSome u.isSome]? = some sb := by
  have hsi : (init = false ∧ si = []) ∨ ∃ x, init = true ∧ si = [x] := by
    cases init with
    | false => exact .inl ⟨rfl, List.length_eq_zero_iff.mp hi⟩
    | true =>
      obtain ⟨x, hx⟩ := List.length_eq_one_iff.mp hi
      exact .inr ⟨x, rfl, hx⟩
  rcases hsi with ⟨rfl, rfl⟩ | ⟨x, rfl, rfl⟩ <;>
    rcases kindsAll_eq_optKinds hc with ⟨rfl, rfl⟩ | ⟨c, vc, rfl, rfl, -⟩ <;>
    rcases kindsAll_eq_optKinds hu with ⟨rfl, rfl⟩ | ⟨u, vu, rfl, rfl, -⟩ <;>
    exact ⟨rfl, rfl⟩

theorem isSome_propagateOpt (scopes : List Scope) (e : Option Expr) (flow : Flow) :
    (Expr.propagateOpt fields scopes e flow).1.isSome = e.isSome := by
  cases e <;> rfl

/-- What the parts of a loop may write to. -/
theorem writtenIn_looped {c u : Option Expr} {b : Stmt} {sc su : List (OrderedTree Placed)}
    {sb : OrderedTree Placed} (hc : kindsAll sc = Expr.optKinds c)
    (hu : kindsAll su = Expr.optKinds u) (hb : sb.kinds = b.kinds) :
    writtenIn (Analyse.ForParts.looped ⟨sc.head?, su.head?, some sb⟩) =
      Expr.writtenOpt c ++ (Expr.writtenOpt u ++ b.written) := by
  have hopt : ∀ {e : Option Expr} {ss : List (OrderedTree Placed)},
      kindsAll ss = Expr.optKinds e → ss.head?.toList = ss := by
    intro e ss h
    rcases kindsAll_eq_optKinds h with ⟨rfl, rfl⟩ | ⟨e, s, rfl, rfl, -⟩ <;> rfl
  rw [Analyse.ForParts.looped, hopt hc, hopt hu, writtenIn_append, writtenIn_append, writtenIn_opt hc,
    writtenIn_opt hu, List.append_assoc]
  exact congrArg _ (congrArg _ (writtenIn_stmt b hb))

/-- A `for` from its condition on, to the end of its scope. -/
theorem finds_looped (h : t.WellFormed) {c u : Option Expr} {b : Stmt}
    {sc su : List (OrderedTree Placed)} {sb : OrderedTree Placed} (st : State)
    (hs : Spread t (sc ++ su ++ [sb])) (hc : partsAll sc = Expr.optParts c)
    (hu : partsAll su = Expr.optParts u) (hb : sb.parts = b.parts)
    (hbody : ∀ st, let r := b.analysed fields st.flow st.scopes
      Finds (Analyse.stmt fields sb) st () r.flow r.scopes [sb] [r.part.parts]) :
    let r := Analysed.looped fields c u (Expr.writtenOpt c ++ (Expr.writtenOpt u ++ b.written))
      (b.analysed fields) st.flow st.scopes
    Finds (do
        enterLoop (ForParts.looped ⟨sc.head?, su.head?, some sb⟩)
        aside do
          optExpr fields sc.head?
          stmt fields sb
        aside do
          optExpr fields su.head?
        leaveScope) st () r.flow r.scopes (sc ++ su ++ [sb])
      (Expr.optParts r.part.1 ++ Expr.optParts r.part.2.1 ++ [r.part.2.2.parts]) := by
  simp only [Analysed.looped]
  generalize hhead : st.flow.enterLoop st.scopes
    (Expr.writtenOpt c ++ (Expr.writtenOpt u ++ b.written)) = head
  obtain ⟨rsc, hyc, hrunc⟩ := finds_opt h ⟨head, st.scopes, st.found⟩ hs.append.1.append.1.1 hc
  simp only at hyc hrunc ⊢
  generalize Expr.propagateOpt fields st.scopes c head = cond at hyc hrunc ⊢
  obtain ⟨rsb, hyb, hrunb⟩ := hbody ⟨cond.2, st.scopes, rsc.reverse ++ st.found⟩
  generalize b.analysed fields cond.2 st.scopes = round at hyb hrunb ⊢
  obtain ⟨rsu, hyu, hrunu⟩ := finds_opt h
    ⟨head, round.scopes, rsb.reverse ++ (rsc.reverse ++ st.found)⟩ hs.append.1.append.2.1 hu
  rw [List.append_assoc] at hs ⊢
  rw [List.append_assoc]
  have hy := hyc.append hs (hyu.append_of hs.append.2 hyb (.inr rfl))
  refine ⟨rsc ++ (rsb ++ rsu), hy, ?_⟩
  simp only [run_then, run_enterLoop, writtenIn_looped (kindsAll_of_parts hc) (kindsAll_of_parts hu)
    (kinds_of_parts hb), hhead, run_aside, hrunc, hrunb, hrunu,
    run_leaveScope, List.reverse_append, List.append_assoc]

theorem isSome_looped (c u : Option Expr) (written : List (Option String))
    (body : Flow → List Scope → Analysed Stmt) (flow : Flow) (scopes : List Scope) :
    let r := Analysed.looped fields c u written body flow scopes
    r.part.1.isSome = c.isSome ∧ r.part.2.1.isSome = u.isSome := by
  exact ⟨isSome_propagateOpt .., isSome_propagateOpt ..⟩

mutual

/-- The analysis of the tree of a statement. -/
theorem finds_stmt (h : t.WellFormed) : ∀ (x : Stmt) {s : OrderedTree Placed} (st : State),
    t.Shows s → s.parts = x.parts →
    let r := x.analysed fields st.flow st.scopes
    Finds (Analyse.stmt fields s) st () r.flow r.scopes [s] [r.part.parts]
  | .block sp xs, s, st, hs, hp => by
    obtain ⟨id, ts, rfl, hts⟩ := parts_eq_node hp
    obtain ⟨rs, hy, hrun⟩ := finds_stmts h xs ⟨st.flow, [] :: st.scopes, st.found⟩
      (spread_of_shows h hs) hts
    refine ⟨rs, hy.node h hs, ?_⟩
    simp only [Analyse.stmt, Stmt.analysed, run_then, run_enterScope, hrun, run_leaveScope]
  | .expr sp e, s, st, hs, hp => by
    obtain ⟨id, ts, rfl, hts⟩ := parts_eq_node hp
    obtain ⟨se, rfl, he⟩ := partsAll_eq_singleton hts
    obtain ⟨rs, hy, hrun⟩ := finds_expr h e st hs.2.1 he
    refine ⟨rs, hy.node h hs, ?_⟩
    simp only [Analyse.stmt, Stmt.analysed, run_then, hrun]
    rfl
  | .localVar sp ty name none, s, st, hs, hp => by
    obtain ⟨id, ts, rfl, hts⟩ := parts_eq_node hp
    cases partsAll_eq_nil hts
    refine ⟨[], (Yields.unchanged []).node h hs, ?_⟩
    simp only [Analyse.stmt, Stmt.analysed, run_then, run_declare, run_bind]
    rfl
  | .localVar sp ty name (some e), s, st, hs, hp => by
    obtain ⟨id, ts, rfl, hts⟩ := parts_eq_node hp
    obtain ⟨se, rfl, he⟩ := partsAll_eq_singleton hts
    obtain ⟨rs, hy, hrun⟩ := finds_expr h e st hs.2.1 he
    refine ⟨rs, hy.node h hs, ?_⟩
    simp only [Analyse.stmt, Stmt.analysed, run_then, hrun, run_declare, run_bind]
  | .ifElse sp c yes none, s, st, hs, hp => by
    obtain ⟨id, ts, rfl, hts⟩ := parts_eq_node hp
    obtain ⟨sc, sy, rfl, hc, hyes⟩ := partsAll_eq_pair hts
    have hspread := spread_of_shows h hs
    obtain ⟨rs₁, hy₁, hrun₁⟩ := finds_expr h c st hs.2.1 hc
    obtain ⟨rs₂, hy₂, hrun₂⟩ := finds_stmt h yes
      ⟨(c.propagate fields st.scopes st.flow).flow, st.scopes, rs₁.reverse ++ st.found⟩ hs.2.2.1 hyes
    refine ⟨rs₁ ++ rs₂, (hy₁.append hspread hy₂).node h hs, ?_⟩
    simp only [Analyse.stmt, Analyse.nthStmt, Stmt.analysed, run_then, run_flow, hrun₁, hrun₂,
      run_setFlow, List.reverse_append, List.append_assoc]
    rfl
  | .ifElse sp c yes (some no), s, st, hs, hp => by
    obtain ⟨id, ts, rfl, hts⟩ := parts_eq_node hp
    obtain ⟨sc, ss, rfl, hc, hss⟩ := partsAll_eq_cons hts
    obtain ⟨sy, sn, rfl, hyes, hno⟩ := partsAll_eq_pair hss
    have hspread : Spread t ([sc] ++ ([sy] ++ [sn])) := spread_of_shows h hs
    obtain ⟨rs₁, hy₁, hrun₁⟩ := finds_expr h c st hs.2.1 hc
    simp only [Stmt.analysed]
    generalize c.propagate fields st.scopes st.flow = cond at hy₁ hrun₁ ⊢
    obtain ⟨rs₂, hy₂, hrun₂⟩ := finds_stmt h yes ⟨cond.flow, st.scopes, rs₁.reverse ++ st.found⟩
      hs.2.2.1 hyes
    simp only at hy₂ hrun₂
    generalize yes.analysed fields cond.flow st.scopes = first at hy₂ hrun₂ ⊢
    obtain ⟨rs₃, hy₃, hrun₃⟩ := finds_stmt h no
      ⟨cond.flow, first.scopes, rs₂.reverse ++ (rs₁.reverse ++ st.found)⟩ hs.2.2.2.1 hno
    have hy := hy₁.append hspread (hy₂.append hspread.append.2 hy₃)
    refine ⟨rs₁ ++ (rs₂ ++ rs₃), hy.node h hs, ?_⟩
    simp only [Analyse.stmt, Analyse.nthStmt, run_then, run_flow, hrun₁, hrun₂, hrun₃, run_setFlow,
      List.reverse_append, List.append_assoc]
  | .whileLoop sp c b, s, st, hs, hp => by
    obtain ⟨id, ts, rfl, hts⟩ := parts_eq_node hp
    obtain ⟨sc, sb, rfl, hc, hb⟩ := partsAll_eq_pair hts
    have hwritten : writtenIn [sc, sb] = c.written ++ b.written := by
      rw [writtenIn_cons, writtenIn_expr c (kinds_of_parts hc), writtenIn_stmt b (kinds_of_parts hb)]
    simp only [Stmt.analysed]
    generalize hhead : st.flow.enterLoop st.scopes (c.written ++ b.written) = head
    obtain ⟨rs₁, hy₁, hrun₁⟩ := finds_expr h c ⟨head, st.scopes, st.found⟩ hs.2.1 hc
    obtain ⟨rs₂, hy₂, hrun₂⟩ := finds_stmt h b
      ⟨(c.propagate fields st.scopes head).flow, st.scopes, rs₁.reverse ++ st.found⟩ hs.2.2.1 hb
    refine ⟨rs₁ ++ rs₂, (hy₁.append (spread_of_shows h hs) hy₂).node h hs, ?_⟩
    simp only [Analyse.stmt, run_then, run_enterLoop, hwritten, hhead, run_aside, hrun₁, hrun₂,
      List.reverse_append, List.append_assoc]
  | .forLoop sp none c u b, s, st, hs, hp => by
    obtain ⟨id, ts, rfl, hts⟩ := parts_eq_node hp
    obtain ⟨sc, su, sb, rfl, hc, hu, hb⟩ := partsAll_eq_looped hts
    have hspread := spread_of_shows h hs
    have hbody := fun st => finds_stmt h b st hspread.append.2.1.1 hb
    obtain ⟨rs, hy, hrun⟩ := finds_looped h ⟨st.flow, [] :: st.scopes, st.found⟩ hspread hc hu hb hbody
    obtain ⟨hparts, hget⟩ := forParts_ofList sb (show [].length = false.toNat from rfl)
      (kindsAll_of_parts hc) (kindsAll_of_parts hu)
    refine ⟨rs, ?_, ?_⟩
    · rw [Stmt.analysed, Stmt.parts, (isSome_looped ..).1, (isSome_looped ..).2]
      exact hy.node h hs
    · rw [List.nil_append] at hparts hget
      simp only [Analyse.stmt, nthStmt_eq, hparts, hget]
      rw [run_then, run_enterScope]
      exact hrun
  | .forLoop sp (some i) c u b, s, st, hs, hp => by
    obtain ⟨id, ts, rfl, hts⟩ := parts_eq_node hp
    obtain ⟨si, ts, rfl, hi, hts⟩ := partsAll_eq_cons hts
    obtain ⟨sc, su, sb, rfl, hc, hu, hb⟩ := partsAll_eq_looped hts
    have hspread : Spread t ([si] ++ (sc ++ su ++ [sb])) := spread_of_shows h hs
    have hbody := fun st => finds_stmt h b st hspread.append.2.append.2.1.1 hb
    obtain ⟨rs₁, hy₁, hrun₁⟩ := finds_stmt h i ⟨st.flow, [] :: st.scopes, st.found⟩ hs.2.1 hi
    simp only [Stmt.analysed]
    generalize i.analysed fields st.flow ([] :: st.scopes) = first at hy₁ hrun₁ ⊢
    obtain ⟨rs₂, hy₂, hrun₂⟩ := finds_looped h ⟨first.flow, first.scopes, rs₁.reverse ++ st.found⟩
      hspread.append.2 hc hu hb hbody
    obtain ⟨hparts, hget⟩ := forParts_ofList sb (show [si].length = true.toNat from rfl)
      (kindsAll_of_parts hc) (kindsAll_of_parts hu)
    refine ⟨rs₁ ++ rs₂, ?_, ?_⟩
    · rw [Stmt.parts, (isSome_looped ..).1, (isSome_looped ..).2]
      exact (hy₁.append hspread hy₂).node h hs
    · rw [List.singleton_append] at hparts hget
      simp only [Analyse.stmt, nthStmt_eq, hparts, hget]
      rw [run_then, run_enterScope]
      simp only [if_true]
      rw [run_then]
      simp only [List.getElem?_cons_zero, Option.elim_some, hrun₁]
      simp only [List.reverse_append, List.append_assoc]
      exact hrun₂
  | .ret sp none, s, st, hs, hp => by
    obtain ⟨id, ts, rfl, hts⟩ := parts_eq_node hp
    cases partsAll_eq_nil hts
    exact ⟨[], (Yields.unchanged []).node h hs, rfl⟩
  | .ret sp (some e), s, st, hs, hp => by
    obtain ⟨id, ts, rfl, hts⟩ := parts_eq_node hp
    obtain ⟨se, rfl, he⟩ := partsAll_eq_singleton hts
    obtain ⟨rs, hy, hrun⟩ := finds_expr h e st hs.2.1 he
    refine ⟨rs, hy.node h hs, ?_⟩
    simp only [Analyse.stmt, Stmt.analysed, List.head?_cons, Analyse.optExpr, run_then, hrun]
    rfl
  | .brk sp, s, st, hs, hp | .cont sp, s, st, hs, hp | .empty sp, s, st, hs, hp => by
    refine finds_nothing (by rw [partsAll, partsAll, hp, Stmt.analysed]) ?_
    obtain ⟨id, ts, rfl, hts⟩ := parts_eq_node hp
    rfl

/-- The analysis of the trees of some statements. -/
theorem finds_stmts (h : t.WellFormed) : ∀ (xs : List Stmt) {ss : List (OrderedTree Placed)}
    (st : State), Spread t ss → partsAll ss = Stmt.partsAll xs →
    let r := Stmt.analysedAll fields xs st.flow st.scopes
    Finds (Analyse.stmts fields ss) st () r.flow r.scopes ss (Stmt.partsAll r.part)
  | [], ss, st, hs, hp => by
    rw [partsAll_eq_nil hp]
    exact finds_nothing rfl rfl
  | x :: xs, ss, st, hs, hp => by
    obtain ⟨s, ss, rfl, he, hes⟩ := partsAll_eq_cons hp
    obtain ⟨rs, hy, hrun⟩ := finds_stmt h x st hs.1.1 he
    simp only [Stmt.analysedAll]
    generalize x.analysed fields st.flow st.scopes = first at hy hrun ⊢
    obtain ⟨rs', hy', hrun'⟩ := finds_stmts h xs
      ⟨first.flow, first.scopes, rs.reverse ++ st.found⟩
      (show Spread t ([s] ++ ss) from hs).append.2 hes
    refine ⟨rs ++ rs', hy.append hs hy', ?_⟩
    rw [List.reverse_append, List.append_assoc]
    simp only [Analyse.stmts, run_then, hrun, hrun']

end

/-! ## Members -/

/-- The replacements that are found in a field or method make the propagated member out of it. -/
theorem plug_replacements (h : t.WellFormed) {m : Member} {s : OrderedTree Placed} (hs : t.Shows s)
    (hp : s.parts = m.parts) : plug (replacements fields s) s = (m.analysed fields).parts := by
  cases m with
  | field sp d =>
    obtain ⟨id, ts, rfl, hts⟩ := parts_eq_node hp
    rcases partsAll_eq_optParts hts with ⟨hinit, rfl⟩ | ⟨e, se, hinit, rfl, he⟩
    · have hnone : (Member.field sp d).analysed fields = .field sp d := by
        cases d
        cases hinit
        rfl
      rw [hnone, ← hp]
      exact plug_nil _
    · obtain ⟨rs, hy, hrun⟩ := @finds_expr t fields h e se ⟨some [], [], []⟩ hs.2.1 he
      have hrs : replacements fields (.node ⟨id, .field d.modifiers d.ty.value d.name.value, sp⟩ [se]) =
          rs := by
        refine (congrArg (fun r => r.2.found.reverse) hrun).trans ?_
        rw [List.append_nil, List.reverse_reverse]
      rw [hrs, plug_node (hy.ne_top h hs), hy.plugged]
      simp only [Member.analysed, FieldDecl.propagate, hinit]
      rfl
  | method sp d =>
    obtain ⟨id, ts, rfl, hts⟩ := parts_eq_node hp
    obtain ⟨sb, rfl, hb⟩ := partsAll_eq_singleton hts
    have hblock : sb.parts = (Stmt.block d.body.span d.body.stmts).parts := hb
    obtain ⟨rs, hy, hrun⟩ := @finds_stmt t fields h (.block d.body.span d.body.stmts) sb
      ⟨some [], [d.scope], []⟩ hs.2.1 hblock
    have hrs : replacements fields
        (.node ⟨id, .method d.modifiers d.ret.value d.name.value d.params, sp⟩ [sb]) = rs := by
      refine (congrArg (fun r => r.2.found.reverse) hrun).trans ?_
      rw [List.append_nil, List.reverse_reverse]
    rw [hrs, plug_node (hy.ne_top h hs), hy.plugged]
    rfl

end

end Constants

end JavaFold
