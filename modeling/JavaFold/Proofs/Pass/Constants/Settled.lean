import JavaFold.Proofs.Pass.Constants.Fold
import JavaFold.Proofs.Tree.Kinds

/-!
# Nothing is left to propagate

When the analysis goes again through what the pass has made, it comes to the same knowledge at every
point and finds nothing (`retraces_expr`, `retraces_stmt`). It reads only the kinds of nodes, so this is
so of every tree with those kinds. A program of which this holds is `Settled`; the pass settles every
program, and does nothing to a settled one (`settled_analysed`, `run_fold_settled`).
-/

namespace JavaFold

open OrderedTree

namespace Constants

/-! ## Each variable is listed once -/

/-- No variable is listed twice in what is known. -/
structure Flow.Listed (flow : Flow) : Prop where
  nodup : ∀ facts ∈ flow, (facts.map Prod.fst).Nodup

namespace Facts

theorem nodup_filter {facts : Facts} (h : (facts.map Prod.fst).Nodup) (p : String × Literal → Bool) :
    ((facts.filter p).map Prod.fst).Nodup := by
  exact h.sublist (List.filter_sublist.map Prod.fst)

theorem nodup_learn {facts : Facts} (h : (facts.map Prod.fst).Nodup) (name : String)
    (value : Literal) : ((facts.learn name value).map Prod.fst).Nodup := by
  refine List.nodup_cons.mpr ⟨fun hm => ?_, nodup_filter h _⟩
  obtain ⟨fact, hfact, heq⟩ := List.mem_map.mp hm
  simpa [heq] using (List.mem_filter.mp hfact).2

theorem lookup_of_mem {facts : Facts} (h : (facts.map Prod.fst).Nodup) :
    ∀ fact ∈ facts, facts.lookup fact.1 = some fact.2 := by
  induction facts with
  | nil => exact fun fact hm => absurd hm List.not_mem_nil
  | cons first facts ih =>
    have ⟨hfirst, hrest⟩ := List.nodup_cons.mp h
    intro fact hm
    rcases List.mem_cons.mp hm with rfl | hm
    · exact List.lookup_cons_self
    · have hne : (fact.1 == first.1) = false := by
        rw [beq_eq_false_iff_ne]
        exact fun heq => hfirst (heq ▸ List.mem_map_of_mem hm)
      rw [List.lookup_cons, hne]
      exact ih hrest fact hm

theorem common_self {facts : Facts} (h : (facts.map Prod.fst).Nodup) : facts.common facts = facts := by
  refine List.filter_eq_self.mpr fun fact hm => ?_
  rw [lookup_of_mem h fact hm, beq_self_eq_true]

end Facts

namespace Flow

variable {flow flow' : Flow}

theorem listed_none : Listed none := ⟨fun _ h => nomatch h⟩

theorem Listed.map (h : flow.Listed) {f : Facts → Facts}
    (hf : ∀ facts, (facts.map Prod.fst).Nodup → ((f facts).map Prod.fst).Nodup) :
    Listed (Option.map f flow) := by
  cases flow with
  | none => exact listed_none
  | some facts =>
    refine ⟨?_⟩
    rintro _ ⟨⟩
    exact hf facts (h.nodup facts rfl)

theorem Listed.forgetFields (h : flow.Listed) (scopes : List Scope) :
    (flow.forgetFields scopes).Listed := by
  exact h.map fun facts hf => Facts.nodup_filter hf _

theorem Listed.give (h : flow.Listed) (fields : Scope) (scopes : List Scope) (name : String)
    (value : Option Literal) : (flow.give fields scopes name value).Listed := by
  refine h.map fun facts hf => ?_
  cases value with
  | none => exact Facts.nodup_filter hf _
  | some v =>
    dsimp only
    split
    · exact Facts.nodup_learn hf name v
    · exact Facts.nodup_filter hf _

theorem Listed.write (h : flow.Listed) (fields : Scope) (scopes : List Scope) (name : String)
    (value : Option Literal) : (flow.write fields scopes name value).Listed := by
  rw [Flow.write]
  split
  · exact h.forgetFields scopes
  · exact h.give fields scopes name value

theorem Listed.enterLoop (h : flow.Listed) (scopes : List Scope) (written : List (Option String)) :
    (flow.enterLoop scopes written).Listed := by
  exact h.map fun facts hf => Facts.nodup_filter hf _

theorem Listed.leave (h : flow.Listed) (scope : Scope) : (flow.leave scope).Listed := by
  refine h.map fun facts hf => ?_
  induction scope generalizing facts with
  | nil => exact hf
  | cons v scope ih => exact ih _ (Facts.nodup_filter hf _)

theorem Listed.join (h : flow.Listed) (h' : flow'.Listed) : (flow.join flow').Listed := by
  cases flow with
  | none => exact h'
  | some facts =>
    cases flow' with
    | none => exact h
    | some facts' =>
      refine ⟨?_⟩
      rintro _ ⟨⟩
      exact Facts.nodup_filter (h.nodup facts rfl) _

theorem Listed.join_self (h : flow.Listed) : flow.join flow = flow := by
  cases flow with
  | none => rfl
  | some facts => exact congrArg some (Facts.common_self (h.nodup facts rfl))

end Flow

/-! ## Expressions -/

section

variable {fields : Scope} {scopes : List Scope}

theorem listed_step {flow : Flow} (h : flow.Listed) (op : StepOp) (isAfter : Bool) (target e : Expr) :
    (Propagated.step fields scopes op isAfter target e flow).flow.Listed := by
  unfold Propagated.step
  split
  · exact h.forgetFields scopes
  · exact h.write ..

mutual

theorem listed_propagate : ∀ (e : Expr) {flow : Flow}, flow.Listed →
    (e.propagate fields scopes flow).flow.Listed
  | .literal _ _, _, h => h
  | .name _ _, _, h => by
    unfold Expr.propagate
    split <;> exact h
  | .binary _ op l r, _, h => by
    have hl := listed_propagate l h
    have hr := listed_propagate r hl
    simp only [Expr.propagate]
    split
    · exact hl.join hr
    · exact hr
  | .unary _ op e, _, h => by
    have he := listed_propagate e h
    cases op with
    | step op => exact listed_step h op false e _
    | _ => exact he
  | .postStep _ op e, _, h => listed_step h op true e _
  | .assign _ op t v, _, h => by
    have hv := listed_propagate v h
    unfold Expr.propagate
    dsimp only
    split
    · exact hv.forgetFields scopes
    · exact hv.write ..
  | .call _ _ args, _, h => (listed_propagateAll args h).forgetFields scopes

theorem listed_propagateAll : ∀ (es : List Expr) {flow : Flow}, flow.Listed →
    (Expr.propagateAll fields scopes es flow).2.Listed
  | [], _, h => h
  | e :: es, _, h => listed_propagateAll es (listed_propagate e h)

end

theorem listed_propagateOpt {e : Option Expr} {flow : Flow} (h : flow.Listed) :
    (Expr.propagateOpt fields scopes e flow).2.Listed := by
  cases e with
  | none => exact h
  | some e => exact listed_propagate e h

/-- An operator that becomes a literal has literals as operands. -/
theorem isLiteral_settled {s : Span} {value : Option Literal} {operands : List Expr} {e : Expr}
    (h : (Propagated.settled s value operands e).isLiteral = true) (he : e.isLiteral = false) :
    operands.all Expr.isLiteral = true := by
  rcases settled_cases s value operands e with hs | ⟨v, -, hall, -⟩
  · rw [hs, he] at h
    cases h
  · exact hall

/-- An operator that becomes no literal stays. -/
theorem settled_eq {s : Span} {value : Option Literal} {operands : List Expr} {e : Expr}
    (h : ¬(Propagated.settled s value operands e).isLiteral = true) :
    Propagated.settled s value operands e = e := by
  refine (settled_cases s value operands e).resolve_right ?_
  rintro ⟨v, -, -, hs⟩
  exact h (by rw [hs]; rfl)

/-- An assignment stays one. -/
theorem assign_expr (s : Span) (op : AssignOp) (t v : Expr) (flow : Flow) :
    ((Expr.assign s op t v).propagate fields scopes flow).expr =
      .assign s op t (v.propagate fields scopes flow).expr := by
  simp only [Expr.propagate]
  split <;> rfl

/-- What has become a literal has no effect. -/
theorem flow_propagate : ∀ (e : Expr) {flow : Flow}, flow.Listed →
    (e.propagate fields scopes flow).expr.isLiteral = true → (e.propagate fields scopes flow).flow = flow
  | .literal _ _, _, _, _ => rfl
  | .name _ _, _, _, _ => by
    unfold Expr.propagate
    split <;> rfl
  | .binary _ op l r, flow, h, hlit => by
    have hops := isLiteral_settled hlit rfl
    rw [List.all_cons, List.all_cons, List.all_nil, Bool.and_true, Bool.and_eq_true] at hops
    have hl := flow_propagate l h hops.1
    have hr := flow_propagate r (listed_propagate l h) hops.2
    simp only [Expr.propagate]
    rw [hr, hl, h.join_self, ite_self]
  | .unary _ op e, flow, h, hlit => by
    by_cases hop : ∃ o, op = .step o
    · obtain ⟨o, rfl⟩ := hop
      simp only [Expr.propagate, step_expr] at hlit
      cases hlit
    · rw [not_exists] at hop
      rw [propagate_unary hop] at hlit ⊢
      have hops := isLiteral_settled hlit rfl
      rw [List.all_cons, List.all_nil, Bool.and_true] at hops
      exact flow_propagate e h hops
  | .postStep _ op e, flow, h, hlit => by
    simp only [Expr.propagate, step_expr] at hlit
    cases hlit
  | .assign _ op t v, flow, h, hlit => by
    rw [assign_expr] at hlit
    cases hlit
  | .call _ _ _, flow, h, hlit => by cases hlit

theorem written_of_isLiteral {e : Expr} (h : e.isLiteral = true) : e.written = [] := by
  obtain ⟨s, v, rfl⟩ := exists_literal h
  rfl

mutual

/-- What may be written to stays. -/
theorem written_propagate : ∀ (e : Expr) (flow : Flow),
    (e.propagate fields scopes flow).expr.written = e.written
  | .literal _ _, _ => rfl
  | .name _ _, _ => by
    unfold Expr.propagate
    split <;> rfl
  | .binary s op l r, flow => by
    have hl := written_propagate l flow
    have hr := written_propagate r (l.propagate fields scopes flow).flow
    simp only [Expr.propagate, Expr.written]
    rcases settled_cases s _ _ _ with hs | ⟨v, -, hops, hs⟩
    · rw [hs, Expr.written, hl, hr]
    · rw [List.all_cons, List.all_cons, List.all_nil, Bool.and_true, Bool.and_eq_true] at hops
      rw [written_of_isLiteral hops.1] at hl
      rw [written_of_isLiteral hops.2] at hr
      rw [hs, ← hl, ← hr]
      rfl
  | .unary s op e, flow => by
    have he := written_propagate e flow
    by_cases hop : ∃ o, op = .step o
    · obtain ⟨o, rfl⟩ := hop
      rw [Expr.propagate, step_expr]
    · rw [not_exists] at hop
      have hunary : ∀ e, (Expr.unary s op e).written = e.written := by
        intro e
        cases op with
        | step o => exact absurd rfl (hop o)
        | _ => rfl
      rw [propagate_unary hop, hunary]
      dsimp only
      rcases settled_cases s _ _ _ with hs | ⟨v, -, hops, hs⟩
      · rw [hs, hunary, he]
      · rw [List.all_cons, List.all_nil, Bool.and_true] at hops
        rw [written_of_isLiteral hops] at he
        rw [hs, ← he]
        rfl
  | .postStep s op e, flow => by rw [Expr.propagate, step_expr]
  | .assign s op t v, flow => by
    have hv := written_propagate v flow
    rw [assign_expr, Expr.written, Expr.written, hv]
  | .call s path args, flow => by
    simp only [Expr.propagate, Expr.written, written_propagateAll args flow]

theorem written_propagateAll : ∀ (es : List Expr) (flow : Flow),
    Expr.writtenAll (Expr.propagateAll fields scopes es flow).1 = Expr.writtenAll es
  | [], _ => rfl
  | e :: es, flow => by
    simp only [Expr.propagateAll, Expr.writtenAll, written_propagate e flow,
      written_propagateAll es _]

end

theorem written_propagateOpt (e : Option Expr) (flow : Flow) :
    Expr.writtenOpt (Expr.propagateOpt fields scopes e flow).1 = Expr.writtenOpt e := by
  cases e with
  | none => rfl
  | some e => exact written_propagate e flow

/-- A literal is known when the analysis comes to it. -/
theorem run_literal {s : OrderedTree Placed} {span : Span} {v : Literal} {st : State}
    (h : s.kinds = (Expr.literal span v).kinds) : (Analyse.expr fields s).run st = (⟨some v, true⟩, st) := by
  obtain ⟨id, span', ts, rfl, -⟩ := kinds_eq_node h
  rfl

/-- Where an expression has become a literal, only the literal is gone through again. -/
theorem retraces_literal {e : Expr} {s : OrderedTree Placed} {st : State} (h : st.flow.Listed)
    (hlit : (e.propagate fields st.scopes st.flow).expr.isLiteral = true)
    (hk : s.kinds = (e.propagate fields st.scopes st.flow).expr.kinds) :
    let r := e.propagate fields st.scopes st.flow
    (Analyse.expr fields s).run st = (⟨r.value, r.expr.isLiteral⟩, ⟨r.flow, st.scopes, st.found⟩) := by
  obtain ⟨span, v, he⟩ := exists_literal hlit
  rw [he] at hk
  dsimp only
  rw [run_literal hk, value_of_expr_eq he, hlit, flow_propagate e h hlit]

theorem retraces_step {s : OrderedTree Placed} {target e : Expr} (hs : s.kinds = target.kinds)
    (hlit : e.isLiteral = false) (op : StepOp) (isAfter : Bool) (st : State) :
    let r := Propagated.step fields st.scopes op isAfter target e st.flow
    (Analyse.step fields op isAfter s).run st =
      (⟨r.value, r.expr.isLiteral⟩, ⟨r.flow, st.scopes, st.found⟩) := by
  intro r
  rw [show r.expr = e from step_expr .., hlit, Analyse.step, name?_of_kinds hs]
  simp only [r, Propagated.step]
  cases target.name? with
  | none => rfl
  | some x =>
    simp only [Analyse.run_then, Analyse.run_flow, Analyse.run_write]
    rfl

/-- An operator that has stayed settles again without a replacement. -/
theorem retraces_settle {span : Span} {value : Option Literal} {operands : List Propagated} {e : Expr}
    (hs : Propagated.settled span value (operands.map (·.expr)) e = e) (he : e.isLiteral = false)
    (id : NodeId) (st : State) :
    (Analyse.settle id value (operands.map fun r => ⟨r.value, r.expr.isLiteral⟩)).run st =
      (⟨value, false⟩, st) := by
  cases value with
  | none => rfl
  | some v =>
    have hops : (operands.map (·.expr)).all Expr.isLiteral = false := by
      rw [Bool.eq_false_iff]
      intro hall
      rw [Propagated.settled, if_pos hall] at hs
      rw [← hs] at he
      cases he
    rw [List.all_map] at hops
    rw [Analyse.settle, List.all_map, if_neg (by rw [Bool.not_eq_true]; exact hops)]
    rfl

open Analyse in
mutual

/-- Going again through what has become of an expression finds nothing, and comes to the same. -/
theorem retraces_expr : ∀ (e : Expr) {s : OrderedTree Placed} (st : State), st.flow.Listed →
    let r := e.propagate fields st.scopes st.flow
    s.kinds = r.expr.kinds →
    (Analyse.expr fields s).run st = (⟨r.value, r.expr.isLiteral⟩, ⟨r.flow, st.scopes, st.found⟩)
  | .literal sp v, s, st, _, hk => run_literal hk
  | .name sp x, s, st, _, hk => by
    simp only [Expr.propagate] at hk ⊢
    cases hv : st.flow.value? x with
    | some v =>
      rw [hv] at hk
      exact run_literal hk
    | none =>
      rw [hv] at hk
      obtain ⟨id, span, ts, rfl, -⟩ := kinds_eq_node hk
      simp only [Analyse.expr, run_then, run_flow, hv]
      rfl
  | .binary sp op l r, s, st, h, hk => by
    by_cases hlit : ((Expr.binary sp op l r).propagate fields st.scopes st.flow).expr.isLiteral = true
    · exact retraces_literal h hlit hk
    · simp only [Expr.propagate] at hk hlit ⊢
      have hl : (l.propagate fields st.scopes st.flow).flow.Listed := listed_propagate l h
      have ihl := fun s => retraces_expr l (s := s) st h
      simp only at ihl
      generalize l.propagate fields st.scopes st.flow = left at hk hlit hl ihl ⊢
      have ihr := fun s => retraces_expr r (s := s) ⟨left.flow, st.scopes, st.found⟩ hl
      simp only at ihr
      generalize r.propagate fields st.scopes left.flow = right at hk hlit ihr ⊢
      have hstay := settled_eq hlit
      rw [hstay] at hk ⊢
      obtain ⟨id, span, ts, rfl, hts⟩ := kinds_eq_node hk
      obtain ⟨sl, sr, rfl, hsl, hsr⟩ := kindsAll_eq_pair hts
      have hsettle := fun st => @retraces_settle _ _ [left, right] _ hstay rfl id st
      simp only [Analyse.expr, run_then, ihl sl hsl, ihr sr hsr, run_flow]
      refine Eq.trans ?_ (hsettle _)
      split <;> rfl
  | .unary sp op e, s, st, h, hk => by
    by_cases hlit : ((Expr.unary sp op e).propagate fields st.scopes st.flow).expr.isLiteral = true
    · exact retraces_literal h hlit hk
    · cases op with
      | step op =>
        simp only [Expr.propagate, step_expr] at hk ⊢
        obtain ⟨id, span, ts, rfl, hts⟩ := kinds_eq_node hk
        obtain ⟨se, rfl, he⟩ := kindsAll_eq_singleton hts
        have hstep := @retraces_step fields se e (.unary sp (.step op) e) he rfl op false st
        simp only [step_expr] at hstep
        simpa only [Analyse.expr] using hstep
      | _ =>
        simp only [Expr.propagate] at hk hlit ⊢
        have ih := fun s => retraces_expr e (s := s) st h
        simp only at ih
        generalize e.propagate fields st.scopes st.flow = inner at hk hlit ih ⊢
        have hstay := settled_eq hlit
        rw [hstay] at hk ⊢
        obtain ⟨id, span, ts, rfl, hts⟩ := kinds_eq_node hk
        obtain ⟨se, rfl, he⟩ := kindsAll_eq_singleton hts
        have hsettle := fun st => @retraces_settle _ _ [inner] _ hstay rfl id st
        simp only [Analyse.expr, run_then, ih se he]
        exact hsettle _
  | .postStep sp op e, s, st, _, hk => by
    simp only [Expr.propagate, step_expr] at hk ⊢
    obtain ⟨id, span, ts, rfl, hts⟩ := kinds_eq_node hk
    obtain ⟨se, rfl, he⟩ := kindsAll_eq_singleton hts
    have hstep := @retraces_step fields se e (.postStep sp op e) he rfl op true st
    simp only [step_expr] at hstep
    simpa only [Analyse.expr] using hstep
  | .assign sp op target v, s, st, h, hk => by
    rw [assign_expr] at hk
    obtain ⟨id, span, ts, rfl, hts⟩ := kinds_eq_node hk
    obtain ⟨sx, sv, rfl, hx, hv⟩ := kindsAll_eq_pair hts
    have hrun := retraces_expr v (s := sv) st h hv
    simp only [Analyse.expr, Expr.propagate, name?_of_kinds hx]
    cases target.name? with
    | none =>
      simp only [run_then, hrun, run_forgetFields]
      rfl
    | some x =>
      simp only [run_then, run_flow, hrun, run_write]
      cases op with
      | plain => rfl
      | compound op =>
        cases st.flow.value? x <;>
          cases (v.propagate fields st.scopes st.flow).value <;> rfl
  | .call sp path args, s, st, h, hk => by
    obtain ⟨id, span, ts, rfl, hts⟩ := kinds_eq_node hk
    have hrun := retraces_exprs args st h hts
    simp only [Analyse.expr, Expr.propagate, run_then, hrun, run_forgetFields]
    rfl

theorem retraces_exprs : ∀ (es : List Expr) {ss : List (OrderedTree Placed)} (st : State),
    st.flow.Listed →
    let r := Expr.propagateAll fields st.scopes es st.flow
    kindsAll ss = Expr.kindsAll r.1 →
    (Analyse.exprs fields ss).run st = ((), ⟨r.2, st.scopes, st.found⟩)
  | [], ss, st, _, hk => by
    rw [kindsAll_eq_nil hk]
    rfl
  | e :: es, ss, st, h, hk => by
    obtain ⟨s, ss, rfl, hs, hss⟩ := kindsAll_eq_cons hk
    have hrun := retraces_expr e st h hs
    have hrun' := retraces_exprs es ⟨_, st.scopes, st.found⟩ (listed_propagate e h) hss
    simp only [Analyse.exprs, Expr.propagateAll, run_then, hrun, hrun']

end

/-- Going again through an expression that may be missing. -/
theorem retraces_opt {e : Option Expr} {ss : List (OrderedTree Placed)} (st : State)
    (h : st.flow.Listed)
    (hk : kindsAll ss = Expr.optKinds (Expr.propagateOpt fields st.scopes e st.flow).1) :
    (Analyse.optExpr fields ss.head?).run st =
      ((), ⟨(Expr.propagateOpt fields st.scopes e st.flow).2, st.scopes, st.found⟩) := by
  cases e with
  | none =>
    rw [kindsAll_eq_nil hk]
    rfl
  | some e =>
    obtain ⟨s, rfl, hs⟩ := kindsAll_eq_singleton hk
    have hrun := retraces_expr e st h hs
    simp only [List.head?_cons, Analyse.optExpr, Analyse.run_then, hrun]
    rfl

/-! ## Statements -/

theorem listed_looped (c u : Option Expr) (written : List (Option String))
    (body : Flow → List Scope → Analysed Stmt) {flow : Flow} (h : flow.Listed) :
    (Analysed.looped fields c u written body flow scopes).flow.Listed := by
  exact (h.enterLoop scopes written).leave _

mutual

theorem listed_analysed : ∀ (x : Stmt) {flow : Flow} (scopes : List Scope), flow.Listed →
    (x.analysed fields flow scopes).flow.Listed
  | .block _ xs, _, scopes, h => (listed_analysedAll xs ([] :: scopes) h).leave _
  | .expr _ e, _, _, h => listed_propagate e h
  | .localVar _ ty name none, _, scopes, h =>
    h.give fields (declaring name.value ty.value scopes) name.value none
  | .localVar _ _ _ (some e), _, _, h => (listed_propagate e h).give ..
  | .ifElse _ c t none, _, scopes, h =>
    (listed_analysed t scopes (listed_propagate c h)).join (listed_propagate c h)
  | .ifElse _ c t (some e), _, scopes, h =>
    (listed_analysed t scopes (listed_propagate c h)).join (listed_analysed e _ (listed_propagate c h))
  | .whileLoop _ _ _, _, scopes, h => h.enterLoop scopes _
  | .forLoop _ none c u _, _, _, h => listed_looped c u _ _ h
  | .forLoop _ (some i) c u _, _, scopes, h =>
    listed_looped c u _ _ (listed_analysed i ([] :: scopes) h)
  | .ret _ none, _, _, _ | .ret _ (some _), _, _, _ | .brk _, _, _, _ | .cont _, _, _, _ =>
    Flow.listed_none
  | .empty _, _, _, h => h

theorem listed_analysedAll : ∀ (xs : List Stmt) {flow : Flow} (scopes : List Scope), flow.Listed →
    (Stmt.analysedAll fields xs flow scopes).flow.Listed
  | [], _, _, h => h
  | x :: xs, _, scopes, h => listed_analysedAll xs _ (listed_analysed x scopes h)

end

mutual

theorem written_analysed : ∀ (x : Stmt) (flow : Flow) (scopes : List Scope),
    (x.analysed fields flow scopes).part.written = x.written
  | .block _ xs, flow, scopes => written_analysedAll xs flow _
  | .expr _ e, flow, _ => written_propagate e flow
  | .localVar _ _ _ none, _, _ => rfl
  | .localVar _ _ _ (some e), flow, _ => written_propagate e flow
  | .ifElse _ c t none, flow, scopes => by
    simp only [Stmt.analysed, Stmt.written, written_propagate, written_analysed t]
  | .ifElse _ c t (some e), flow, scopes => by
    simp only [Stmt.analysed, Stmt.written, written_propagate, written_analysed t, written_analysed e]
  | .whileLoop _ c b, flow, scopes => by
    simp only [Stmt.analysed, Stmt.written, written_propagate, written_analysed b]
  | .forLoop _ none c u b, flow, scopes => by
    simp only [Stmt.analysed, Analysed.looped, Stmt.written, written_propagateOpt, written_analysed b]
  | .forLoop _ (some i) c u b, flow, scopes => by
    simp only [Stmt.analysed, Analysed.looped, Stmt.written, written_propagateOpt, written_analysed b,
      written_analysed i]
  | .ret _ none, _, _ => rfl
  | .ret _ (some e), flow, _ => written_propagate e flow
  | .brk _, _, _ | .cont _, _, _ | .empty _, _, _ => rfl

theorem written_analysedAll : ∀ (xs : List Stmt) (flow : Flow) (scopes : List Scope),
    Stmt.writtenAll (Stmt.analysedAll fields xs flow scopes).part = Stmt.writtenAll xs
  | [], _, _ => rfl
  | x :: xs, flow, scopes => by
    simp only [Stmt.analysedAll, Stmt.writtenAll, written_analysed x, written_analysedAll xs]

end

open Analyse in
/-- Going again through a `for` from its condition on. -/
theorem retraces_looped {c u : Option Expr} {b : Stmt} {sc su : List (OrderedTree Placed)}
    {sb : OrderedTree Placed} (st : State) (h : st.flow.Listed)
    (hbody : ∀ st : State, st.flow.Listed → let r := b.analysed fields st.flow st.scopes
      sb.kinds = r.part.kinds → (Analyse.stmt fields sb).run st = ((), ⟨r.flow, r.scopes, st.found⟩)) :
    let r := Analysed.looped fields c u (Expr.writtenOpt c ++ (Expr.writtenOpt u ++ b.written))
      (b.analysed fields) st.flow st.scopes
    kindsAll sc = Expr.optKinds r.part.1 → kindsAll su = Expr.optKinds r.part.2.1 →
    sb.kinds = r.part.2.2.kinds →
    (do
      enterLoop (ForParts.looped ⟨sc.head?, su.head?, some sb⟩)
      aside do
        optExpr fields sc.head?
        stmt fields sb
      aside do
        optExpr fields su.head?
      leaveScope : Analyse Unit).run st = ((), ⟨r.flow, r.scopes, st.found⟩) := by
  intro r hc hu hb
  have hwritten := writtenIn_looped hc hu hb
  simp only [r, Analysed.looped, written_propagateOpt, written_analysed] at hc hu hb hwritten ⊢
  generalize hhead : st.flow.enterLoop st.scopes
    (Expr.writtenOpt c ++ (Expr.writtenOpt u ++ b.written)) = head at hc hu hb hwritten ⊢
  have hl : head.Listed := hhead ▸ h.enterLoop st.scopes _
  have hrunc := retraces_opt ⟨head, st.scopes, st.found⟩ hl hc
  have hrunb := hbody ⟨_, st.scopes, st.found⟩ (listed_propagateOpt hl) hb
  have hrunu := retraces_opt ⟨head, _, st.found⟩ hl hu
  simp only [run_then, run_enterLoop, hwritten, hhead, run_aside, hrunc, hrunb, hrunu, run_leaveScope]

open Analyse in
mutual

/-- Going again through what has become of a statement finds nothing, and comes to the same. -/
theorem retraces_stmt : ∀ (x : Stmt) {s : OrderedTree Placed} (st : State), st.flow.Listed →
    let r := x.analysed fields st.flow st.scopes
    s.kinds = r.part.kinds → (Analyse.stmt fields s).run st = ((), ⟨r.flow, r.scopes, st.found⟩)
  | .block sp xs, s, st, h, hk => by
    obtain ⟨id, span, ts, rfl, hts⟩ := kinds_eq_node hk
    have hrun := retraces_stmts xs ⟨st.flow, [] :: st.scopes, st.found⟩ h hts
    simp only [Analyse.stmt, Stmt.analysed, run_then, run_enterScope, hrun, run_leaveScope]
  | .expr sp e, s, st, h, hk => by
    obtain ⟨id, span, ts, rfl, hts⟩ := kinds_eq_node hk
    obtain ⟨se, rfl, he⟩ := kindsAll_eq_singleton hts
    have hrun := retraces_expr e st h he
    simp only [Analyse.stmt, Stmt.analysed, run_then, hrun]
    rfl
  | .localVar sp ty name none, s, st, h, hk => by
    obtain ⟨id, span, ts, rfl, hts⟩ := kinds_eq_node hk
    cases kindsAll_eq_nil hts
    simp only [Analyse.stmt, Stmt.analysed, run_then, run_declare, run_bind]
  | .localVar sp ty name (some e), s, st, h, hk => by
    obtain ⟨id, span, ts, rfl, hts⟩ := kinds_eq_node hk
    obtain ⟨se, rfl, he⟩ := kindsAll_eq_singleton hts
    have hrun := retraces_expr e st h he
    simp only [Analyse.stmt, Stmt.analysed, run_then, hrun, run_declare, run_bind]
  | .ifElse sp c yes none, s, st, h, hk => by
    obtain ⟨id, span, ts, rfl, hts⟩ := kinds_eq_node hk
    obtain ⟨sc, sy, rfl, hc, hy⟩ := kindsAll_eq_pair hts
    have hrunc := retraces_expr c st h hc
    have hruny := retraces_stmt yes ⟨_, st.scopes, st.found⟩ (listed_propagate c h) hy
    simp only [Analyse.stmt, Analyse.nthStmt, Stmt.analysed, run_then, run_flow, hrunc, hruny,
      run_setFlow]
    rfl
  | .ifElse sp c yes (some no), s, st, h, hk => by
    obtain ⟨id, span, ts, rfl, hts⟩ := kinds_eq_node hk
    obtain ⟨sc, ss, rfl, hc, hss⟩ := kindsAll_eq_cons hts
    obtain ⟨sy, sn, rfl, hy, hn⟩ := kindsAll_eq_pair hss
    have hrunc := retraces_expr c st h hc
    have hruny := retraces_stmt yes ⟨_, st.scopes, st.found⟩ (listed_propagate c h) hy
    have hrunn := retraces_stmt no ⟨_, _, st.found⟩ (listed_propagate c h) hn
    simp only [Analyse.stmt, Analyse.nthStmt, Stmt.analysed, run_then, run_flow, hrunc, hruny, hrunn,
      run_setFlow]
  | .whileLoop sp c b, s, st, h, hk => by
    obtain ⟨id, span, ts, rfl, hts⟩ := kinds_eq_node hk
    obtain ⟨sc, sb, rfl, hc, hb⟩ := kindsAll_eq_pair hts
    have hwritten := writtenIn_cons sc [sb]
    rw [writtenIn_expr _ hc, writtenIn_stmt _ hb, written_propagate, written_analysed] at hwritten
    simp only [Analyse.stmt, Stmt.analysed, run_then, run_enterLoop, hwritten, run_aside]
    generalize hhead : st.flow.enterLoop st.scopes (c.written ++ b.written) = head at hc hb ⊢
    have hl : head.Listed := hhead ▸ h.enterLoop st.scopes _
    have hrunc := retraces_expr c ⟨head, st.scopes, st.found⟩ hl hc
    have hrunb := retraces_stmt b ⟨_, st.scopes, st.found⟩ (listed_propagate c hl) hb
    simp only [hrunc, hrunb]
  | .forLoop sp none c u b, s, st, h, hk => by
    obtain ⟨id, span, ts, rfl, hts⟩ := kinds_eq_node hk
    obtain ⟨sc, su, sb, rfl, hc, hu, hb⟩ := kindsAll_eq_looped hts
    have hrun := retraces_looped ⟨st.flow, [] :: st.scopes, st.found⟩ h
      (fun st hl => retraces_stmt b st hl) hc hu hb
    obtain ⟨hparts, hget⟩ := forParts_ofList sb (show [].length = false.toNat from rfl) hc hu
    rw [List.nil_append] at hparts hget
    simp only [Analyse.stmt, nthStmt_eq, hparts, hget]
    rw [run_then, run_enterScope]
    exact hrun
  | .forLoop sp (some i) c u b, s, st, h, hk => by
    obtain ⟨id, span, ts, rfl, hts⟩ := kinds_eq_node hk
    obtain ⟨si, ts, rfl, hi, hts⟩ := kindsAll_eq_cons hts
    obtain ⟨sc, su, sb, rfl, hc, hu, hb⟩ := kindsAll_eq_looped hts
    have hruni := retraces_stmt i ⟨st.flow, [] :: st.scopes, st.found⟩ h hi
    have hrun := retraces_looped ⟨_, _, st.found⟩ (listed_analysed i ([] :: st.scopes) h)
      (fun st hl => retraces_stmt b st hl) hc hu hb
    obtain ⟨hparts, hget⟩ := forParts_ofList sb (show [si].length = true.toNat from rfl) hc hu
    rw [List.singleton_append] at hparts hget
    simp only [Analyse.stmt, nthStmt_eq, hparts, hget]
    rw [run_then, run_enterScope]
    simp only [if_true]
    rw [run_then]
    simp only [List.getElem?_cons_zero, Option.elim_some, hruni]
    exact hrun
  | .ret sp none, s, st, h, hk => by
    obtain ⟨id, span, ts, rfl, hts⟩ := kinds_eq_node hk
    cases kindsAll_eq_nil hts
    rfl
  | .ret sp (some e), s, st, h, hk => by
    obtain ⟨id, span, ts, rfl, hts⟩ := kinds_eq_node hk
    obtain ⟨se, rfl, he⟩ := kindsAll_eq_singleton hts
    have hrun := retraces_expr e st h he
    simp only [Analyse.stmt, Stmt.analysed, List.head?_cons, Analyse.optExpr, run_then, hrun]
    rfl
  | .brk sp, s, st, h, hk | .cont sp, s, st, h, hk | .empty sp, s, st, h, hk => by
    obtain ⟨id, span, ts, rfl, -⟩ := kinds_eq_node hk
    rfl

theorem retraces_stmts : ∀ (xs : List Stmt) {ss : List (OrderedTree Placed)} (st : State),
    st.flow.Listed →
    let r := Stmt.analysedAll fields xs st.flow st.scopes
    kindsAll ss = Stmt.kindsAll r.part →
    (Analyse.stmts fields ss).run st = ((), ⟨r.flow, r.scopes, st.found⟩)
  | [], ss, st, _, hk => by
    rw [kindsAll_eq_nil hk]
    rfl
  | x :: xs, ss, st, h, hk => by
    obtain ⟨s, ss, rfl, hs, hss⟩ := kindsAll_eq_cons hk
    have hrun := retraces_stmt x st h hs
    have hrun' := retraces_stmts xs ⟨_, _, st.found⟩ (listed_analysed x st.scopes h) hss
    simp only [Analyse.stmts, Stmt.analysedAll, run_then, hrun, hrun']

end

end

end Constants

/-! ## Members, classes and programs -/

/-- The analysis finds nothing in a field or method, wherever its nodes are. -/
def Member.Settled (fields : Constants.Scope) (m : Member) : Prop :=
  ∀ s : OrderedTree Placed, s.kinds = m.kinds → Constants.replacements fields s = []

def ClassDecl.Settled (c : ClassDecl) : Prop := ∀ m ∈ c.members, m.Settled c.fields

/-- There is nothing to propagate in a program. -/
def CompilationUnit.Settled (unit : CompilationUnit) : Prop := ∀ c ∈ unit.classes, c.Settled

open Constants in
theorem Member.settled_analysed (m : Member) (fields : Scope) : (m.analysed fields).Settled fields := by
  have hl : Flow.Listed (some []) := ⟨by rintro _ ⟨⟩; exact .nil⟩
  intro s hk
  cases m with
  | field sp d =>
    obtain ⟨id, span, ts, rfl, hts⟩ := kinds_eq_node hk
    rcases kindsAll_eq_optKinds hts with ⟨-, rfl⟩ | ⟨e, se, hinit, rfl, he⟩
    · rfl
    · cases hd : d.init with
      | none => simp only [FieldDecl.propagate, hd, Expr.propagateOpt, reduceCtorEq] at hinit
      | some init =>
        simp only [FieldDecl.propagate, hd, Expr.propagateOpt, Option.some.injEq] at hinit
        rw [← hinit] at he
        have hrun := @retraces_expr fields init _ ⟨some [], [], []⟩ hl he
        exact congrArg (fun r => r.2.found.reverse) hrun
  | method sp d =>
    obtain ⟨id, span, ts, rfl, hts⟩ := kinds_eq_node hk
    obtain ⟨sb, rfl, hb⟩ := kindsAll_eq_singleton hts
    have hblock : sb.kinds = ((Stmt.block d.body.span d.body.stmts).analysed fields (some [])
      [d.scope]).part.kinds := hb
    have hrun := @retraces_stmt fields (.block d.body.span d.body.stmts) _
      ⟨some [], [d.scope], []⟩ hl hblock
    exact congrArg (fun r => r.2.found.reverse) hrun

/-- The pass keeps the fields of a class. -/
theorem ClassDecl.fields_analysed (c : ClassDecl) : c.analysed.fields = c.fields := by
  have hfield : ∀ m : Member, (m.analysed c.fields).declaredField? = m.declaredField? := by
    intro m
    cases m <;> rfl
  refine congrArg List.reverse ?_
  rw [ClassDecl.analysed, List.filterMap_map]
  exact List.filterMap_congr fun m _ => hfield m

/-- After the pass there is nothing to propagate. -/
theorem CompilationUnit.settled_analysed (unit : CompilationUnit) : unit.analysed.Settled := by
  intro c' hc' m' hm'
  obtain ⟨c, -, rfl⟩ := List.mem_map.mp hc'
  obtain ⟨m, -, rfl⟩ := List.mem_map.mp hm'
  rw [ClassDecl.fields_analysed]
  exact m.settled_analysed c.fields

namespace Constants

variable {t : Tree} {q : Placed}

/-- A walk leaves settled members alone. -/
theorem parts_of_walked_settled_members {F : Scope} : ∀ {ms : List Member}
    {ss ss' before : List (OrderedTree Placed)} {c : Bool}, (∀ m ∈ ms, m.Settled F) →
    partsAll ss = ms.map Member.parts → fieldsIn (before ++ ss) = F →
    Walk.WalkedAll visitor.wants Plugged ss q before ss' c →
      partsAll ss' = ms.map Member.parts ∧ c = false := by
  intro ms
  induction ms with
  | nil =>
    intro ss ss' before c _ hp _ hw
    cases partsAll_eq_nil hp
    unfold Walk.WalkedAll at hw
    obtain ⟨rfl, hc⟩ := hw
    exact ⟨rfl, hc⟩
  | cons m ms ih =>
    intro ss ss' before c hm hp hF hw
    obtain ⟨s, ss, rfl, hsp, hssp⟩ := partsAll_eq_cons hp
    rw [List.forall_mem_cons] at hm
    unfold Walk.WalkedAll at hw
    obtain ⟨s', ss'', c₁, c₂, rfl, hw₁, hw₂, rfl⟩ := hw
    obtain ⟨hlabel, hparts, hc₁⟩ := plugged_of_walked_member hsp hw₁
    have hnone : replacements F s = [] := hm.1 s (kinds_of_parts hsp)
    rw [hF, hnone, plug_nil, hsp] at hparts
    rw [hF, hnone] at hc₁
    have hF' : fieldsIn (before ++ [s'] ++ ss) = F := by
      rw [List.append_assoc]
      exact (fieldsIn_congr hlabel).trans hF
    obtain ⟨hrest, rfl⟩ := ih hm.2 hssp hF' hw₂
    exact ⟨by rw [partsAll, hparts, hrest, List.map_cons], by rw [hc₁]; rfl⟩

/-- A walk leaves settled classes alone. -/
theorem parts_of_walked_settled_classes : ∀ {ds : List ClassDecl}
    {ss ss' before : List (OrderedTree Placed)} {c : Bool}, (∀ d ∈ ds, d.Settled) →
    partsAll ss = ds.map ClassDecl.parts → Walk.WalkedAll visitor.wants Plugged ss q before ss' c →
      partsAll ss' = ds.map ClassDecl.parts ∧ c = false := by
  intro ds
  induction ds with
  | nil =>
    intro ss ss' before c _ hp hw
    cases partsAll_eq_nil hp
    unfold Walk.WalkedAll at hw
    obtain ⟨rfl, hc⟩ := hw
    exact ⟨rfl, hc⟩
  | cons d ds ih =>
    intro ss ss' before c hd hp hw
    obtain ⟨s, ss, rfl, hsp, hssp⟩ := partsAll_eq_cons hp
    rw [List.forall_mem_cons] at hd
    unfold Walk.WalkedAll at hw
    obtain ⟨s', ss'', c₁, c₂, rfl, hw₁, hw₂, rfl⟩ := hw
    obtain ⟨id, ts, rfl, hts⟩ := parts_eq_node hsp
    unfold Walk.Walked at hw₁
    obtain ⟨ts', c₃, hall, rfl, rfl⟩ := hw₁
    have hfields : fieldsIn ([] ++ ts) = d.fields := fieldsIn_eq hts
    obtain ⟨hmembers, rfl⟩ := parts_of_walked_settled_members hd.1 hts hfields hall
    obtain ⟨hrest, rfl⟩ := ih hd.2 hssp hw₂
    exact ⟨by rw [partsAll, parts, hmembers, hrest, List.map_cons]; rfl, rfl⟩

/-- Propagating constants in the tree of a settled program changes nothing. -/
theorem run_fold_settled {unit : CompilationUnit} (h : t.Holds unit) (hs : unit.Settled) :
    ∃ t', (fold t.root).run t = .ok false t' ∧ t'.Holds unit := by
  obtain ⟨ss, ss', c, t', -, hparts, hwalk, hwf', -, hs', hrun⟩ := h.run_walk visitor_does rfl
  obtain ⟨hparts', rfl⟩ := parts_of_walked_settled_classes hs hparts hwalk
  exact ⟨t', hrun, hwf', ss', hs', hparts'⟩

end Constants

end JavaFold
