import JavaFold.Proofs.Pass.Constants.Found
import JavaFold.Proofs.Pass.Constants.Typed
import JavaFold.Proofs.Program.Parsed

/-!
# What is known at every moment

What is known is kept by name alone, while a name may be declared anew in an inner scope. So each variable is known
here together with the depth of the scope that declared it last when it became known (`Binding`), and the analysis is
followed with all moments that it passes (`Trace`): each step that changes what is known, or the scopes, leads to a new
moment. A declaration and the value that it gives are one step, and so are the end of a scope and what it forgets.
Without the depths it is the analysis of the tree (`Trace.Agrees.run_expr`, `Trace.Agrees.run_stmt`).

At every moment a variable that is known has a value of its type, and the depth at which it became known is the one
where it is declared (`Moment.Sound`). Every step keeps this, so every statement that can be written does
(`Stmt.sound_follow`). A declaration hides what was known of another variable, because it says anew what is known, and
the end of a scope forgets what it declares; where two ways meet, both have the same scopes.
-/

namespace JavaFold

namespace Constants

/-! ## Where variables are declared -/

/-- The number of scopes from the outside up to the one that declares a variable last, or zero if none does. -/
def depthOf (name : String) : List Scope → Nat
  | [] => 0
  | scope :: scopes => if scope.any (·.1 == name) then scopes.length + 1 else depthOf name scopes

section

variable {x name : String} {ty : Ty} {scope : Scope}

theorem depthOf_le (name : String) : ∀ scopes : List Scope, depthOf name scopes ≤ scopes.length
  | [] => Nat.le_refl 0
  | scope :: scopes => by
    rw [depthOf, List.length_cons]
    split
    · exact Nat.le_refl _
    · exact Nat.le_succ_of_le (depthOf_le name scopes)

/-- Without the innermost scope, a name that it does not declare is declared where it was. -/
theorem depthOf_cons {scopes : List Scope} (h : scope.any (·.1 == x) = false) :
    depthOf x (scope :: scopes) = depthOf x scopes := by
  rw [depthOf, if_neg (by simp [h])]

theorem depthOf_declaring_ne {scopes : List Scope} (h : x ≠ name) :
    depthOf x (declaring name ty scopes) = depthOf x scopes := by
  cases scopes with
  | nil => rfl
  | cons scope scopes => simp only [declaring, depthOf, List.any_cons, beq_false_of_ne h.symm, Bool.false_or]

end

/-! ## What is known, and since when -/

/-- A variable with the literal that it holds, and the depth of its declaration when that became known. -/
structure Binding where
  name : String
  value : Literal
  depth : Nat

/-- What the analysis keeps of a binding. -/
def Binding.fact (b : Binding) : String × Literal := (b.name, b.value)

theorem Binding.map_fact_filter (p : String × Literal → Bool) (bindings : List Binding) :
    (bindings.filter (p ·.fact)).map fact = (bindings.map fact).filter p :=
  List.filter_map.symm

/-- What is known at a point, or nothing where control cannot get to. -/
abbrev Bindings := Option (List Binding)

namespace Bindings

/-- What the analysis keeps of what is known. -/
def flow (known : Bindings) : Flow := known.map (·.map Binding.fact)

/-- Forgets the variables that `keep` does not hold for. -/
def keep (keep : String → Bool) (known : Bindings) : Bindings := known.map (·.filter (keep ·.name))

/-- A variable gets a value, of which nothing may be known. -/
def give (fields : Scope) (scopes : List Scope) (name : String) (value : Option Literal) (known : Bindings) : Bindings :=
  known.map fun bindings =>
    let others := bindings.filter (·.name != name)
    match value with
    | none => others
    | some v =>
      if (declaredType? scopes fields name).any (holds · v) then ⟨name, v, depthOf name scopes⟩ :: others
      else others

/-- What is known where two ways meet. -/
def join : Bindings → Bindings → Bindings
  | none, b => b
  | a, none => a
  | some a, some b => some (a.filter fun x => (b.map Binding.fact).lookup x.name == some x.value)

section

variable (known other : Bindings)

theorem flow_keep (keep : String → Bool) : (known.keep keep).flow = known.flow.map (·.filter (keep ·.1)) := by
  cases known with
  | none => rfl
  | some bindings => exact congrArg some (Binding.map_fact_filter (keep ·.1) bindings)

theorem flow_give (fields : Scope) (scopes : List Scope) (name : String) (value : Option Literal) :
    (known.give fields scopes name value).flow = known.flow.give fields scopes name value := by
  cases known with
  | none => rfl
  | some bindings =>
    have hothers : (bindings.filter (·.name != name)).map Binding.fact =
        Facts.forget (bindings.map Binding.fact) name := Binding.map_fact_filter (·.1 != name) bindings
    refine congrArg some ?_
    cases value with
    | none => exact hothers
    | some v =>
      dsimp only
      split
      · exact congrArg ((name, v) :: ·) hothers
      · exact hothers

theorem flow_join : (known.join other).flow = known.flow.join other.flow := by
  cases known with
  | none => rfl
  | some a =>
    cases other with
    | none => rfl
    | some b => exact congrArg some (Binding.map_fact_filter (fun x => (b.map Binding.fact).lookup x.1 == some x.2) a)

end

end Bindings

/-- Forgetting the variables of a scope one by one keeps the others. -/
theorem Flow.leave_eq (flow : Flow) (scope : Scope) :
    flow.leave scope = flow.map (·.filter fun fact => !scope.any (·.1 == fact.1)) := by
  refine congrArg (flow.map ·) (funext fun facts => ?_)
  induction scope generalizing facts with
  | nil => simp
  | cons v scope ih =>
    rw [List.foldl_cons, ih, Facts.forget, List.filter_filter]
    refine List.filter_congr fun fact _ => ?_
    rw [List.any_cons, Bool.not_or, Bool.and_comm, bne_comm]
    rfl

/-! ## Following the analysis -/

/-- What has led to a moment. -/
inductive Event
  /-- A call, or a write to a field of any object. -/
  | fieldsWritten
  /-- The end of a scope. -/
  | scopeEnded
  | other
deriving DecidableEq, Repr

/-- A point of the analysis: what has led to it, the scopes there, and what is known. -/
structure Moment where
  event : Event
  scopes : List Scope
  known : Bindings

/-- The analysis up to a moment, with those that it has passed, the latest first. -/
structure Trace where
  now : Moment
  passed : List Moment

namespace Trace

/-- All moments. -/
def moments (T : Trace) : List Moment := T.now :: T.passed

/-- What is known now. -/
abbrev known (T : Trace) : Bindings := T.now.known

abbrev scopes (T : Trace) : List Scope := T.now.scopes

/-- What the analysis keeps of what is known now. -/
abbrev flow (T : Trace) : Flow := T.known.flow

/-- A new moment comes. -/
def reach (T : Trace) (event : Event) (scopes : List Scope) (known : Bindings) : Trace :=
  ⟨⟨event, scopes, known⟩, T.moments⟩

/-- Forgets all variables that are not local. -/
def forgetFields (T : Trace) : Trace := T.reach .fieldsWritten T.scopes (T.known.keep (isLocal T.scopes))

/-- A name is written to. -/
def write (fields : Scope) (name : String) (value : Option Literal) (T : Trace) : Trace :=
  if isDotted name then T.forgetFields
  else T.reach .other T.scopes (T.known.give fields T.scopes name value)

/-- The innermost scope declares a variable, which has a value from then on; nothing may be known of it. -/
def declare (fields : Scope) (name : String) (ty : Ty) (value : Option Literal) (T : Trace) : Trace :=
  let inner := declaring name ty T.scopes
  T.reach .other inner (T.known.give fields inner name value)

/-- Forgets what a loop may write to. -/
def enterLoop (written : List (Option String)) (T : Trace) : Trace :=
  T.reach .other T.scopes (T.known.keep fun name =>
    !written.contains (some name) && (!written.contains none || isLocal T.scopes name))

def enterScope (T : Trace) : Trace := T.reach .other ([] :: T.scopes) T.known

/-- The innermost scope ends, and its variables are forgotten. -/
def leaveScope (T : Trace) : Trace :=
  T.reach .scopeEnded T.scopes.tail (T.known.keep fun name => !(T.scopes.headD []).any (·.1 == name))

/-- Goes on from what was known before. -/
def resume (known : Bindings) (T : Trace) : Trace := T.reach .other T.scopes known

/-- Another way ends here, with what is known at its end. -/
def meet (known : Bindings) (T : Trace) : Trace := T.reach .other T.scopes (known.join T.known)

/-- Control does not get any further. -/
def stop (T : Trace) : Trace := T.reach .other T.scopes none

/-- A step of the variable `target`. -/
def step (fields : Scope) (op : StepOp) (target : Expr) (T : Trace) : Trace :=
  match target.name? with
  | none => T.forgetFields
  | some name => T.write fields name ((T.flow.value? name).bind op.eval?)

section

variable (T : Trace) (fields : Scope)

theorem flow_forgetFields : T.forgetFields.flow = T.flow.forgetFields T.scopes := Bindings.flow_keep _ _

theorem write_eq (name : String) (value : Option Literal) :
    (T.write fields name value).flow = T.flow.write fields T.scopes name value ∧
      (T.write fields name value).scopes = T.scopes := by
  unfold write Flow.write
  split
  · exact ⟨T.flow_forgetFields, rfl⟩
  · exact ⟨Bindings.flow_give _ _ _ _ _, rfl⟩

theorem flow_declare (name : String) (ty : Ty) (value : Option Literal) : (T.declare fields name ty value).flow =
    T.flow.give fields (declaring name ty T.scopes) name value := Bindings.flow_give _ _ _ _ _

theorem flow_enterLoop (written : List (Option String)) :
    (T.enterLoop written).flow = T.flow.enterLoop T.scopes written :=
  T.known.flow_keep fun name => !written.contains (some name) && (!written.contains none || isLocal T.scopes name)

theorem flow_leaveScope : T.leaveScope.flow = T.flow.leave (T.scopes.headD []) := by
  rw [Flow.leave_eq]
  exact T.known.flow_keep fun name => !(T.scopes.headD []).any (·.1 == name)

theorem flow_meet (known : Bindings) : (T.meet known).flow = known.flow.join T.flow := Bindings.flow_join _ _

theorem step_eq (op : StepOp) (isAfter : Bool) (target e : Expr) :
    (T.step fields op target).flow = (Propagated.step fields T.scopes op isAfter target e T.flow).flow ∧
      (T.step fields op target).scopes = T.scopes := by
  unfold step Propagated.step
  cases target.name? with
  | none => exact ⟨T.flow_forgetFields, rfl⟩
  | some name => exact T.write_eq fields name _

end

end Trace

end Constants

open OrderedTree
open Constants (Scope Flow Trace)

namespace Expr

mutual

/-- Follows the analysis of an expression. -/
def follow (fields : Scope) : Expr → Trace → Trace
  | literal _ _, T | name _ _, T => T
  | binary _ op l r, T =>
    let left := follow fields l T
    let right := follow fields r left
    if op.isShortCircuit then right.meet left.known else right
  | unary _ (.step op) e, T => T.step fields op e
  | unary _ _ e, T => follow fields e T
  | postStep _ op e, T => T.step fields op e
  | assign _ op t v, T =>
    let right := follow fields v T
    match t.name? with
    | none => right.forgetFields
    | some x =>
      right.write fields x (Propagated.assigned op (T.flow.value? x) (v.propagate fields T.scopes T.flow).value)
  | call _ _ args, T => (followAll fields args T).forgetFields

def followAll (fields : Scope) : List Expr → Trace → Trace
  | [], T => T
  | e :: es, T => followAll fields es (follow fields e T)

end

/-- Follows the analysis of an expression that may be missing. -/
def followOpt (fields : Scope) (e : Option Expr) (T : Trace) : Trace := e.elim T (·.follow fields T)

variable (fields : Scope)

mutual

/-- What is known along the analysis is what it says itself. -/
theorem follow_eq : ∀ (e : Expr) (T : Trace), (e.follow fields T).flow = (e.propagate fields T.scopes T.flow).flow ∧
    (e.follow fields T).scopes = T.scopes
  | literal _ _, T => ⟨rfl, rfl⟩
  | name _ x, T => by
    rw [follow, propagate]
    split <;> exact ⟨rfl, rfl⟩
  | binary _ op l r, T => by
    obtain ⟨hl, hls⟩ := follow_eq l T
    obtain ⟨hr, hrs⟩ := follow_eq r (l.follow fields T)
    rw [hls, hl] at hr
    rw [hls] at hrs
    rw [follow, propagate]
    dsimp only
    split
    · exact ⟨(Trace.flow_meet _ _).trans (congrArg₂ Flow.join hl hr), hrs⟩
    · exact ⟨hr, hrs⟩
  | unary _ (.step op) e, T => T.step_eq fields op false e _
  | unary _ .neg e, T | unary _ .not e, T | unary _ .bitNot e, T => follow_eq e T
  | postStep _ op e, T => T.step_eq fields op true e _
  | assign _ op t v, T => by
    obtain ⟨hv, hvs⟩ := follow_eq v T
    rw [follow, propagate]
    cases t.name? with
    | none => exact ⟨by rw [Trace.flow_forgetFields, hv, hvs], hvs⟩
    | some x =>
      obtain ⟨hw, hws⟩ := (v.follow fields T).write_eq fields x _
      exact ⟨hw.trans (by rw [hv, hvs]), hws.trans hvs⟩
  | call _ _ args, T => by
    obtain ⟨hargs, hs⟩ := followAll_eq args T
    rw [follow, propagate]
    exact ⟨by rw [Trace.flow_forgetFields, hargs, hs], hs⟩

theorem followAll_eq : ∀ (es : List Expr) (T : Trace),
    (followAll fields es T).flow = (propagateAll fields T.scopes es T.flow).2 ∧
      (followAll fields es T).scopes = T.scopes
  | [], T => ⟨rfl, rfl⟩
  | e :: es, T => by
    obtain ⟨he, hes⟩ := follow_eq e T
    obtain ⟨hall, hs⟩ := followAll_eq es (e.follow fields T)
    rw [hes, he] at hall
    exact ⟨hall, hs.trans hes⟩

end

theorem followOpt_eq (e : Option Expr) (T : Trace) :
    (followOpt fields e T).flow = (propagateOpt fields T.scopes e T.flow).2 ∧
      (followOpt fields e T).scopes = T.scopes := by
  cases e with
  | none => exact ⟨rfl, rfl⟩
  | some e => exact follow_eq fields e T

end Expr

/-- Follows the analysis of a `for` from its condition on, given that of the body. -/
def Constants.Trace.looped (fields : Scope) (c u : Option Expr) (written : List (Option String)) (body : Trace → Trace)
    (T : Trace) : Trace :=
  let head := T.enterLoop written
  let round := body (Expr.followOpt fields c head)
  let update := Expr.followOpt fields u (round.resume head.known)
  (update.resume head.known).leaveScope

namespace Stmt

mutual

/-- Follows the analysis of a statement. -/
def follow (fields : Scope) : Stmt → Trace → Trace
  | block _ ss, T => (followAll fields ss T.enterScope).leaveScope
  | expr _ e, T => e.follow fields T
  | localVar _ ty name none, T => T.declare fields name.value ty.value none
  | localVar _ ty name (some e), T =>
    (e.follow fields T).declare fields name.value ty.value (e.propagate fields T.scopes T.flow).value
  | ifElse _ c t none, T =>
    let cond := c.follow fields T
    let yes := follow fields t cond
    (yes.resume cond.known).meet yes.known
  | ifElse _ c t (some e), T =>
    let cond := c.follow fields T
    let yes := follow fields t cond
    (follow fields e (yes.resume cond.known)).meet yes.known
  | whileLoop _ c b, T =>
    let head := T.enterLoop (c.written ++ b.written)
    (follow fields b (c.follow fields head)).resume head.known
  | forLoop _ none c u b, T =>
    T.enterScope.looped fields c u (Expr.writtenOpt c ++ (Expr.writtenOpt u ++ b.written)) (follow fields b)
  | forLoop _ (some i) c u b, T =>
    (follow fields i T.enterScope).looped fields c u (Expr.writtenOpt c ++ (Expr.writtenOpt u ++ b.written))
      (follow fields b)
  | ret _ none, T => T.stop
  | ret _ (some e), T => (e.follow fields T).stop
  | brk _, T | cont _, T => T.stop
  | empty _, T => T

def followAll (fields : Scope) : List Stmt → Trace → Trace
  | [], T => T
  | s :: ss, T => followAll fields ss (follow fields s T)

end

variable (fields : Scope)

/-- What is known along a loop is what the analysis says, if it is so in the body. -/
theorem looped_eq (c u : Option Expr) (written : List (Option String)) {b : Stmt}
    (hbody : ∀ T : Trace, (b.follow fields T).flow = (b.analysed fields T.flow T.scopes).flow ∧
      (b.follow fields T).scopes = (b.analysed fields T.flow T.scopes).scopes) (T : Trace) :
    let r := Analysed.looped fields c u written (b.analysed fields) T.flow T.scopes
    (T.looped fields c u written (b.follow fields)).flow = r.flow ∧
      (T.looped fields c u written (b.follow fields)).scopes = r.scopes := by
  have hhead := T.flow_enterLoop written
  obtain ⟨hc, hcs⟩ := Expr.followOpt_eq fields c (T.enterLoop written)
  obtain ⟨-, hbs⟩ := hbody (Expr.followOpt fields c (T.enterLoop written))
  rw [hcs, hc, hhead] at hbs
  have hus := (Expr.followOpt_eq fields u
    ((b.follow fields (Expr.followOpt fields c (T.enterLoop written))).resume (T.enterLoop written).known)).2.trans hbs
  constructor
  · refine (Trace.flow_leaveScope _).trans ?_
    exact congrArg₂ (fun flow (scopes : List Scope) => flow.leave (scopes.headD [])) hhead hus
  · exact congrArg List.tail hus

mutual

/-- What is known along the analysis of a statement is what it says itself. -/
theorem follow_eq : ∀ (x : Stmt) (T : Trace), (x.follow fields T).flow = (x.analysed fields T.flow T.scopes).flow ∧
    (x.follow fields T).scopes = (x.analysed fields T.flow T.scopes).scopes
  | block _ ss, T => by
    obtain ⟨hss, hs⟩ := followAll_eq ss T.enterScope
    refine ⟨(Trace.flow_leaveScope _).trans ?_, congrArg List.tail hs⟩
    exact congrArg₂ (fun flow (scopes : List Scope) => flow.leave (scopes.headD [])) hss hs
  | expr _ e, T => e.follow_eq fields T
  | localVar _ ty name none, T => ⟨T.flow_declare fields _ _ _, rfl⟩
  | localVar _ ty name (some e), T => by
    obtain ⟨he, hes⟩ := e.follow_eq fields T
    refine ⟨((e.follow fields T).flow_declare fields _ _ _).trans ?_, ?_⟩
    · rw [he, hes, analysed]
    · exact congrArg (Constants.declaring name.value ty.value) hes
  | ifElse _ c t none, T => by
    obtain ⟨hc, hcs⟩ := c.follow_eq fields T
    obtain ⟨ht, hts⟩ := follow_eq t (c.follow fields T)
    rw [hcs, hc] at ht hts
    exact ⟨(Trace.flow_meet _ _).trans (congrArg₂ Flow.join ht hc), hts⟩
  | ifElse _ c t (some e), T => by
    obtain ⟨hc, hcs⟩ := c.follow_eq fields T
    obtain ⟨ht, hts⟩ := follow_eq t (c.follow fields T)
    rw [hcs, hc] at ht hts
    obtain ⟨he, hes⟩ := follow_eq e ((t.follow fields (c.follow fields T)).resume (c.follow fields T).known)
    have hs : ((t.follow fields (c.follow fields T)).resume (c.follow fields T).known).scopes = _ := hts
    have hf : ((t.follow fields (c.follow fields T)).resume (c.follow fields T).known).flow = _ := hc
    rw [hs, hf] at he hes
    exact ⟨(Trace.flow_meet _ _).trans (congrArg₂ Flow.join ht he), hes⟩
  | whileLoop _ c b, T => by
    have hhead := T.flow_enterLoop (c.written ++ b.written)
    obtain ⟨hc, hcs⟩ := c.follow_eq fields (T.enterLoop (c.written ++ b.written))
    obtain ⟨-, hbs⟩ := follow_eq b (c.follow fields (T.enterLoop (c.written ++ b.written)))
    rw [hcs, hc, hhead] at hbs
    exact ⟨hhead, hbs⟩
  | forLoop _ none c u b, T => looped_eq fields c u _ (follow_eq b) T.enterScope
  | forLoop _ (some i) c u b, T => by
    obtain ⟨hi, his⟩ := follow_eq i T.enterScope
    have hlooped := looped_eq fields c u (Expr.writtenOpt c ++ (Expr.writtenOpt u ++ b.written)) (follow_eq b)
      (i.follow fields T.enterScope)
    rw [his, hi] at hlooped
    exact hlooped
  | ret _ none, T => ⟨rfl, rfl⟩
  | ret _ (some e), T => ⟨rfl, (e.follow_eq fields T).2⟩
  | brk _, T | cont _, T | empty _, T => ⟨rfl, rfl⟩

theorem followAll_eq : ∀ (xs : List Stmt) (T : Trace),
    (followAll fields xs T).flow = (analysedAll fields xs T.flow T.scopes).flow ∧
      (followAll fields xs T).scopes = (analysedAll fields xs T.flow T.scopes).scopes
  | [], T => ⟨rfl, rfl⟩
  | x :: xs, T => by
    obtain ⟨hx, hxs⟩ := follow_eq x T
    obtain ⟨hall, hs⟩ := followAll_eq xs (x.follow fields T)
    rw [hxs, hx] at hall hs
    exact ⟨hall, hs⟩

end

/-- The scopes after a statement that can be written are those that it declares. -/
theorem scopes_follow {x : Stmt} (legal : x.Legal) (T : Trace) : (x.follow fields T).scopes = x.declared T.scopes := by
  rw [(follow_eq fields x T).2, analysed_eq fields x _ _ legal]

/-- A statement that can be written and is no declaration leaves the scopes as they are. -/
theorem scopes_follow_eq {x : Stmt} (legal : x.Legal) (h : x.isDeclaration = false) (T : Trace) :
    (x.follow fields T).scopes = T.scopes := by
  rw [scopes_follow fields legal, declared_eq h]

end Stmt

/-- Follows the analysis of a method. -/
def MethodDecl.follow (fields : Scope) (d : MethodDecl) : Trace :=
  (Stmt.block d.body.span d.body.stmts).follow fields ⟨⟨.other, [d.scope], some []⟩, []⟩

/-! ## The analysis of the tree -/

namespace Constants

/-- The analysis has come to the present moment. -/
def Trace.Agrees (T : Trace) (st : State) : Prop := st.flow = T.flow ∧ st.scopes = T.scopes

variable {t : Tree} {s : OrderedTree Placed} {fields : Scope} {T : Trace} {st : State}

/-- Going through the tree of an expression comes where following the expression does. -/
theorem Trace.Agrees.run_expr (h : t.WellFormed) (hs : t.Shows s) {e : Expr} (hp : s.parts = e.parts)
    (ha : T.Agrees st) : (e.follow fields T).Agrees ((Analyse.expr fields s).run st).2 := by
  obtain ⟨hf, hfs⟩ := e.follow_eq fields T
  obtain ⟨rs, -, hrun⟩ : Finds (Analyse.expr fields s) st _ _ _ _ _ := finds_expr h e st hs hp
  rw [hrun, Agrees, hf, hfs, ← ha.1, ← ha.2]
  exact ⟨rfl, rfl⟩

theorem Trace.Agrees.run_stmt (h : t.WellFormed) (hs : t.Shows s) {x : Stmt} (hp : s.parts = x.parts)
    (ha : T.Agrees st) : (x.follow fields T).Agrees ((Analyse.stmt fields s).run st).2 := by
  obtain ⟨hf, hfs⟩ := x.follow_eq fields T
  obtain ⟨rs, -, hrun⟩ : Finds (Analyse.stmt fields s) st _ _ _ _ _ := finds_stmt h x st hs hp
  rw [hrun, Agrees, hf, hfs, ← ha.1, ← ha.2]
  exact ⟨rfl, rfl⟩

theorem agrees_run_member (h : t.WellFormed) (hs : t.Shows s) {span : Span} {d : MethodDecl}
    (hp : s.parts = (Member.method span d).parts) :
    (d.follow fields).Agrees ((Analyse.member fields s).run ⟨some [], [], []⟩).2 := by
  obtain ⟨id, ts, rfl, hts⟩ := parts_eq_node hp
  obtain ⟨sb, rfl, hb⟩ := partsAll_eq_singleton hts
  have hblock : sb.parts = (Stmt.block d.body.span d.body.stmts).parts := hb
  have hstart : (⟨⟨.other, [d.scope], some []⟩, []⟩ : Trace).Agrees ⟨some [], [d.scope], []⟩ := ⟨rfl, rfl⟩
  exact hstart.run_stmt h hs.2.1 hblock

/-! ## Every moment -/

/-- A variable that is known has a value of its type, and has become known where it is declared. -/
def Bindings.Sound (fields : Scope) (scopes : List Scope) (known : Bindings) : Prop :=
  ∀ bindings ∈ known, ∀ b ∈ bindings,
    (declaredType? scopes fields b.name).any (holds · b.value) = true ∧ b.depth = depthOf b.name scopes

/-- What is known at a moment is sound, and of local variables only if fields have just been written to. -/
structure Moment.Sound (fields : Scope) (m : Moment) : Prop where
  known : m.known.Sound fields m.scopes
  locals : m.event = .fieldsWritten → ∀ bindings ∈ m.known, ∀ b ∈ bindings, isLocal m.scopes b.name = true

/-- All moments are sound. -/
def Trace.Sound (fields : Scope) (T : Trace) : Prop := ∀ m ∈ T.moments, m.Sound fields

namespace Bindings.Sound

variable {scopes : List Scope} {known : Bindings} {name : String}

theorem unreachable : Bindings.Sound fields scopes none := nofun

/-- Less may be known. -/
theorem filter {bindings : List Binding} (h : Bindings.Sound fields scopes (some bindings)) (keep : Binding → Bool) :
    Bindings.Sound fields scopes (some (bindings.filter keep)) := by
  intro all hall b hb
  cases hall
  exact h bindings rfl b (List.mem_filter.mp hb).1

theorem keep (h : known.Sound fields scopes) (keep : String → Bool) : (known.keep keep).Sound fields scopes := by
  cases known with
  | none => exact unreachable
  | some bindings => exact h.filter _

theorem join {other : Bindings} (h : known.Sound fields scopes) (h' : other.Sound fields scopes) :
    (known.join other).Sound fields scopes := by
  cases known with
  | none => exact h'
  | some a =>
    cases other with
    | none => exact h
    | some b => exact h.filter _

/-- What is known anew is sound where it is known; the others may not be declared anew. -/
theorem give {scopes' : List Scope} (h : known.Sound fields scopes) (value : Option Literal)
    (htypes : ∀ x, x ≠ name → declaredType? scopes' fields x = declaredType? scopes fields x)
    (hdepths : ∀ x, x ≠ name → depthOf x scopes' = depthOf x scopes) :
    (known.give fields scopes' name value).Sound fields scopes' := by
  intro all hall b hb
  obtain ⟨bindings, hbindings, rfl⟩ := Option.map_eq_some_iff.mp hall
  have hothers : b ∈ bindings.filter (·.name != name) →
      (declaredType? scopes' fields b.name).any (holds · b.value) = true ∧ b.depth = depthOf b.name scopes' := by
    intro hb
    obtain ⟨hmem, hne⟩ := List.mem_filter.mp hb
    rw [htypes _ (bne_iff_ne.mp hne), hdepths _ (bne_iff_ne.mp hne)]
    exact h bindings hbindings b hmem
  cases value with
  | none => exact hothers hb
  | some v =>
    dsimp only at hb
    split at hb
    · next hholds =>
      rcases List.mem_cons.mp hb with rfl | hb
      · exact ⟨hholds, rfl⟩
      · exact hothers hb
    · exact hothers hb

theorem enterScope (h : known.Sound fields scopes) : known.Sound fields ([] :: scopes) := h

/-- What the innermost scope does not declare is declared where it was. -/
theorem leave (h : known.Sound fields scopes) :
    (known.keep fun name => !(scopes.headD []).any (·.1 == name)).Sound fields scopes.tail := by
  cases scopes with
  | nil => exact h.keep _
  | cons scope scopes =>
    intro all hall b hb
    obtain ⟨bindings, hbindings, rfl⟩ := Option.map_eq_some_iff.mp hall
    obtain ⟨hmem, hkept⟩ := List.mem_filter.mp hb
    have hother : scope.any (·.1 == b.name) = false := by simpa using hkept
    rw [List.tail_cons, ← declaredType?_cons hother, ← depthOf_cons hother]
    exact h bindings hbindings b hmem

end Bindings.Sound

namespace Trace.Sound

theorem now (h : T.Sound fields) : T.known.Sound fields T.scopes := (h T.now List.mem_cons_self).known

/-- A step that leads to a sound moment. -/
theorem reach (h : T.Sound fields) {event : Event} {scopes : List Scope} {known : Bindings}
    (hm : Moment.Sound fields ⟨event, scopes, known⟩) : (T.reach event scopes known).Sound fields := by
  intro m hmem
  rcases List.mem_cons.mp hmem with rfl | hmem
  · exact hm
  · exact h m hmem

/-- A step that only what is known matters for. -/
theorem other (h : T.Sound fields) {scopes : List Scope} {known : Bindings} (hk : known.Sound fields scopes) :
    (T.reach .other scopes known).Sound fields := h.reach ⟨hk, nofun⟩

theorem forgetFields (h : T.Sound fields) : T.forgetFields.Sound fields := by
  refine h.reach ⟨h.now.keep _, fun _ all hall b hb => ?_⟩
  obtain ⟨bindings, -, rfl⟩ := Option.map_eq_some_iff.mp hall
  exact (List.mem_filter.mp hb).2

theorem write (h : T.Sound fields) (name : String) (value : Option Literal) :
    (T.write fields name value).Sound fields := by
  unfold Trace.write
  split
  · exact h.forgetFields
  · exact h.other (h.now.give value (fun _ _ => rfl) fun _ _ => rfl)

theorem declare (h : T.Sound fields) (name : String) (ty : Ty) (value : Option Literal) :
    (T.declare fields name ty value).Sound fields :=
  h.other (h.now.give value (fun _ hx => declaredType?_declaring_ne hx) fun _ hx => depthOf_declaring_ne hx)

theorem enterLoop (h : T.Sound fields) (written : List (Option String)) : (T.enterLoop written).Sound fields :=
  h.other (h.now.keep _)

theorem enterScope (h : T.Sound fields) : T.enterScope.Sound fields := h.other h.now.enterScope

theorem leaveScope (h : T.Sound fields) : T.leaveScope.Sound fields := h.reach ⟨h.now.leave, nofun⟩

theorem resume {known : Bindings} (h : T.Sound fields) (hk : known.Sound fields T.scopes) :
    (T.resume known).Sound fields := h.other hk

theorem meet {known : Bindings} (h : T.Sound fields) (hk : known.Sound fields T.scopes) :
    (T.meet known).Sound fields := h.other (hk.join h.now)

theorem stop (h : T.Sound fields) : T.stop.Sound fields := h.other .unreachable

theorem step (h : T.Sound fields) (op : StepOp) (target : Expr) : (T.step fields op target).Sound fields := by
  unfold Trace.step
  split
  · exact h.forgetFields
  · exact h.write _ _

end Trace.Sound

end Constants

section

variable {fields : Scope} {T : Trace}

namespace Expr

mutual

/-- All moments in an expression are sound. -/
theorem sound_follow : ∀ (e : Expr) {T : Trace}, T.Sound fields → (e.follow fields T).Sound fields
  | literal _ _, _, h | name _ _, _, h => h
  | binary _ op l r, T, h => by
    have hl := sound_follow l h
    have hr := sound_follow r hl
    rw [follow]
    split
    · exact hr.meet (by rw [(follow_eq fields r _).2]; exact hl.now)
    · exact hr
  | unary _ (.step op) e, _, h => h.step op e
  | unary _ .neg e, _, h | unary _ .not e, _, h | unary _ .bitNot e, _, h => sound_follow e h
  | postStep _ op e, _, h => h.step op e
  | assign _ op t v, _, h => by
    have hv := sound_follow v h
    rw [follow]
    cases t.name? with
    | none => exact hv.forgetFields
    | some x => exact hv.write x _
  | call _ _ args, _, h => (sound_followAll args h).forgetFields

theorem sound_followAll : ∀ (es : List Expr) {T : Trace}, T.Sound fields → (followAll fields es T).Sound fields
  | [], _, h => h
  | e :: es, _, h => sound_followAll es (sound_follow e h)

end

theorem sound_followOpt (e : Option Expr) (h : T.Sound fields) : (followOpt fields e T).Sound fields := by
  cases e with
  | none => exact h
  | some e => exact sound_follow e h

end Expr

namespace Stmt

/-- All moments in a loop are sound, if those in its body are and it declares nothing around it. -/
theorem sound_looped (c u : Option Expr) (written : List (Option String)) {b : Stmt} (legal : b.Legal)
    (hdeclares : b.isDeclaration = false) (hbody : ∀ {T : Trace}, T.Sound fields → (b.follow fields T).Sound fields)
    (h : T.Sound fields) : (T.looped fields c u written (b.follow fields)).Sound fields := by
  have hhead := h.enterLoop written
  have hround := hbody (Expr.sound_followOpt c hhead)
  have hscopes : (b.follow fields (Expr.followOpt fields c (T.enterLoop written))).scopes =
      (T.enterLoop written).scopes := by
    rw [scopes_follow_eq fields legal hdeclares, (Expr.followOpt_eq fields c _).2]
  have hupdate := Expr.sound_followOpt u (hround.resume (by rw [hscopes]; exact hhead.now))
  refine (hupdate.resume ?_).leaveScope
  rw [(Expr.followOpt_eq fields u _).2]
  exact hscopes ▸ hhead.now

mutual

/-- All moments in a statement that can be written are sound. -/
theorem sound_follow : ∀ (x : Stmt) {T : Trace}, x.Legal → T.Sound fields → (x.follow fields T).Sound fields
  | block _ ss, _, legal, h => (sound_followAll ss legal h.enterScope).leaveScope
  | expr _ e, _, _, h => e.sound_follow h
  | localVar _ ty name none, _, _, h => h.declare name.value ty.value none
  | localVar _ ty name (some e), _, _, h => (e.sound_follow h).declare name.value ty.value _
  | ifElse _ c t none, T, legal, h => by
    have hc := c.sound_follow h
    have ht := sound_follow t legal.2.1 hc
    have hscopes := scopes_follow_eq fields legal.2.1 legal.2.2 (c.follow fields T)
    exact (ht.resume (by rw [hscopes]; exact hc.now)).meet ht.now
  | ifElse _ c t (some e), T, legal, h => by
    obtain ⟨-, htlegal, htd, -, helegal, hed⟩ := legal
    have hc := c.sound_follow h
    have ht := sound_follow t htlegal hc
    have hscopes := scopes_follow_eq fields htlegal htd (c.follow fields T)
    have he := sound_follow e helegal (ht.resume (by rw [hscopes]; exact hc.now))
    exact he.meet (by rw [scopes_follow_eq fields helegal hed]; exact ht.now)
  | whileLoop _ c b, _, legal, h => by
    have hhead := h.enterLoop (c.written ++ b.written)
    have hb := sound_follow b legal.2.1 (c.sound_follow hhead)
    exact hb.resume (by rw [scopes_follow_eq fields legal.2.1 legal.2.2, (c.follow_eq fields _).2]; exact hhead.now)
  | forLoop _ none c u b, _, legal, h => by
    obtain ⟨-, -, hb, hbd⟩ := legal
    exact sound_looped c u _ hb hbd (sound_follow b hb) h.enterScope
  | forLoop _ (some i) c u b, _, legal, h => by
    obtain ⟨hi, -, -, -, hb, hbd⟩ := legal
    exact sound_looped c u _ hb hbd (sound_follow b hb) (sound_follow i hi h.enterScope)
  | ret _ none, _, _, h => h.stop
  | ret _ (some e), _, _, h => (e.sound_follow h).stop
  | brk _, _, _, h | cont _, _, _, h => h.stop
  | empty _, _, _, h => h

theorem sound_followAll : ∀ (xs : List Stmt) {T : Trace}, LegalAll xs → T.Sound fields →
    (followAll fields xs T).Sound fields
  | [], _, _, h => h
  | x :: xs, _, legal, h => sound_followAll xs legal.2 (sound_follow x legal.1 h)

end

end Stmt

theorem MethodDecl.sound_follow {d : MethodDecl} (legal : Stmt.LegalAll d.body.stmts) (fields : Scope) :
    (d.follow fields).Sound fields := by
  refine Stmt.sound_follow (.block d.body.span d.body.stmts) legal fun m hm => ?_
  rw [List.mem_singleton.mp hm]
  refine ⟨fun bindings hb b hmem => ?_, nofun⟩
  cases hb
  cases hmem

end

/-- The tree of a program has a subtree for each field or method. -/
theorem Tree.Holds.exists_member {t : Tree} {unit : CompilationUnit} (h : t.Holds unit) {c : ClassDecl}
    (hc : c ∈ unit.classes) {m : Member} (hm : m ∈ c.members) : ∃ s, t.Shows s ∧ s.parts = m.parts := by
  obtain ⟨ss, hs, hparts⟩ := h.shows
  rw [partsAll_eq_map] at hparts
  obtain ⟨sc, hsc, hclass⟩ := List.mem_map.mp (hparts ▸ List.mem_map_of_mem hc : c.parts ∈ ss.map parts)
  obtain ⟨id, us, rfl, hmembers⟩ := parts_eq_node hclass
  rw [partsAll_eq_map] at hmembers
  obtain ⟨u, hu, hmember⟩ := List.mem_map.mp (hmembers ▸ List.mem_map_of_mem hm : m.parts ∈ us.map parts)
  exact ⟨u, (hs.below _ hsc).below u hu, hmember⟩

open Constants (Analyse depthOf declaredType? holds isLocal)

/-- At every moment of the analysis of a method that is read from a text, each variable that is known has a value of the
type by its innermost declaration, and has become known under that declaration; so where a scope has ended, nothing is
left that became known under a declaration inside it, and where fields have just been written to, only local variables
are known. The moments are those of the analysis of the tree: going through a part of the tree leads from one to another
as following the part of the program does. -/
theorem CompilationUnit.known_at_every_moment {source : String} {unit : CompilationUnit} {comments : List Comment}
    (h : ofSource? source = .ok (unit, comments)) :
    ∀ c ∈ unit.classes, ∀ span d, Member.method span d ∈ c.members →
      (∀ m ∈ (d.follow c.fields).moments, ∀ bindings ∈ m.known, ∀ b ∈ bindings,
        (∃ ty, declaredType? m.scopes c.fields b.name = some ty ∧ holds ty b.value = true) ∧
        b.depth = depthOf b.name m.scopes ∧
        (m.event = .scopeEnded → b.depth ≤ m.scopes.length) ∧
        (m.event = .fieldsWritten → isLocal m.scopes b.name = true)) ∧
      (∀ (t : Tree) (s : OrderedTree Placed), t.WellFormed → t.Shows s →
        (s.parts = (Member.method span d).parts →
          (d.follow c.fields).Agrees ((Analyse.member c.fields s).run ⟨some [], [], []⟩).2) ∧
        ∀ (T : Trace) (st : Constants.State), T.Agrees st →
          (∀ x : Stmt, s.parts = x.parts → (x.follow c.fields T).Agrees ((Analyse.stmt c.fields s).run st).2) ∧
          ∀ e : Expr, s.parts = e.parts → (e.follow c.fields T).Agrees ((Analyse.expr c.fields s).run st).2) := by
  intro c hc span d hd
  have legal : (Member.method span d).Legal := ((legal_of_ofSource? h) c hc).members _ hd
  refine ⟨fun m hm bindings hbindings b hb => ?_, fun t s hwf hs => ⟨Constants.agrees_run_member hwf hs,
    fun T st ha => ⟨fun x hp => ha.run_stmt hwf hs hp, fun e hp => ha.run_expr hwf hs hp⟩⟩⟩
  have hsound := MethodDecl.sound_follow (MethodDecl.Legal.body legal) c.fields m hm
  obtain ⟨htype, hdepth⟩ := hsound.known bindings hbindings b hb
  exact ⟨(Option.any_eq_true ..).mp htype, hdepth, fun _ => hdepth ▸ Constants.depthOf_le _ _,
    fun hwritten => hsound.locals hwritten bindings hbindings b hb⟩

/-- After the call in an inner block the variable that is declared there is known, and it is the one that is local; the
analysis of the program's tree has come to where this one has. -/
theorem CompilationUnit.known_at_every_moment_shadowing : ∃ unit comments,
    ofSource? "class A { int x; void m(int y) { x = 1; { boolean x = true; f(x); } y = x; } }" = .ok (unit, comments) ∧
      ∃ c ∈ unit.classes, ∃ span d, Member.method span d ∈ c.members ∧
        ∃ m ∈ (d.follow c.fields).moments, m.event = .fieldsWritten ∧ ∃ bindings ∈ m.known, ∃ b ∈ bindings,
          b.depth = 3 ∧ depthOf b.name m.scopes = 3 ∧ isLocal m.scopes b.name = true ∧
          ∃ s, (Tree.ofUnit unit).Shows s ∧ s.parts = (Member.method span d).parts ∧
            (d.follow c.fields).Agrees ((Analyse.member c.fields s).run ⟨some [], [], []⟩).2 := by
  have hok : (ofSource? "class A { int x; void m(int y) { x = 1; { boolean x = true; f(x); } y = x; } }").toOption.any
      (fun parsed => parsed.1.classes.any fun c => c.members.any (Member.casesOn · (fun _ _ => false)
        fun _ d => (d.follow c.fields).moments.any fun m =>
          m.event == .fieldsWritten && m.known.any (·.any (·.depth == 3)))) = true := by decide +kernel
  obtain ⟨⟨unit, comments⟩, hparsed, hok⟩ := (Option.any_eq_true ..).mp hok
  have h := eq_ok_of_toOption hparsed
  obtain ⟨c, hc, hok⟩ := List.any_eq_true.mp hok
  obtain ⟨member, hmember, hok⟩ := List.any_eq_true.mp hok
  cases member with
  | field => cases hok
  | method span d =>
    obtain ⟨m, hm, hok⟩ := List.any_eq_true.mp hok
    rw [Bool.and_eq_true, beq_iff_eq, Option.any_eq_true] at hok
    obtain ⟨hevent, bindings, hbindings, hok⟩ := hok
    obtain ⟨b, hb, hthree⟩ := List.any_eq_true.mp hok
    have hthree := beq_iff_eq.mp hthree
    obtain ⟨s, hs, hparts⟩ := (Tree.holds_ofUnit unit).exists_member hc hmember
    obtain ⟨hknown, htree⟩ := known_at_every_moment h c hc span d hmember
    obtain ⟨-, hdepth, -, hlocal⟩ := hknown m hm bindings hbindings b hb
    exact ⟨unit, comments, h, c, hc, span, d, hmember, m, hm, hevent, bindings, hbindings, b, hb, hthree,
      hdepth.symm.trans hthree, hlocal hevent, s, hs, hparts, (htree _ s (Tree.wellFormed_ofUnit unit) hs).1 hparts⟩

end JavaFold
