import JavaFold.Pass.FixedPoint
import JavaFold.Proofs.Pass.Basic
import JavaFold.Proofs.Pass.Constants.Soundness
import JavaFold.Proofs.Pass.Constants.Visit
import JavaFold.Proofs.Program.Parsed
import JavaFold.Proofs.Tree.Reading

/-!
# Propagating constants in the tree of a program

The pass turns the tree of a program into that of the propagated program (`run_fold`). What is
read from the tree afterwards is this program but for the spans of names and types, and all of its
fields and methods run as they did before (`fold_keepsBehaviour`).
-/

namespace JavaFold

open OrderedTree

namespace Constants

/-! ## Nodes that are passed over -/

mutual

theorem not_isMember_expr : ∀ e : Expr, ∀ p ∈ e.parts.labels, isMember p.kind = false
  | .literal _ _ | .name _ _ => by simp [Expr.parts, labels, labelsAll, isMember]
  | .unary _ _ e | .postStep _ _ e => by
    have he := not_isMember_expr e
    simpa [Expr.parts, labels, labelsAll, isMember] using he
  | .binary _ _ l r | .assign _ _ l r => by
    have hl := not_isMember_expr l
    have hr := not_isMember_expr r
    simpa [Expr.parts, labels, labelsAll, isMember, or_imp, forall_and] using And.intro hl hr
  | .call _ _ args => by
    have hargs := not_isMember_exprs args
    simpa [Expr.parts, labels, isMember] using hargs

theorem not_isMember_exprs : ∀ es : List Expr, ∀ p ∈ labelsAll (Expr.partsAll es),
    isMember p.kind = false
  | [] => by simp [Expr.partsAll, labelsAll]
  | e :: es => by
    have he := not_isMember_expr e
    have hes := not_isMember_exprs es
    simpa [Expr.partsAll, labelsAll, or_imp, forall_and] using And.intro he hes

end

theorem not_isMember_opt (e : Option Expr) : ∀ p ∈ labelsAll (Expr.optParts e),
    isMember p.kind = false := by
  cases e with
  | none => exact fun p hp => absurd hp List.not_mem_nil
  | some e => simpa [Expr.optParts, labelsAll] using not_isMember_expr e

mutual

theorem not_isMember_stmt : ∀ x : Stmt, ∀ p ∈ x.parts.labels, isMember p.kind = false
  | .block _ xs => by
    have hxs := not_isMember_stmts xs
    simpa [Stmt.parts, labels, isMember] using hxs
  | .expr _ e => by
    have he := not_isMember_expr e
    simpa [Stmt.parts, labels, labelsAll, isMember] using he
  | .localVar _ _ _ e | .ret _ e => by
    have he := not_isMember_opt e
    simpa [Stmt.parts, labels, isMember] using he
  | .ifElse _ c t none | .whileLoop _ c t => by
    have hc := not_isMember_expr c
    have ht := not_isMember_stmt t
    simpa [Stmt.parts, labels, labelsAll, isMember, or_imp, forall_and] using And.intro hc ht
  | .ifElse _ c t (some e) => by
    have hc := not_isMember_expr c
    have ht := not_isMember_stmt t
    have he := not_isMember_stmt e
    simpa [Stmt.parts, labels, labelsAll, isMember, or_imp, forall_and] using ⟨hc, ht, he⟩
  | .forLoop _ none c u b => by
    have hc := not_isMember_opt c
    have hu := not_isMember_opt u
    have hb := not_isMember_stmt b
    simpa [Stmt.parts, labels, labelsAll, labelsAll_append, isMember, or_imp, forall_and] using
      ⟨hc, hu, hb⟩
  | .forLoop _ (some i) c u b => by
    have hi := not_isMember_stmt i
    have hc := not_isMember_opt c
    have hu := not_isMember_opt u
    have hb := not_isMember_stmt b
    simpa [Stmt.parts, labels, labelsAll, labelsAll_append, isMember, or_imp, forall_and] using
      ⟨hi, hc, hu, hb⟩
  | .brk _ | .cont _ | .empty _ => by simp [Stmt.parts, labels, labelsAll, isMember]

theorem not_isMember_stmts : ∀ xs : List Stmt, ∀ p ∈ labelsAll (Stmt.partsAll xs),
    isMember p.kind = false
  | [] => by simp [Stmt.partsAll, labelsAll]
  | x :: xs => by
    have hx := not_isMember_stmt x
    have hxs := not_isMember_stmts xs
    simpa [Stmt.partsAll, labelsAll, or_imp, forall_and] using And.intro hx hxs

end

/-- Below a member there are no members. -/
theorem not_isMember_below (m : Member) : ∀ p ∈ labelsAll m.parts.children, isMember p.kind = false := by
  cases m with
  | field s d => exact not_isMember_opt d.init
  | method s d =>
    have hbody := not_isMember_stmt (.block d.body.span d.body.stmts)
    simpa [Member.parts, Stmt.parts, children, labelsAll] using hbody

open Walk in
mutual

/-- A walk changes nothing where no node is wanted. -/
theorem walked_of_unwanted {wants : NodeKind → Bool} {R : Effect} : ∀ {s s' : OrderedTree Placed}
    {q : Placed} {before after : List (OrderedTree Placed)} {c : Bool},
    (∀ p ∈ s.labels, wants p.kind = false) → Walked wants R s q before after s' c →
      s' = s ∧ c = false
  | .node p ss, s', q, before, after, c, h, hw => by
    rw [labels, List.forall_mem_cons] at h
    unfold Walked at hw
    obtain ⟨ss', c₁, hall, hw⟩ := hw
    obtain ⟨rfl, rfl⟩ := walkedAll_of_unwanted h.2 hall
    rw [if_neg (by simp [h.1])] at hw
    exact hw

theorem walkedAll_of_unwanted {wants : NodeKind → Bool} {R : Effect} :
    ∀ {ss ss' : List (OrderedTree Placed)} {q : Placed} {before : List (OrderedTree Placed)} {c : Bool},
    (∀ p ∈ labelsAll ss, wants p.kind = false) → WalkedAll wants R ss q before ss' c →
      ss' = ss ∧ c = false
  | [], ss', q, before, c, _, hw => by
    unfold WalkedAll at hw
    exact hw
  | s :: ss, ss', q, before, c, h, hw => by
    rw [labelsAll, List.forall_mem_append] at h
    unfold WalkedAll at hw
    obtain ⟨s', ss'', c₁, c₂, rfl, hw₁, hw₂, rfl⟩ := hw
    obtain ⟨rfl, rfl⟩ := walked_of_unwanted h.1 hw₁
    obtain ⟨rfl, rfl⟩ := walkedAll_of_unwanted h.2 hw₂
    exact ⟨rfl, rfl⟩

end

/-! ## Classes and programs -/

section

variable {t : Tree} {q : Placed}

theorem isMember_parts {m : Member} {p : Placed} {ts : List (OrderedTree Placed)}
    (hp : (OrderedTree.node p ts).parts = m.parts) : isMember p.kind = true := by
  have hlabel := congrArg (fun s => isMember s.label.kind) hp
  refine hlabel.trans ?_
  cases m <;> rfl

/-- A walk over a member is a visit of it. -/
theorem plugged_of_walked_member {m : Member} {s s' : OrderedTree Placed}
    {before after : List (OrderedTree Placed)} {c : Bool} (hp : s.parts = m.parts)
    (hw : Walk.Walked visitor.wants Plugged s q before after s' c) : Plugged q before s after s' c := by
  obtain ⟨p, ts⟩ := s
  unfold Walk.Walked at hw
  obtain ⟨ts', c₁, hall, hw⟩ := hw
  rw [if_pos (show visitor.wants p.kind = true from isMember_parts hp)] at hw
  have hbelow : ∀ l ∈ labelsAll ts, visitor.wants l.kind = false := by
    have hparts : partsAll ts = m.parts.children := congrArg children hp
    intro l hl
    refine not_isMember_below m l.part ?_
    rw [← hparts, labelsAll_partsAll]
    exact List.mem_map_of_mem hl
  obtain ⟨rfl, rfl⟩ := walkedAll_of_unwanted hbelow hall
  obtain ⟨c₂, hplugged, rfl⟩ := hw
  exact hplugged

/-- A walk over a member. -/
theorem parts_of_walked_member (h : t.WellFormed) {m : Member} {s s' : OrderedTree Placed}
    {before after : List (OrderedTree Placed)} {c : Bool} (hs : t.Shows s)
    (hp : s.parts = m.parts) (hw : Walk.Walked visitor.wants Plugged s q before after s' c) :
    s'.label = s.label ∧
      s'.parts = (m.analysed (fieldsIn (before ++ s :: after))).parts := by
  obtain ⟨hlabel, hplug, -⟩ := plugged_of_walked_member hp hw
  exact ⟨hlabel, hplug.trans (plug_replacements h hs hp)⟩

/-- The fields of a class are told by its nodes. -/
theorem fieldsIn_eq {ms : List Member} {ss : List (OrderedTree Placed)}
    (hp : partsAll ss = ms.map Member.parts) :
    fieldsIn ss = (ms.filterMap Member.declaredField?).reverse := by
  have hfield : ∀ m : Member, fieldOf? m.parts.label.kind = m.declaredField? := by
    intro m
    cases m <;> rfl
  have hfields : ∀ ss : List (OrderedTree Placed),
      (ss.filterMap fun s => fieldOf? s.label.kind) =
        (partsAll ss).filterMap fun s => fieldOf? s.label.kind := by
    intro ss
    rw [partsAll_eq_map, List.filterMap_map]
    refine List.filterMap_congr fun s _ => ?_
    cases s
    rfl
  rw [fieldsIn, hfields, hp, List.filterMap_map]
  exact congrArg List.reverse (List.filterMap_congr fun m _ => hfield m)

theorem fieldsIn_congr {before : List (OrderedTree Placed)} {s s' : OrderedTree Placed}
    {after : List (OrderedTree Placed)} (hlabel : s'.label = s.label) :
    fieldsIn (before ++ s' :: after) = fieldsIn (before ++ s :: after) := by
  rw [fieldsIn, fieldsIn, List.filterMap_append, List.filterMap_append, List.filterMap_cons,
    List.filterMap_cons, hlabel]

/-- A walk over the members of a class. -/
theorem parts_of_walked_members (h : t.WellFormed) {F : Scope} : ∀ {ms : List Member}
    {ss ss' before : List (OrderedTree Placed)} {c : Bool}, t.ShowsAll ss →
    partsAll ss = ms.map Member.parts → fieldsIn (before ++ ss) = F →
    Walk.WalkedAll visitor.wants Plugged ss q before ss' c →
      partsAll ss' = (ms.map (Member.analysed F)).map Member.parts := by
  intro ms
  induction ms with
  | nil =>
    intro ss ss' before c _ hp _ hw
    cases partsAll_eq_nil hp
    unfold Walk.WalkedAll at hw
    rw [hw.1]
    rfl
  | cons m ms ih =>
    intro ss ss' before c hs hp hF hw
    obtain ⟨s, ss, rfl, hsp, hssp⟩ := partsAll_eq_cons hp
    unfold Walk.WalkedAll at hw
    obtain ⟨s', ss'', c₁, c₂, rfl, hw₁, hw₂, -⟩ := hw
    obtain ⟨hlabel, hparts⟩ := parts_of_walked_member h hs.1 hsp hw₁
    have hF' : fieldsIn (before ++ [s'] ++ ss) = F := by
      rw [List.append_assoc]
      exact (fieldsIn_congr hlabel).trans hF
    rw [partsAll, hparts, hF, ih hs.2 hssp hF' hw₂]
    rfl

/-- A walk over a class. -/
theorem parts_of_walked_class (h : t.WellFormed) {d : ClassDecl} {s s' : OrderedTree Placed}
    {before after : List (OrderedTree Placed)} {c : Bool} (hs : t.Shows s) (hp : s.parts = d.parts)
    (hw : Walk.Walked visitor.wants Plugged s q before after s' c) :
    s'.parts = d.analysed.parts := by
  obtain ⟨id, ts, rfl, hts⟩ := parts_eq_node hp
  unfold Walk.Walked at hw
  obtain ⟨ts', c₁, hall, rfl, -⟩ := hw
  have hfields : fieldsIn ([] ++ ts) = d.fields := fieldsIn_eq hts
  have hmembers := parts_of_walked_members h hs.2 hts hfields hall
  rw [parts, hmembers]
  rfl

/-- A walk over the classes of a program. -/
theorem parts_of_walked_classes (h : t.WellFormed) : ∀ {ds : List ClassDecl}
    {ss ss' before : List (OrderedTree Placed)} {c : Bool}, t.ShowsAll ss →
    partsAll ss = ds.map ClassDecl.parts → Walk.WalkedAll visitor.wants Plugged ss q before ss' c →
      partsAll ss' = (ds.map ClassDecl.analysed).map ClassDecl.parts := by
  intro ds
  induction ds with
  | nil =>
    intro ss ss' before c _ hp hw
    cases partsAll_eq_nil hp
    unfold Walk.WalkedAll at hw
    rw [hw.1]
    rfl
  | cons d ds ih =>
    intro ss ss' before c hs hp hw
    obtain ⟨s, ss, rfl, hsp, hssp⟩ := partsAll_eq_cons hp
    unfold Walk.WalkedAll at hw
    obtain ⟨s', ss'', c₁, c₂, rfl, hw₁, hw₂, -⟩ := hw
    rw [partsAll, parts_of_walked_class h hs.1 hsp hw₁, ih hs.2 hssp hw₂]
    rfl

/-- Propagating constants in the tree of a program succeeds, and gives the tree of what the pass makes
of the program. -/
theorem run_fold {unit : CompilationUnit} (h : t.Holds unit) :
    ∃ c t', (fold t.root).run t = .ok c t' ∧ t'.Holds unit.analysed := by
  obtain ⟨ss, ss', c, t', hs, hparts, hwalk, hwf', hroot, hs', hrun⟩ := h.run_walk visitor_does rfl
  exact ⟨c, t', hrun, hwf', ss', hs', parts_of_walked_classes h.wellFormed hs.2 hparts hwalk⟩

/-- Propagating constants in the tree of a program that can be written succeeds, and gives the tree of
the propagated program. -/
theorem run_fold_ofUnit {unit : CompilationUnit} (legal : unit.Legal) :
    ∃ c t' s', (fold (Tree.ofUnit unit).root).run (Tree.ofUnit unit) = .ok c t' ∧
      t'.subtree? t'.root = some s' ∧
      partsAll s'.children = unit.propagate.classes.map ClassDecl.parts := by
  obtain ⟨c, t', hrun, hwf, ss, hs, hparts⟩ := run_fold (Tree.holds_ofUnit unit)
  rw [CompilationUnit.analysed_eq legal] at hparts
  exact ⟨c, t', _, hrun, hwf.subtree?_of_shows hs, hparts⟩

end

end Constants

/-! ## Runs of what is read -/

open Constants (Scope)

/-- Spans of names play no part in what a statement declares. -/
theorem Stmt.declared_unplaced (s : Stmt) (scopes : List Scope) : s.unplaced.declared scopes = s.declared scopes := by
  cases s with
  | ifElse _ _ _ e => cases e <;> rfl
  | forLoop _ i _ _ _ => cases i <;> rfl
  | _ => rfl

theorem ClassDecl.fields_unplaced (c : ClassDecl) : c.unplaced.fields = c.fields := by
  rw [fields, unplaced, List.filterMap_map]
  congr 2
  funext m
  cases m <;> rfl

namespace Execution

/-- Spans of names, types and paths play no part in a run. -/
theorem name?_unplaced (e : Expr) : e.unplaced.name? = e.name? := by
  cases e <;> rfl

theorem isConstant_unplaced : ∀ e : Expr, e.unplaced.isConstant = e.isConstant
  | .literal _ _ | .name _ _ | .unary _ (.step _) _ | .postStep _ _ _ | .assign _ _ _ _ | .call _ _ _ => rfl
  | .binary _ _ l r => by
    rw [Expr.unplaced, Expr.isConstant, isConstant_unplaced l, isConstant_unplaced r, Expr.isConstant]
  | .unary _ .neg e | .unary _ .not e | .unary _ .bitNot e => isConstant_unplaced e

section

variable {V σ : Type} (S : Semantics V σ) (w : World V) (fields : Scope)

section

variable (scopes : List Scope)

mutual

theorem eval_unplaced : ∀ (e : Expr) (joined : Bool),
    eval S w fields scopes joined e.unplaced = eval S w fields scopes joined e
  | .literal _ _, _ | .name _ _, _ => rfl
  | .binary _ op l r, joined => by
    simp only [Expr.unplaced, eval, eval_unplaced l, eval_unplaced r, isConstant_unplaced]
  | .unary _ op e, joined => by
    have he := eval_unplaced e
    cases op <;> simp only [Expr.unplaced, eval, step, name?_unplaced, he]
  | .postStep _ op e, joined => by
    simp only [Expr.unplaced, eval, step, name?_unplaced]
  | .assign _ op t v, joined => by
    have hv := eval_unplaced v
    cases op <;> simp only [Expr.unplaced, eval, name?_unplaced, hv]
  | .call _ path args, joined => by
    simp only [Expr.unplaced, eval, evalAll_unplaced args]
    rfl

theorem evalAll_unplaced : ∀ es : List Expr,
    evalAll S w fields scopes (Expr.unplacedAll es) = evalAll S w fields scopes es
  | [] => rfl
  | e :: es => by
    simp only [Expr.unplacedAll, evalAll, eval_unplaced e, evalAll_unplaced es]

end

theorem test_unplaced (e : Option Expr) :
    test S w fields scopes (e.map Expr.unplaced) = test S w fields scopes e := by
  cases e with
  | none => rfl
  | some e => simp only [Option.map_some, test, eval_unplaced]

theorem evalOpt_unplaced (e : Option Expr) :
    evalOpt S w fields scopes (e.map Expr.unplaced) = evalOpt S w fields scopes e := by
  cases e with
  | none => rfl
  | some e => simp only [Option.map_some, evalOpt, eval_unplaced]

end

variable (n : Nat)

mutual

theorem exec_unplaced : ∀ (s : Stmt) (scopes : List Scope),
    exec S w fields n scopes s.unplaced = exec S w fields n scopes s
  | .block _ ss, scopes => by simp only [Stmt.unplaced, exec, execAll_unplaced ss]
  | .expr _ e, scopes => by simp only [Stmt.unplaced, exec, eval_unplaced]
  | .localVar _ _ _ none, _ => rfl
  | .localVar _ _ _ (some e), scopes => by
    simp only [Stmt.unplaced, Option.map_some, exec, eval_unplaced]
    rfl
  | .ifElse _ c t none, scopes => by
    have hc := test_unplaced S w fields scopes (some c)
    simp only [Option.map_some] at hc
    simp only [Stmt.unplaced, exec, hc, exec_unplaced t]
  | .ifElse _ c t (some e), scopes => by
    have hc := test_unplaced S w fields scopes (some c)
    simp only [Option.map_some] at hc
    simp only [Stmt.unplaced, exec, hc, exec_unplaced t, exec_unplaced e]
  | .whileLoop _ c b, scopes => by
    have hc := test_unplaced S w fields scopes (some c)
    simp only [Option.map_some] at hc
    simp only [Stmt.unplaced, exec, hc, exec_unplaced b]
  | .forLoop _ none c u b, scopes => by
    simp only [Stmt.unplaced, exec, test_unplaced, evalOpt_unplaced, exec_unplaced b]
  | .forLoop _ (some i) c u b, scopes => by
    simp only [Stmt.unplaced, exec, Stmt.declared_unplaced, test_unplaced, evalOpt_unplaced, exec_unplaced b,
      exec_unplaced i]
  | .ret _ none, _ => rfl
  | .ret _ (some e), scopes => by simp only [Stmt.unplaced, Option.map_some, exec, eval_unplaced]
  | .brk _, _ | .cont _, _ | .empty _, _ => rfl

theorem execAll_unplaced : ∀ (ss : List Stmt) (scopes : List Scope),
    execAll S w fields n scopes (Stmt.unplacedAll ss) = execAll S w fields n scopes ss
  | [], _ => rfl
  | s :: ss, scopes => by
    simp only [Stmt.unplacedAll, execAll, Stmt.declared_unplaced, exec_unplaced s, execAll_unplaced ss]

end

end

end Execution

section

variable {V σ : Type} (S : Execution.Semantics V σ) (fields : Scope)

theorem MethodDecl.runIn_unplaced (d : MethodDecl) : d.unplaced.runIn S fields = d.runIn S fields := by
  funext w args f n
  have hbody := Execution.exec_unplaced S w fields n (.block d.body.span d.body.stmts) [d.scope]
  rw [Stmt.unplaced] at hbody
  exact congrArg (fun x : Execution.Run V σ (Execution.Completion V) => Execution.behaviour
    (x.run ⟨[(Execution.arguments d.params args).reverse], f, [], S.start⟩)) hbody

theorem FieldDecl.runIn_unplaced (d : FieldDecl) : d.unplaced.runIn S fields = d.runIn S fields := by
  funext w f
  cases hinit : d.init with
  | none => simp only [runIn, unplaced, hinit, Option.map_none]
  | some e =>
    simp only [runIn, unplaced, hinit, Option.map_some, Execution.eval_unplaced]
    rfl

theorem Member.runIn_unplaced (m : Member) : m.unplaced.runIn S fields = m.runIn S fields := by
  funext w args f n
  cases m with
  | field s d => exact congrFun (congrFun (d.runIn_unplaced S fields) w) f
  | method s d => exact congrFun (congrFun (congrFun (congrFun (d.runIn_unplaced S fields) w) args) f) n

end

/-- Two fields of a class that are declared alike, or two methods that are declared alike, and do the same whenever they
run. -/
inductive Member.Alike (fields : Scope) : Member → Member → Prop
  | field {s s' : Span} {d d' : FieldDecl} (modifiers : d'.modifiers = d.modifiers)
      (ty : d'.ty.value = d.ty.value) (name : d'.name.value = d.name.value)
      (run : d'.runIn .plain fields = d.runIn .plain fields) : Alike fields (.field s d) (.field s' d')
  | method {s s' : Span} {d d' : MethodDecl} (modifiers : d'.modifiers = d.modifiers)
      (ret : d'.ret.value = d.ret.value) (name : d'.name.value = d.name.value)
      (params : d'.params = d.params) (run : d'.runIn .plain fields = d.runIn .plain fields) :
      Alike fields (.method s d) (.method s' d')

/-- Two classes with members that are alike, one by one. -/
structure ClassDecl.Alike (c c' : ClassDecl) : Prop where
  modifiers : c'.modifiers = c.modifiers
  name : c'.name.value = c.name.value
  members : List.Forall₂ (Member.Alike c.fields) c.members c'.members

/-- Two programs with classes that are alike, one by one. -/
def CompilationUnit.Alike (unit unit' : CompilationUnit) : Prop :=
  List.Forall₂ ClassDecl.Alike unit.classes unit'.classes

theorem Member.alike_propagate {m : Member} (legal : m.Legal) (fields : Scope) :
    m.Alike fields (m.propagate fields).unplaced := by
  have hrun : (m.propagate fields).unplaced.runIn .plain fields = m.runIn .plain fields := by
    rw [Member.runIn_unplaced]
    exact Member.runIn_propagate legal (fun c _ => c.harmless_converting .none) (m.unmixed_none fields)
  cases m with
  | field s d => exact .field rfl rfl rfl (funext fun w => funext fun f => congrFun (congrFun₃ hrun w [] f) 0)
  | method s d => exact .method rfl rfl rfl rfl hrun

theorem ClassDecl.alike_propagate {c : ClassDecl} (legal : c.Legal) : c.Alike c.propagate.unplaced := by
  refine ⟨rfl, rfl, ?_⟩
  refine List.forall₂_map_right_iff.mpr (List.forall₂_map_right_iff.mpr (List.forall₂_same.mpr ?_))
  exact fun m hm => Member.alike_propagate (legal.members m hm) c.fields

/-- A program that can be written and the propagated one are alike. -/
theorem CompilationUnit.alike_propagate {unit : CompilationUnit} (legal : unit.Legal) :
    unit.Alike unit.propagate.unplaced := by
  refine List.forall₂_map_right_iff.mpr (List.forall₂_map_right_iff.mpr (List.forall₂_same.mpr ?_))
  exact fun c hc => ClassDecl.alike_propagate (legal c hc)

namespace Constants

/-- Propagating constants in the tree of a program that has been read succeeds, the tree is then one of
a program, and all methods and initial values of fields of this program do what they did before, whatever
the values of the fields and parameters are, and whatever operators, calls and names with several parts may
do. -/
theorem fold_keepsBehaviour {source : String} {unit : CompilationUnit} {comments : List Comment}
    (h : CompilationUnit.ofSource? source = .ok (unit, comments)) :
    ∃ c t' unit', (PassKind.constantPropagation.fold (Tree.ofUnit unit).root).run
        (Tree.ofUnit unit) = .ok c t' ∧
      t'.unit? = .ok unit' ∧ unit.Alike unit' := by
  have legal := CompilationUnit.legal_of_ofSource? h
  obtain ⟨c, t', s', hrun, hs, hparts⟩ := run_fold_ofUnit legal
  exact ⟨c, t', unit.propagate.unplaced, hrun, Tree.unit?_of_parts hs hparts,
    CompilationUnit.alike_propagate legal⟩

/-- A method with a variable that is known, a write to a field and a call. -/
theorem fold_keepsBehaviour_known : ∃ unit comments,
    CompilationUnit.ofSource? "class A { int x; int m(int y) { int z = 2; x = y; return f(z * 3); } }" =
        .ok (unit, comments) ∧
      ∃ c t' unit', (PassKind.constantPropagation.fold (Tree.ofUnit unit).root).run
          (Tree.ofUnit unit) = .ok c t' ∧
        t'.unit? = .ok unit' ∧ unit.Alike unit' := by
  have hok : (CompilationUnit.ofSource?
      "class A { int x; int m(int y) { int z = 2; x = y; return f(z * 3); } }").toOption.isSome =
        true := by decide +kernel
  obtain ⟨⟨unit, comments⟩, hparsed⟩ := Option.isSome_iff_exists.mp hok
  have h := eq_ok_of_toOption hparsed
  exact ⟨unit, comments, h, fold_keepsBehaviour h⟩

end Constants

end JavaFold
