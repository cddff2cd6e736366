import JavaFold.Proofs.Pass.Constants.Found
import JavaFold.Proofs.Walk

/-!
# What propagating constants does

The analysis of any tree finds the replacements below a node before one of the node itself, and goes to
no node twice (`inOrder_replacements`). So the replacements of a member can be made one after the other,
and a visit puts all literals in their places (`visitor_does`).
-/

namespace JavaFold

open OrderedTree

namespace Constants

/-! ## Steps that add replacements -/

/-- What a step adds to the replacements satisfies `Q`. -/
def Adds {α : Type} (Q : List Replacement → Prop) (x : Analyse α) : Prop :=
  ∀ st, ∃ rs, Q rs ∧ (x.run st).2.found = rs.reverse ++ st.found

/-- What a step comes to satisfies `S`, whatever is known. -/
def Comes {α : Type} (S : α → Prop) (x : Analyse α) : Prop := ∀ st, S (x.run st).1

/-- A step that adds nothing. -/
def Quiet {α : Type} (x : Analyse α) : Prop := ∀ st, (x.run st).2.found = st.found

section

open Analyse

variable {α β : Type} {x : Analyse α} {f : α → Analyse β} {P Q R : List Replacement → Prop}

theorem comes_any : Comes (fun _ => True) x := fun _ => trivial

theorem Comes.bind {S : α → Prop} {T : β → Prop} (hx : Comes S x) (hf : ∀ a, S a → Comes T (f a)) :
    Comes T (x >>= f) := fun st => hf _ (hx st) (x.run st).2

theorem Quiet.adds (h : Quiet x) (hQ : Q []) : Adds Q x := fun st => ⟨[], hQ, h st⟩

theorem Adds.imp (h : Adds P x) (hPQ : ∀ rs, P rs → Q rs) : Adds Q x := by
  intro st
  obtain ⟨rs, hrs, hfound⟩ := h st
  exact ⟨rs, hPQ rs hrs, hfound⟩

/-- A step that goes on with what another one has come to. -/
theorem Adds.bind_of {S : α → Prop} (hx : Adds P x) (hs : Comes S x) (hf : ∀ a, S a → Adds Q (f a))
    (h : ∀ rs rs', P rs → Q rs' → R (rs ++ rs')) : Adds R (x >>= f) := by
  intro st
  obtain ⟨rs, hrs, hfound⟩ := hx st
  obtain ⟨rs', hrs', hfound'⟩ := hf (x.run st).1 (hs st) (x.run st).2
  refine ⟨rs ++ rs', h rs rs' hrs hrs', ?_⟩
  rw [run_then, hfound', hfound, List.reverse_append, List.append_assoc]

theorem Adds.bind (hx : Adds P x) (hf : ∀ a, Adds Q (f a))
    (h : ∀ rs rs', P rs → Q rs' → R (rs ++ rs')) : Adds R (x >>= f) := hx.bind_of comes_any (fun a _ => hf a) h

/-- Nothing is added before a step. -/
theorem Quiet.bind (hx : Quiet x) (hf : ∀ a, Adds Q (f a)) : Adds Q (x >>= f) := by
  intro st
  obtain ⟨rs, hrs, hfound⟩ := hf (x.run st).1 (x.run st).2
  exact ⟨rs, hrs, by rw [run_then, hfound, hx st]⟩

/-- Nothing is added after a step. -/
theorem Adds.quiet (hx : Adds Q x) (hf : ∀ a, Quiet (f a)) : Adds Q (x >>= f) := by
  intro st
  obtain ⟨rs, hrs, hfound⟩ := hx st
  exact ⟨rs, hrs, by rw [run_then, hf, hfound]⟩

theorem Quiet.seq (hx : Quiet x) (hf : ∀ a, Quiet (f a)) : Quiet (x >>= f) := by
  intro st
  rw [run_then, hf, hx]

theorem Adds.aside (hx : Adds Q x) : Adds Q x.aside := hx

theorem quiet_return (a : α) : Quiet (return a) := fun _ => rfl

theorem quiet_flow : Quiet flow := fun _ => rfl

theorem quiet_setFlow (flow : Flow) : Quiet (setFlow flow) := fun _ => rfl

theorem quiet_forgetFields : Quiet forgetFields := fun _ => rfl

theorem quiet_bind (fields : Scope) (name : String) (value : Option Literal) :
    Quiet (Analyse.bind fields name value) := fun _ => rfl

theorem quiet_write (fields : Scope) (name : String) (value : Option Literal) :
    Quiet (write fields name value) := by
  intro st
  rw [run_write]

theorem quiet_enterLoop (ts : List (OrderedTree Placed)) : Quiet (enterLoop ts) := fun _ => rfl

theorem quiet_enterScope : Quiet enterScope := fun _ => rfl

theorem quiet_declare (name : String) (ty : Ty) : Quiet (declare name ty) := by
  intro st
  rw [run_declare]

theorem quiet_leaveScope : Quiet leaveScope := by
  intro st
  obtain ⟨flow, scopes, found⟩ := st
  cases scopes <;> rfl

theorem quiet_step (fields : Scope) (op : StepOp) (isAfter : Bool) (target : OrderedTree Placed) :
    Quiet (Analyse.step fields op isAfter target) := by
  rw [Analyse.step]
  split
  · exact quiet_forgetFields.seq fun _ => quiet_return _
  · exact quiet_flow.seq fun _ => (quiet_write _ _ _).seq fun _ => quiet_return _

end

/-! ## The order of the replacements in a tree -/

section

open Analyse

variable {t : Tree} {fields : Scope} {p : Placed} {s : OrderedTree Placed}
  {ss us ts : List (OrderedTree Placed)}

theorem InOrder.mono {rs : List Replacement} (h : InOrder t ss rs) (hs : idsAll ss ⊆ idsAll us) :
    InOrder t us rs := by
  exact ⟨fun r hr => hs (h.nodes r hr), h.order⟩

/-- Replacements in order, and after them perhaps one of the node `p`. -/
def ThenTop (t : Tree) (p : Placed) (ss : List (OrderedTree Placed)) (rs : List Replacement) : Prop :=
  InOrder t ss rs ∨ ∃ rs' v, InOrder t ss rs' ∧ rs = rs' ++ [⟨p.id, v⟩]

/-- An operator may be replaced when it is settled. -/
theorem adds_settle (t : Tree) (p : Placed) (value : Option Literal) (operands : List Value) :
    Adds (ThenTop t p []) (settle p.id value operands) := by
  have hnothing : ThenTop t p [] [] := .inl (.nil t [])
  unfold settle
  split
  · split
    · exact fun st => ⟨[⟨p.id, _⟩], .inr ⟨[], _, .nil t [], rfl⟩, rfl⟩
    · exact (quiet_return _).adds hnothing
  · exact (quiet_return _).adds hnothing

theorem ThenTop.append {rs rs' : List Replacement} (h : InOrder t ss rs) (h' : ThenTop t p us rs')
    (hap : ∀ s ∈ ss, ∀ u ∈ us, Apart t s u) : ThenTop t p (ss ++ us) (rs ++ rs') := by
  rcases h' with h' | ⟨rs', v, h', rfl⟩
  · exact .inl (h.append h' hap)
  · exact .inr ⟨rs ++ rs', v, h.append h' hap, (List.append_assoc ..).symm⟩

theorem ThenTop.inOrder {rs : List Replacement} (hr : ThenTop t p ss rs) (h : t.WellFormed)
    (hs : t.Shows (.node p ss)) : InOrder t [.node p ss] rs := by
  rcases hr with hr | ⟨rs, v, hr, rfl⟩
  · refine hr.mono fun x hx => ?_
    rw [idsAll_cons, ids_node]
    exact List.mem_append_left _ (List.mem_cons_of_mem _ hx)
  · exact hr.replaced h hs v

/-- What is added in some of the children is added below the node. -/
theorem Adds.below {α : Type} {x : Analyse α} (hx : Adds (InOrder t ss) x) (hs : ss ⊆ ts) :
    Adds (InOrder t [.node p ts]) x := by
  refine hx.imp fun rs hr => hr.mono fun i hi => ?_
  obtain ⟨s, hsm, hm⟩ := mem_idsAll.mp hi
  rw [idsAll_cons, ids_node]
  exact List.mem_append_left _ (List.mem_cons_of_mem _ (mem_idsAll.mpr ⟨s, hs hsm, hm⟩))

/-- A node that may be replaced after what is added below it. -/
theorem Adds.before {α β : Type} {x : Analyse α} {f : α → Analyse β} (hx : Adds (InOrder t ss) x)
    (h : Spread t (ss ++ us)) (hf : ∀ a, Adds (ThenTop t p us) (f a)) :
    Adds (ThenTop t p (ss ++ us)) (x >>= f) := by
  exact hx.bind hf fun rs rs' hrs hrs' => hrs'.append hrs h.across

/-- Steps in trees side by side may follow each other. -/
theorem Adds.followed {α β : Type} {x : Analyse α} {f : α → Analyse β} (hx : Adds (InOrder t ss) x)
    (hap : ∀ s ∈ ss, ∀ u ∈ us, Apart t s u) (hf : ∀ a, Adds (InOrder t us) (f a)) :
    Adds (InOrder t (ss ++ us)) (x >>= f) := by
  exact hx.bind hf fun rs rs' hrs hrs' => hrs.append hrs' hap

/-- Expressions side by side. -/
theorem adds_exprs : ∀ {ss : List (OrderedTree Placed)}, Spread t ss →
    (∀ s ∈ ss, Adds (InOrder t [s]) (Analyse.expr fields s)) →
    Adds (InOrder t ss) (Analyse.exprs fields ss)
  | [], _, _ => by
    rw [Analyse.exprs]
    exact (quiet_return _).adds (.nil ..)
  | s :: ss, h, hss => by
    have ⟨hs, hss⟩ := List.forall_mem_cons.mp hss
    have h : Spread t ([s] ++ ss) := h
    have ih := adds_exprs h.append.2 hss
    rw [Analyse.exprs]
    exact hs.followed h.across fun _ => ih

mutual

theorem adds_expr (h : t.WellFormed) : ∀ s : OrderedTree Placed, t.Shows s →
    Adds (InOrder t [s]) (Analyse.expr fields s)
  | .node p ts, hs => by
    have ih := adds_below h ts hs.2
    have hspread := spread_of_shows h hs
    unfold Analyse.expr
    split
    · exact (quiet_return _).adds (.nil ..)
    · refine quiet_flow.bind fun flow => ?_
      split
      · next v _ => exact fun st => ⟨[⟨p.id, v⟩], (InOrder.nil t _).replaced h hs v, rfl⟩
      · exact (quiet_return _).adds (.nil ..)
    · next op lhs rhs _ =>
      have hspread : Spread t ([lhs] ++ ([rhs] ++ [])) := hspread
      refine Adds.imp (P := ThenTop t p [lhs, rhs]) ?_ fun rs hr => hr.inOrder h hs
      refine (ih lhs (by simp)).before hspread fun left => quiet_flow.bind fun before => ?_
      refine (ih rhs (by simp)).before hspread.append.2 fun right => ?_
      by_cases hshort : op.isShortCircuit = true
      · rw [if_pos hshort]
        exact quiet_flow.bind fun _ => (quiet_setFlow _).bind fun _ => adds_settle t p _ _
      · rw [if_neg hshort]
        exact adds_settle t p _ _
    · exact (quiet_step _ _ _ _).adds (.nil ..)
    · next op operand _ _ =>
      refine Adds.imp (P := ThenTop t p [operand]) ?_ fun rs hr => hr.inOrder h hs
      exact (ih operand (by simp)).before hspread fun inner => adds_settle t p _ _
    · exact (quiet_step _ _ _ _).adds (.nil ..)
    · next op target value _ =>
      have hv : Adds (InOrder t [.node p [target, value]]) (expr fields value) :=
        (ih value (by simp)).below (by simp)
      split
      · exact hv.quiet fun _ => quiet_forgetFields.seq fun _ => quiet_return _
      · exact quiet_flow.bind fun _ => hv.quiet fun _ => (quiet_write _ _ _).seq fun _ =>
          quiet_return _
    · have hargs := adds_exprs hspread fun s hs => ih s hs
      exact (hargs.below (List.Subset.refl _)).quiet fun _ =>
        quiet_forgetFields.seq fun _ => quiet_return _
    · exact (quiet_return _).adds (.nil ..)

theorem adds_below (h : t.WellFormed) : ∀ ss : List (OrderedTree Placed), t.ShowsAll ss →
    ∀ s ∈ ss, Adds (InOrder t [s]) (Analyse.expr fields s)
  | [], _ => fun _ hs => absurd hs List.not_mem_nil
  | u :: us, hu => List.forall_mem_cons.mpr ⟨adds_expr h u hu.1, adds_below h us hu.2⟩

end

/-- Statements side by side. -/
theorem adds_stmts : ∀ {ss : List (OrderedTree Placed)}, Spread t ss →
    (∀ s ∈ ss, Adds (InOrder t [s]) (Analyse.stmt fields s)) →
    Adds (InOrder t ss) (Analyse.stmts fields ss)
  | [], _, _ => by
    rw [Analyse.stmts]
    exact (quiet_return _).adds (.nil ..)
  | s :: ss, h, hss => by
    have ⟨hs, hss⟩ := List.forall_mem_cons.mp hss
    have h : Spread t ([s] ++ ss) := h
    have ih := adds_stmts h.append.2 hss
    rw [Analyse.stmts]
    exact hs.followed h.across fun _ => ih

/-- One of some statements. -/
theorem adds_nthStmt (hss : ∀ s ∈ ss, Adds (InOrder t [s]) (Analyse.stmt fields s)) (n : Nat) :
    Adds (InOrder t ss[n]?.toList) (Analyse.nthStmt fields n ss) := by
  rw [nthStmt_eq]
  cases hn : ss[n]? with
  | none => exact (quiet_return _).adds (.nil ..)
  | some s => exact hss s (List.mem_of_getElem? hn)

/-- The tree at a place among some, if it is wanted. -/
def picked (wanted : Bool) (n : Nat) (ts : List (OrderedTree Placed)) : List (OrderedTree Placed) :=
  if wanted then ts[n]?.toList else []

theorem picked_subset (wanted : Bool) (n : Nat) (ts : List (OrderedTree Placed)) :
    picked wanted n ts ⊆ ts := by
  intro s hs
  cases wanted with
  | false => cases hs
  | true => exact List.mem_of_getElem? (Option.mem_toList.mp hs)

/-- Trees at different places stand side by side. -/
theorem Spread.apart {a b : Bool} {i j : Nat} (h : Spread t ts) (hne : a = true → b = true → i ≠ j) :
    ∀ s ∈ picked a i ts, ∀ u ∈ picked b j ts, Apart t s u := by
  intro s hs u hu
  cases a with
  | false => cases hs
  | true =>
    cases b with
    | false => cases hu
    | true =>
      obtain ⟨hi, rfl⟩ := List.getElem?_eq_some_iff.mp (Option.mem_toList.mp hs)
      obtain ⟨hj, rfl⟩ := List.getElem?_eq_some_iff.mp (Option.mem_toList.mp hu)
      have hpair := List.pairwise_iff_getElem.mp h.2
      rcases Nat.lt_or_gt_of_ne (hne rfl rfl) with hlt | hlt
      · exact hpair i j hi hj hlt
      · exact (hpair j i hj hi hlt).symm

/-- An expression at a place among some, if it is wanted. -/
theorem adds_pickedExpr (hss : ∀ s ∈ ss, Adds (InOrder t [s]) (Analyse.expr fields s)) (wanted : Bool)
    (n : Nat) : Adds (InOrder t (picked wanted n ss))
      (Analyse.optExpr fields (if wanted then ss[n]? else none)) := by
  cases wanted with
  | false => exact (quiet_return _).adds (.nil ..)
  | true =>
    simp only [picked, if_true]
    cases hn : ss[n]? with
    | none => exact (quiet_return _).adds (.nil ..)
    | some s => exact (hss s (List.mem_of_getElem? hn)).quiet fun _ => quiet_return _

/-- A `for` with any children goes to none of them twice. -/
theorem adds_forLoop (h : Spread t ts) (hx : ∀ s ∈ ts, Adds (InOrder t [s]) (Analyse.expr fields s))
    (hss : ∀ s ∈ ts, Adds (InOrder t [s]) (Analyse.stmt fields s)) (init cond update : Bool) :
    Adds (InOrder t [.node p ts]) (do
      let parts := ForParts.ofList init cond update ts
      enterScope
      if init then
        nthStmt fields 0 ts
      enterLoop parts.looped
      aside do
        optExpr fields parts.cond
        nthStmt fields (ForParts.count init cond update) ts
      aside do
        optExpr fields parts.update
      leaveScope) := by
  have hbody : Adds (InOrder t (picked true (ForParts.count init cond update) ts))
      (nthStmt fields (ForParts.count init cond update) ts) := adds_nthStmt hss _
  have hcond := adds_pickedExpr hx cond init.toNat
  have hupdate := adds_pickedExpr hx update (init.toNat + cond.toNat)
  have hround := (hcond.followed (h.apart fun hc _ => by
    rw [hc, ForParts.count, Bool.toNat_true]
    omega) fun _ => hbody).aside
  have hrounds : Adds (InOrder t (picked cond init.toNat ts ++
      picked true (ForParts.count init cond update) ts ++
      picked update (init.toNat + cond.toNat) ts)) (do
        aside do
          optExpr fields (if cond then ts[init.toNat]? else none)
          nthStmt fields (ForParts.count init cond update) ts
        aside do
          optExpr fields (if update then ts[init.toNat + cond.toNat]? else none)
        leaveScope) := by
    refine hround.followed ?_ fun _ => hupdate.aside.quiet fun _ => quiet_leaveScope
    intro s hs u hu
    rcases List.mem_append.mp hs with hs | hs
    · refine h.apart (fun hc _ => ?_) s hs u hu
      rw [hc, Bool.toNat_true]
      omega
    · refine h.apart (fun _ hu => ?_) s hs u hu
      rw [hu, ForParts.count, Bool.toNat_true]
      omega
  have hsub : picked cond init.toNat ts ++ picked true (ForParts.count init cond update) ts ++
      picked update (init.toNat + cond.toNat) ts ⊆ ts := by
    refine List.append_subset.mpr ⟨List.append_subset.mpr ⟨?_, ?_⟩, ?_⟩ <;> exact picked_subset _ _ _
  cases init with
  | false =>
    refine quiet_enterScope.bind fun _ => ?_
    exact (quiet_enterLoop _).bind fun _ => hrounds.below hsub
  | true =>
    refine quiet_enterScope.bind fun _ => ?_
    have hap : ∀ s ∈ picked true 0 ts, ∀ u ∈ picked cond true.toNat ts ++
        picked true (ForParts.count true cond update) ts ++
        picked update (true.toNat + cond.toNat) ts, Apart t s u := by
      intro s hs u hu
      rw [List.mem_append, List.mem_append] at hu
      rcases hu with (hu | hu) | hu
      · exact h.apart (fun _ _ => by rw [Bool.toNat_true]; omega) s hs u hu
      · exact h.apart (fun _ _ => by rw [ForParts.count, Bool.toNat_true]; omega) s hs u hu
      · exact h.apart (fun _ _ => by rw [Bool.toNat_true]; omega) s hs u hu
    refine Adds.below ?_ (List.append_subset.mpr ⟨picked_subset true 0 ts, hsub⟩)
    exact (adds_nthStmt hss 0).followed hap fun _ => (quiet_enterLoop _).bind fun _ => hrounds

mutual

theorem adds_stmt (h : t.WellFormed) : ∀ s : OrderedTree Placed, t.Shows s →
    Adds (InOrder t [s]) (Analyse.stmt fields s)
  | .node p ts, hs => by
    have ih := adds_stmtsBelow h ts hs.2
    have hexpr := @adds_below t fields h ts hs.2
    have hspread := spread_of_shows h hs
    unfold Analyse.stmt
    split
    · exact quiet_enterScope.bind fun _ =>
        ((adds_stmts hspread ih).below (List.Subset.refl _)).quiet fun _ => quiet_leaveScope
    · next e _ =>
      exact ((hexpr e (by simp)).below (by simp)).quiet fun _ => quiet_return _
    · exact ((quiet_declare _ _).seq fun _ => quiet_bind _ _ _).adds (.nil ..)
    · next e rest _ =>
      exact ((hexpr e (by simp)).below (by simp)).quiet fun _ =>
        (quiet_declare _ _).seq fun _ => quiet_bind _ _ _
    · next cond yes rest _ =>
      have hbranches : ∀ s ∈ rest, Adds (InOrder t [s]) (stmt fields s) := fun s hs =>
        ih s (by simp [hs])
      have hrest := adds_nthStmt hbranches 0
      have hsub : rest[0]?.toList ⊆ rest := picked_subset true 0 rest
      have hspread : Spread t ([cond] ++ ([yes] ++ rest)) := hspread
      refine @Adds.below t p ([cond] ++ ([yes] ++ rest[0]?.toList)) _ _ _ ?_ ?_
      · refine (hexpr cond (by simp)).followed (fun s hs u hu => hspread.across s hs u ?_) fun _ =>
          quiet_flow.bind fun _ => ?_
        · exact List.append_subset.mpr ⟨by simp, fun x hx => List.mem_append_right _ (hsub hx)⟩ hu
        · refine (ih yes (by simp)).followed
            (fun s hs u hu => hspread.append.2.across s hs u (hsub hu)) fun _ => ?_
          exact quiet_flow.bind fun _ => (quiet_setFlow _).bind fun _ => hrest.quiet fun _ =>
            quiet_flow.seq fun _ => quiet_setFlow _
      · exact List.append_subset.mpr ⟨by simp, List.append_subset.mpr ⟨by simp, fun x hx => by
          simp [hsub hx]⟩⟩
    · next cond body _ =>
      have hspread : Spread t ([cond] ++ [body]) := hspread
      have hround := (hexpr cond (by simp)).followed hspread.across fun _ => ih body (by simp)
      exact (quiet_enterLoop _).bind fun _ => hround.aside.below (by simp)
    · next init cond update _ => exact adds_forLoop hspread hexpr ih init cond update
    · next value _ =>
      have hval := adds_pickedExpr hexpr true 0
      rw [if_pos rfl, ← List.head?_eq_getElem?] at hval
      exact (hval.below (picked_subset _ _ _)).quiet fun _ => quiet_setFlow _
    · exact (quiet_setFlow _).adds (.nil ..)
    · exact (quiet_setFlow _).adds (.nil ..)
    · exact (quiet_return _).adds (.nil ..)

theorem adds_stmtsBelow (h : t.WellFormed) : ∀ ss : List (OrderedTree Placed), t.ShowsAll ss →
    ∀ s ∈ ss, Adds (InOrder t [s]) (Analyse.stmt fields s)
  | [], _ => fun _ hs => absurd hs List.not_mem_nil
  | u :: us, hu => List.forall_mem_cons.mpr ⟨adds_stmt h u hu.1, adds_stmtsBelow h us hu.2⟩

end

/-- The replacements in a method or field are of nodes below its top, and in order. -/
theorem inOrder_replacements (h : t.WellFormed) (hs : t.Shows (.node p ts)) :
    InOrder t ts (replacements fields (.node p ts)) := by
  have hmember : Adds (InOrder t ts) (Analyse.member fields (.node p ts)) := by
    have hone : ∀ {x : Analyse Unit} {s : OrderedTree Placed}, Adds (InOrder t [s]) x → s ∈ ts →
        Adds (InOrder t ts) x := by
      intro x s hx hs
      refine hx.imp fun rs hr => hr.mono fun i hi => ?_
      rw [idsAll_cons, idsAll_nil, List.append_nil] at hi
      exact mem_idsAll.mpr ⟨s, hs, hi⟩
    unfold Analyse.member
    dsimp only
    split
    · next body _ _ =>
      have hb := @adds_stmt t fields h body hs.2.1
      exact Quiet.bind (fun _ => rfl) fun _ => hone hb List.mem_cons_self
    · next init _ _ =>
      have hi := @adds_expr t fields h init hs.2.1
      exact hone (hi.quiet fun _ => quiet_return _) List.mem_cons_self
    · exact (quiet_return _).adds (.nil ..)
  obtain ⟨rs, hrs, hfound⟩ := hmember ⟨some [], [], []⟩
  rw [replacements, hfound, List.append_nil, List.reverse_reverse]
  exact hrs

end

/-! ## A visit -/

/-- The field that a kind of node declares. -/
def fieldOf? : NodeKind → Option (String × Ty)
  | .field _ ty name => some (name, ty)
  | _ => none

/-- The fields among the children of a node, the one declared last first. -/
def fieldsIn (ss : List (OrderedTree Placed)) : Scope :=
  (ss.filterMap fun s => fieldOf? s.label.kind).reverse

/-- What a visit makes of a method or field. -/
def Refilled : Effect := fun _ before u after u' c =>
  let rs := replacements (fieldsIn (before ++ u :: after)) u
  u'.label = u.label ∧ (∃ fresh, u' = refill rs fresh u) ∧ c = !rs.isEmpty

/-- What a visit makes of the parts of a method or field. -/
def Plugged : Effect := fun _ before u after u' c =>
  let rs := replacements (fieldsIn (before ++ u :: after)) u
  u'.label = u.label ∧ u'.parts = plug rs u ∧ c = !rs.isEmpty

section

open JavaFold.Tree

variable {t : Tree} {q : Placed} {ss : List (OrderedTree Placed)} {u : OrderedTree Placed}

/-- The fields around a node are those among the children of its parent. -/
theorem fieldsAround_eq (h : t.WellFormed) (hs : t.Shows (.node q ss)) (hu : u ∈ ss) :
    fieldsAround t u.label.id = fieldsIn ss := by
  have ⟨⟨parent, hq⟩, hss⟩ := hs
  have hfield : ∀ s ∈ ss, field? t s.label.id = fieldOf? s.label.kind := by
    intro s hm
    obtain ⟨parent, hn⟩ := (showsAll_iff.mp hss s hm).top
    rw [field?, hn, Option.map_some]
    cases s.label.kind <;> rfl
  obtain ⟨n, hn, hp⟩ := h.isParent_of_mem hq (List.mem_map_of_mem hu)
  have howner : ((t.get? u.label.id).bind Node.parent).bind t.get? = t.get? q.id := by
    rw [hn, Option.bind_some, hp, Option.bind_some]
  rw [fieldsAround, howner, hq, fieldsIn]
  dsimp only
  rw [List.filterMap_map]
  exact congrArg List.reverse (List.filterMap_congr hfield)

/-- A visit puts the literals that the analysis has found in their places, whatever the parent is. -/
theorem run_visit {ts : List (OrderedTree Placed)} (h : t.WellFormed) (hs : t.Shows (.node p ts)) : ∃ fresh t',
    let rs := replacements (fieldsAround t p.id) (.node p ts)
    (visit p.id).run t = .ok ⟨!rs.isEmpty, p.id⟩ t' ∧ t.Rewrite (.node p ts) (refill rs fresh (.node p ts)) t' ∧
      (refill rs fresh (.node p ts)).label = p := by
  have hsub : t.subtree? p.id = some (.node p ts) := h.subtree?_of_shows hs
  generalize hrs : replacements (fieldsAround t p.id) (.node p ts) = rs
  have horder : InOrder t ts rs := hrs ▸ inOrder_replacements h hs
  obtain ⟨fresh, t', hrun, hr, hlabel⟩ := run_substitutes h hs horder.nodes horder.order
  refine ⟨fresh, t', ?_, hr, hlabel⟩
  rw [visit, EStateM.run_bind, EStateM.run_get]
  dsimp only
  rw [hsub]
  dsimp only
  rw [hrs, EStateM.run_bind, hrun]
  dsimp only
  rw [EStateM.run_pure]

theorem visitor_refills : visitor.Does Refilled := by
  intro t st q before u after h hs _
  obtain ⟨p, ts⟩ := u
  have hfields : fieldsAround t p.id = fieldsIn (before ++ .node p ts :: after) :=
    fieldsAround_eq (u := .node p ts) h hs (by simp)
  obtain ⟨fresh, t', hvisit, hr, hlabel⟩ := run_visit h (showsAll_iff.mp hs.2 (.node p ts) (by simp))
  rw [hfields] at hvisit hr hlabel
  refine ⟨_, _, t', st, ?_, hr, hlabel, ⟨fresh, rfl⟩, rfl⟩
  rw [hlabel]
  exact EditWith.run_lift hvisit st

theorem visitor_does : visitor.Does Plugged :=
  visitor_refills.imp fun ⟨hlabel, ⟨_, he⟩, hc⟩ => ⟨hlabel, he ▸ parts_refill _, hc⟩

end

end Constants

end JavaFold
