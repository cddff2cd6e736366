import JavaFold.Proofs.Pass.Constants.Visit
import JavaFold.Proofs.Pass.Names

/-!
# What can be replaced

A literal takes the place of a name, or of an operator whose operands literals have taken the place of, so what goes
away is made of names, literals and operators only (`isFoldable`). The analysis does not go to what is written to, so
nothing there is replaced (`ReadIn`). `foldable_replacements` says both of everything that is replaced in a method or
field, whatever the layout of the nodes is.
-/

namespace JavaFold

open OrderedTree

namespace Constants

/-- Whether a tree is made of names, literals and operators that write to nothing, as far as the analysis goes. -/
def isFoldable : OrderedTree Placed → Bool
  | .node p ts =>
    match p.kind, ts with
    | .expr (.literal _), _ | .expr (.name _), _ => true
    | .expr (.binary _), [lhs, rhs] => isFoldable lhs && isFoldable rhs
    | .expr (.unary (.step _)), _ => false
    | .expr (.unary _), [operand] => isFoldable operand
    | _, _ => false

/-- Whether a node of a kind writes to its first child. -/
def writes : NodeKind → Bool
  | .expr (.assign _) | .expr (.unary (.step _)) | .expr (.postStep _) => true
  | _ => false

/-- The children of a node of a kind without the one that the node writes to. -/
def unwritten (k : NodeKind) (ts : List (OrderedTree Placed)) : List (OrderedTree Placed) :=
  if writes k then ts.tail else ts

/-- The tree `u` stands at a node of another one at which, or above which, there is no target of a write. -/
inductive ReadIn (u : OrderedTree Placed) : OrderedTree Placed → Prop
  | top : ReadIn u u
  | inside {p : Placed} {s : OrderedTree Placed} {ts : List (OrderedTree Placed)} :
    s ∈ unwritten p.kind ts → ReadIn u s → ReadIn u (.node p ts)

/-- Each replacement is of a node in one of some trees that is read, is no literal yet and can be folded. -/
def OfFoldable (ss : List (OrderedTree Placed)) (rs : List Replacement) : Prop :=
  ∀ r ∈ rs, ∃ s ∈ ss, ∃ u, ReadIn u s ∧ u.label.id = r.node ∧ u.label.kind.literal? = none ∧ isFoldable u = true

section

open Analyse

variable {fields : Scope} {p : Placed} {s : OrderedTree Placed} {ss us ts : List (OrderedTree Placed)}
  {rs rs' : List Replacement} {α β : Type} {x : Analyse α} {f : α → Analyse β}

theorem unwritten_subset (k : NodeKind) (ts : List (OrderedTree Placed)) : unwritten k ts ⊆ ts := by
  unfold unwritten
  split
  · exact fun _ => List.mem_of_mem_tail
  · exact List.Subset.refl _

theorem ReadIn.mem_subtrees {u : OrderedTree Placed} (h : ReadIn u s) : u ∈ s.subtrees := by
  induction h with
  | top =>
    cases u
    exact List.mem_cons_self
  | inside hs _ ih => exact List.mem_cons_of_mem _ (subtrees_subset_subtreesAll (unwritten_subset _ _ hs) ih)

theorem ReadIn.trans {u v : OrderedTree Placed} (h : ReadIn u v) (hv : ReadIn v s) : ReadIn u s := by
  induction hv with
  | top => exact h
  | inside hs _ ih => exact .inside hs ih

theorem OfFoldable.nil (ss : List (OrderedTree Placed)) : OfFoldable ss [] := nofun

theorem OfFoldable.append (h : OfFoldable ss rs) (h' : OfFoldable ss rs') : OfFoldable ss (rs ++ rs') :=
  fun r hr => (List.mem_append.mp hr).elim (h r) (h' r)

theorem Adds.also_of {S : α → Prop} (hx : Adds (OfFoldable ss) x) (hs : Comes S x)
    (hf : ∀ a, S a → Adds (OfFoldable ss) (f a)) : Adds (OfFoldable ss) (x >>= f) :=
  hx.bind_of hs hf fun _ _ => .append

theorem Adds.also (hx : Adds (OfFoldable ss) x) (hf : ∀ a, Adds (OfFoldable ss) (f a)) :
    Adds (OfFoldable ss) (x >>= f) := hx.also_of comes_any fun a _ => hf a

/-- What is read in a child that is not written to is read in the whole. -/
theorem Adds.ofChild (hx : Adds (OfFoldable [s]) x) (hs : s ∈ unwritten p.kind ts) :
    Adds (OfFoldable [.node p ts]) x := by
  refine hx.imp fun rs hrs r hr => ?_
  obtain ⟨v, hv, u, hu, hr⟩ := hrs r hr
  obtain rfl := List.mem_singleton.mp hv
  exact ⟨_, List.mem_singleton_self _, u, .inside hs hu, hr⟩

theorem OfFoldable.top (hp : p.kind.literal? = none) (hs : isFoldable (.node p ts) = true) (v : Literal) :
    OfFoldable [.node p ts] [⟨p.id, v⟩] := by
  intro r hr
  rw [List.mem_singleton] at hr
  exact ⟨_, List.mem_singleton_self _, _, .top, by rw [hr]; rfl, hp, hs⟩

theorem adds_settle_foldable {operands : List Value} (hp : p.kind.literal? = none)
    (hs : operands.all (·.isLiteral) = true → isFoldable (.node p ts) = true) (value : Option Literal) :
    Adds (OfFoldable [.node p ts]) (settle p.id value operands) := by
  unfold settle
  split
  · split
    · next hall => exact fun st => ⟨[⟨p.id, _⟩], .top hp (hs hall) _, rfl⟩
    · exact (quiet_return _).adds (.nil _)
  · exact (quiet_return _).adds (.nil _)

end

/-! ## Values that are literals -/

section

open Analyse

variable {fields : Scope} {p : Placed} {s : OrderedTree Placed} {op : UnaryOp}

theorem isFoldable_unary (hkind : p.kind = .expr (.unary op)) (hstep : ∀ step, op = .step step → False) :
    isFoldable (.node p [s]) = isFoldable s := by
  conv_lhs => unfold isFoldable
  rw [hkind]
  cases op with
  | step step => exact absurd rfl (hstep step)
  | _ => rfl

/-- An operator between literals can be folded. -/
theorem foldable_binary {op : BinaryOp} {lhs rhs : OrderedTree Placed} {left right : Value}
    (hkind : p.kind = .expr (.binary op)) (hl : left.isLiteral = true → isFoldable lhs = true)
    (hr : right.isLiteral = true → isFoldable rhs = true) (h : [left, right].all (·.isLiteral) = true) :
    isFoldable (.node p [lhs, rhs]) = true := by
  simp only [List.all_cons, List.all_nil, Bool.and_true, Bool.and_eq_true] at h
  unfold isFoldable
  rw [hkind]
  exact Bool.and_eq_true_iff.mpr ⟨hl h.1, hr h.2⟩

/-- An operator before a literal can be folded. -/
theorem foldable_unary {inner : Value} (hkind : p.kind = .expr (.unary op)) (hstep : ∀ step, op = .step step → False)
    (hi : inner.isLiteral = true → isFoldable s = true) (h : [inner].all (·.isLiteral) = true) :
    isFoldable (.node p [s]) = true := by
  simp only [List.all_cons, List.all_nil, Bool.and_true] at h
  rw [isFoldable_unary hkind hstep]
  exact hi h

theorem unwritten_unary (hstep : ∀ step, op = .step step → False) (ts : List (OrderedTree Placed)) :
    unwritten (.expr (.unary op)) ts = ts := by
  cases op with
  | step step => exact absurd rfl (hstep step)
  | _ => rfl

theorem comes_settle {node : NodeId} {operands : List Value} {Q : Prop}
    (hQ : operands.all (·.isLiteral) = true → Q) (value : Option Literal) :
    Comes (fun v => v.isLiteral = true → Q) (settle node value operands) := by
  intro st h
  unfold settle at h
  split at h
  · split at h
    · next hall => exact hQ hall
    · cases h
  · cases h

theorem comes_return {v : Value} (hv : v.isLiteral = false) (Q : Prop) :
    Comes (fun v => v.isLiteral = true → Q) (return v : Analyse Value) := fun _ h =>
  absurd (hv.symm.trans h) Bool.false_ne_true

theorem comes_step {Q : Prop} (op : StepOp) (isAfter : Bool) :
    Comes (fun v => v.isLiteral = true → Q) (Analyse.step fields op isAfter s) := by
  intro st h
  unfold Analyse.step at h
  split at h <;> cases h

mutual

/-- What a literal stands in the place of can be folded. -/
theorem comes_expr (fields : Scope) : ∀ s : OrderedTree Placed,
    Comes (fun v => v.isLiteral = true → isFoldable s = true) (Analyse.expr fields s)
  | .node p ts => by
    have ih := comes_exprs fields ts
    unfold Analyse.expr
    split
    · next hkind =>
      intro st _
      unfold isFoldable
      rw [hkind]
    · next hkind =>
      intro st _
      unfold isFoldable
      rw [hkind]
    · next op lhs rhs hkind =>
      refine (ih lhs (by simp)).bind fun left hl => comes_any.bind fun _ _ => (ih rhs (by simp)).bind fun right hr => ?_
      have hsettle : ∀ value, Comes (fun v => v.isLiteral = true → isFoldable (.node p [lhs, rhs]) = true)
          (settle p.id value [left, right]) := comes_settle (foldable_binary hkind hl hr)
      by_cases hshort : op.isShortCircuit = true
      · rw [if_pos hshort]
        exact comes_any.bind fun _ _ => comes_any.bind fun _ _ => hsettle _
      · rw [if_neg hshort]
        exact hsettle _
    · exact comes_step _ _
    · next op operand hstep hkind =>
      exact (ih operand (by simp)).bind fun inner hi => comes_settle (foldable_unary hkind hstep hi) _
    · exact comes_step _ _
    · split
      · exact comes_any.bind fun _ _ => comes_any.bind fun _ _ => comes_return rfl _
      · exact comes_any.bind fun _ _ => comes_any.bind fun _ _ => comes_any.bind fun _ _ => comes_return rfl _
    · exact comes_any.bind fun _ _ => comes_any.bind fun _ _ => comes_return rfl _
    · exact comes_return rfl _

theorem comes_exprs (fields : Scope) : ∀ (ss : List (OrderedTree Placed)), ∀ s ∈ ss,
    Comes (fun v => v.isLiteral = true → isFoldable s = true) (Analyse.expr fields s)
  | [] => fun _ hs => absurd hs List.not_mem_nil
  | s :: ss => List.forall_mem_cons.mpr ⟨comes_expr fields s, comes_exprs fields ss⟩

end

end

/-! ## Replacements -/

section

open Analyse

variable {p : Placed} {ss us : List (OrderedTree Placed)}

theorem adds_exprs_foldable {fields : Scope} : ∀ {ss : List (OrderedTree Placed)},
    (∀ s ∈ ss, Adds (OfFoldable us) (Analyse.expr fields s)) → Adds (OfFoldable us) (Analyse.exprs fields ss)
  | [], _ => by
    rw [Analyse.exprs]
    exact (quiet_return _).adds (.nil _)
  | s :: ss, h => by
    have ⟨hs, hss⟩ := List.forall_mem_cons.mp h
    rw [Analyse.exprs]
    exact hs.also fun _ => adds_exprs_foldable hss

mutual

theorem adds_expr_foldable (fields : Scope) : ∀ s : OrderedTree Placed, Adds (OfFoldable [s]) (Analyse.expr fields s)
  | .node p ts => by
    have ih : ∀ s ∈ unwritten p.kind ts, Adds (OfFoldable [.node p ts]) (Analyse.expr fields s) := fun s hs =>
      (adds_below_foldable fields ts s (unwritten_subset _ _ hs)).ofChild hs
    unfold Analyse.expr
    split
    · exact (quiet_return _).adds (.nil _)
    · next hkind =>
      refine quiet_flow.bind fun flow => ?_
      split
      · next v _ => exact fun st => ⟨[⟨p.id, v⟩], .top (by rw [hkind]; rfl) (by unfold isFoldable; rw [hkind]) v, rfl⟩
      · exact (quiet_return _).adds (.nil _)
    · next op lhs rhs hkind =>
      rw [hkind] at ih
      refine (ih lhs (by simp [unwritten, writes])).also_of (comes_expr fields lhs) fun left hl => quiet_flow.bind fun before => ?_
      refine (ih rhs (by simp [unwritten, writes])).also_of (comes_expr fields rhs) fun right hr => ?_
      have hsettle : ∀ value, Adds (OfFoldable [.node p [lhs, rhs]]) (settle p.id value [left, right]) :=
        adds_settle_foldable (by rw [hkind]; rfl) (foldable_binary hkind hl hr)
      by_cases hshort : op.isShortCircuit = true
      · rw [if_pos hshort]
        exact quiet_flow.bind fun _ => (quiet_setFlow _).bind fun _ => hsettle _
      · rw [if_neg hshort]
        exact hsettle _
    · exact (quiet_step _ _ _ _).adds (.nil _)
    · next op operand hstep hkind =>
      rw [hkind] at ih
      have hread : operand ∈ unwritten (.expr (.unary op)) [operand] := by
        rw [unwritten_unary hstep]
        exact List.mem_cons_self
      exact (ih operand hread).also_of (comes_expr fields operand) fun inner hi =>
        adds_settle_foldable (by rw [hkind]; rfl) (foldable_unary hkind hstep hi) _
    · exact (quiet_step _ _ _ _).adds (.nil _)
    · next op target value hkind =>
      rw [hkind] at ih
      have hv := ih value (by simp [unwritten, writes])
      split
      · exact hv.quiet fun _ => quiet_forgetFields.seq fun _ => quiet_return _
      · exact quiet_flow.bind fun _ => hv.quiet fun _ => (quiet_write _ _ _).seq fun _ => quiet_return _
    · next hkind =>
      rw [hkind] at ih
      exact (adds_exprs_foldable ih).quiet fun _ => quiet_forgetFields.seq fun _ => quiet_return _
    · exact (quiet_return _).adds (.nil _)

theorem adds_below_foldable (fields : Scope) : ∀ (ss : List (OrderedTree Placed)), ∀ s ∈ ss,
    Adds (OfFoldable [s]) (Analyse.expr fields s)
  | [] => fun _ hs => absurd hs List.not_mem_nil
  | s :: ss => List.forall_mem_cons.mpr ⟨adds_expr_foldable fields s, adds_below_foldable fields ss⟩

end

theorem adds_optExpr_foldable {fields : Scope} {e : Option (OrderedTree Placed)}
    (h : ∀ s ∈ e, Adds (OfFoldable us) (Analyse.expr fields s)) : Adds (OfFoldable us) (Analyse.optExpr fields e) := by
  cases e with
  | none => exact (quiet_return _).adds (.nil _)
  | some s => exact (h s rfl).quiet fun _ => quiet_return _

theorem adds_stmts_foldable {fields : Scope} : ∀ {ss : List (OrderedTree Placed)},
    (∀ s ∈ ss, Adds (OfFoldable us) (Analyse.stmt fields s)) → Adds (OfFoldable us) (Analyse.stmts fields ss)
  | [], _ => by
    rw [Analyse.stmts]
    exact (quiet_return _).adds (.nil _)
  | s :: ss, h => by
    have ⟨hs, hss⟩ := List.forall_mem_cons.mp h
    rw [Analyse.stmts]
    exact hs.also fun _ => adds_stmts_foldable hss

theorem adds_nthStmt_foldable {fields : Scope} (h : ∀ s ∈ ss, Adds (OfFoldable us) (Analyse.stmt fields s)) (n : Nat) :
    Adds (OfFoldable us) (Analyse.nthStmt fields n ss) := by
  rw [nthStmt_eq]
  cases hn : ss[n]? with
  | none => exact (quiet_return _).adds (.nil _)
  | some s => exact h s (List.mem_of_getElem? hn)

mutual

theorem adds_stmt_foldable (fields : Scope) : ∀ s : OrderedTree Placed, Adds (OfFoldable [s]) (Analyse.stmt fields s)
  | .node p ts => by
    by_cases hstmt : ∀ kind, p.kind ≠ .stmt kind
    · unfold Analyse.stmt
      split
      all_goals first
        | exact (quiet_return _).adds (.nil _)
        | exact absurd ‹p.kind = _› (hstmt _)
    have hall : unwritten p.kind ts = ts := by
      simp only [ne_eq, not_forall, not_not] at hstmt
      obtain ⟨kind, hkind⟩ := hstmt
      rw [hkind]
      rfl
    have ih : ∀ s ∈ ts, Adds (OfFoldable [.node p ts]) (Analyse.stmt fields s) := fun s hs =>
      (adds_stmtsBelow_foldable fields ts s hs).ofChild (hall.symm ▸ hs)
    have hexpr : ∀ s ∈ ts, Adds (OfFoldable [.node p ts]) (Analyse.expr fields s) := fun s hs =>
      (adds_below_foldable fields ts s hs).ofChild (hall.symm ▸ hs)
    have hopt : ∀ (wanted : Bool) (n : Nat), Adds (OfFoldable [.node p ts])
        (optExpr fields (if wanted then ts[n]? else none)) := fun wanted n => by
      refine adds_optExpr_foldable fun s hs => hexpr s ?_
      cases wanted with
      | false => cases hs
      | true => exact List.mem_of_getElem? hs
    unfold Analyse.stmt
    split
    · exact quiet_enterScope.bind fun _ => (adds_stmts_foldable ih).quiet fun _ => quiet_leaveScope
    · next e _ => exact (hexpr e (by simp)).quiet fun _ => quiet_return _
    · exact ((quiet_declare _ _).seq fun _ => quiet_bind _ _ _).adds (.nil _)
    · next e rest _ =>
      exact (hexpr e (by simp)).quiet fun _ => (quiet_declare _ _).seq fun _ => quiet_bind _ _ _
    · next cond yes rest _ =>
      have hbranches : ∀ s ∈ rest, Adds (OfFoldable [.node p (cond :: yes :: rest)]) (stmt fields s) := fun s hs =>
        ih s (by simp [hs])
      have hrest := adds_nthStmt_foldable hbranches 0
      refine (hexpr cond (by simp)).also fun _ => quiet_flow.bind fun _ => (ih yes (by simp)).also fun _ => ?_
      exact quiet_flow.bind fun _ => (quiet_setFlow _).bind fun _ => hrest.quiet fun _ =>
        quiet_flow.seq fun _ => quiet_setFlow _
    · next cond body _ =>
      exact (quiet_enterLoop _).bind fun _ =>
        ((hexpr cond (by simp)).also fun _ => ih body (by simp)).aside
    · next init cond update _ =>
      have hrounds := (((hopt cond init.toNat).also fun _ => adds_nthStmt_foldable ih
        (ForParts.count init cond update)).aside.also fun _ =>
          (hopt update (init.toNat + cond.toNat)).aside.quiet fun _ => quiet_leaveScope)
      refine quiet_enterScope.bind fun _ => ?_
      cases init with
      | false => exact (quiet_enterLoop _).bind fun _ => hrounds
      | true => exact (adds_nthStmt_foldable ih 0).also fun _ => (quiet_enterLoop _).bind fun _ => hrounds
    · have hval := hopt true 0
      rw [if_pos rfl, ← List.head?_eq_getElem?] at hval
      exact hval.quiet fun _ => quiet_setFlow _
    · exact (quiet_setFlow _).adds (.nil _)
    · exact (quiet_setFlow _).adds (.nil _)
    · exact (quiet_return _).adds (.nil _)

theorem adds_stmtsBelow_foldable (fields : Scope) : ∀ (ss : List (OrderedTree Placed)), ∀ s ∈ ss,
    Adds (OfFoldable [s]) (Analyse.stmt fields s)
  | [] => fun _ hs => absurd hs List.not_mem_nil
  | s :: ss => List.forall_mem_cons.mpr ⟨adds_stmt_foldable fields s, adds_stmtsBelow_foldable fields ss⟩

end

/-- All replacements in a method or field are of nodes in its first child that are read, are no literals yet and can be
folded. -/
theorem foldable_replacements (fields : Scope) (p : Placed) (ts : List (OrderedTree Placed)) :
    OfFoldable ts (replacements fields (.node p ts)) := by
  have hmember : Adds (OfFoldable ts) (Analyse.member fields (.node p ts)) := by
    have hfirst : ∀ {s : OrderedTree Placed} {rest : List (OrderedTree Placed)} {rs : List Replacement},
        OfFoldable [s] rs → OfFoldable (s :: rest) rs := fun h r hr => by
      obtain ⟨v, hv, hu⟩ := h r hr
      exact ⟨v, List.mem_singleton.mp hv ▸ List.mem_cons_self, hu⟩
    unfold Analyse.member
    dsimp only
    split
    · exact Quiet.bind (fun _ => rfl) fun _ => (adds_stmt_foldable fields _).imp fun _ => hfirst
    · exact ((adds_expr_foldable fields _).imp fun _ => hfirst).quiet fun _ => quiet_return _
    · exact (quiet_return _).adds (.nil _)
  obtain ⟨rs, hrs, hfound⟩ := hmember ⟨some [], [], []⟩
  rw [replacements, hfound, List.append_nil, List.reverse_reverse]
  exact hrs

end

end Constants

end JavaFold
