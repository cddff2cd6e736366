import JavaFold.Proofs.Pass.Constants.Propagation
import Mathlib.Data.List.Forall2

/-!
# What is known has the declared type

A variable is only ever known to have a value of its declared type, and only if that is `int`, `boolean` or `String`
(`Flow.Typed`). So what is known where a statement starts says what is known wherever an expression stands in it:
`Stmt.sites_propagate` lists the expressions of a propagated statement as those of the statement, each propagated with
something that has the declared types.
-/

namespace JavaFold

namespace Constants

/-- What is known when some variables have been forgotten. -/
theorem Facts.mem_forgetAll {f : String × Literal} (names : Scope) : ∀ {facts : Facts},
    f ∈ names.foldl (fun facts v => facts.forget v.1) facts →
      f ∈ facts ∧ names.any (·.1 == f.1) = false := by
  induction names with
  | nil => exact fun h => ⟨h, rfl⟩
  | cons v names ih =>
    intro facts h
    have ⟨hmem, hnames⟩ := ih h
    have ⟨hmem, hv⟩ := List.mem_filter.mp hmem
    refine ⟨hmem, ?_⟩
    rw [List.any_cons, hnames, Bool.or_false]
    exact beq_false_of_ne (Ne.symm (by simpa using hv))

namespace Flow

variable {fields : Scope} {scopes : List Scope} {flow : Flow} {x : String} {v : Literal}

/-- What is known of a variable is a value that its type holds. -/
def Typed (fields : Scope) (scopes : List Scope) (flow : Flow) : Prop :=
  ∀ facts ∈ flow, ∀ f ∈ facts, (declaredType? scopes fields f.1).any (holds · f.2) = true

namespace Typed

theorem unreachable : Typed fields scopes none := nofun

theorem start : Typed fields scopes (some []) := by
  intro facts hfacts f hf
  cases hfacts
  cases hf

theorem value? (h : Typed fields scopes flow) (hv : flow.value? x = some v) :
    ∃ ty, declaredType? scopes fields x = some ty ∧ holds ty v = true := by
  obtain ⟨facts, hfacts, hlookup⟩ := Option.bind_eq_some_iff.mp hv
  obtain ⟨before, after, hsplit, -⟩ := List.lookup_eq_some_iff.mp hlookup
  exact (Option.any_eq_true ..).mp (h facts hfacts (x, v) (by simp [hsplit]))

/-- Less may be known. -/
theorem filter (h : Typed fields scopes flow) (keep : String × Literal → Bool) :
    Typed fields scopes (flow.map (·.filter keep)) := by
  intro facts hfacts f hf
  obtain ⟨all, hall, rfl⟩ := Option.map_eq_some_iff.mp hfacts
  exact h all hall f (List.mem_filter.mp hf).1

theorem forgetFields (h : Typed fields scopes flow) : Typed fields scopes (flow.forgetFields scopes) := h.filter _

theorem enterLoop (h : Typed fields scopes flow) (written : List (Option String)) :
    Typed fields scopes (flow.enterLoop scopes written) := h.filter _

theorem join {other : Flow} (h : Typed fields scopes flow) (h' : Typed fields scopes other) :
    Typed fields scopes (flow.join other) := by
  cases flow with
  | none => exact h'
  | some a =>
    cases other with
    | none => exact h
    | some b => exact h.filter fun f => b.lookup f.1 == some f.2

/-- A variable is only known to have a value that its type holds. -/
theorem give {scopes' : List Scope} (h : Typed fields scopes flow) (value : Option Literal)
    (hothers : ∀ y, y ≠ x → declaredType? scopes' fields y = declaredType? scopes fields y) :
    Typed fields scopes' (flow.give fields scopes' x value) := by
  intro facts hfacts f hf
  obtain ⟨all, hall, rfl⟩ := Option.map_eq_some_iff.mp hfacts
  have hforget : f ∈ all.forget x → (declaredType? scopes' fields f.1).any (holds · f.2) = true := fun hf => by
    have ⟨hmem, hne⟩ := List.mem_filter.mp hf
    rw [hothers f.1 (bne_iff_ne.mp hne)]
    exact h all hall f hmem
  cases value with
  | none => exact hforget hf
  | some v =>
    dsimp only at hf
    split at hf
    · next hholds =>
      rcases List.mem_cons.mp hf with rfl | hf
      · exact hholds
      · exact hforget hf
    · exact hforget hf

theorem write (h : Typed fields scopes flow) (x : String) (value : Option Literal) :
    Typed fields scopes (flow.write fields scopes x value) := by
  unfold Flow.write
  split
  · exact h.forgetFields
  · exact h.give value fun _ _ => rfl

theorem declare (h : Typed fields scopes flow) (x : String) (ty : Ty) (value : Option Literal) :
    Typed fields (declaring x ty scopes) (flow.give fields (declaring x ty scopes) x value) :=
  h.give value fun _ hy => declaredType?_declaring_ne hy

theorem push (h : Typed fields scopes flow) : Typed fields ([] :: scopes) flow := h

theorem leave {scope : Scope} (h : Typed fields (scope :: scopes) flow) : Typed fields scopes (flow.leave scope) := by
  intro facts hfacts f hf
  obtain ⟨all, hall, rfl⟩ := Option.map_eq_some_iff.mp hfacts
  obtain ⟨hmem, hscope⟩ := Facts.mem_forgetAll scope hf
  rw [← declaredType?_cons hscope]
  exact h all hall f hmem

end Typed

end Flow

end Constants

open Constants (Scope Flow)

section

variable {fields : Scope} {scopes : List Scope} {flow : Flow}

theorem Propagated.typed_step (h : flow.Typed fields scopes) (op : StepOp) (isAfter : Bool) (target e : Expr) :
    (step fields scopes op isAfter target e flow).flow.Typed fields scopes := by
  unfold step
  split
  · exact h.forgetFields
  · exact h.write _ _

namespace Expr

mutual

/-- What is known after an expression has the declared types. -/
theorem typed_propagate : ∀ (e : Expr) {flow : Flow}, flow.Typed fields scopes →
    (e.propagate fields scopes flow).flow.Typed fields scopes
  | literal _ _, _, h => h
  | name _ x, flow, h => by
    rw [propagate]
    split <;> exact h
  | binary _ op l r, _, h => by
    have hl := typed_propagate l h
    have hr := typed_propagate r hl
    rw [propagate]
    dsimp only
    split
    · exact hl.join hr
    · exact hr
  | unary _ (.step op) e, _, h => Propagated.typed_step h op false e _
  | unary _ .neg e, _, h => typed_propagate e h
  | unary _ .not e, _, h => typed_propagate e h
  | unary _ .bitNot e, _, h => typed_propagate e h
  | postStep _ op e, _, h => Propagated.typed_step h op true e _
  | assign _ _ t v, _, h => by
    have hv := typed_propagate v h
    rw [propagate]
    dsimp only
    split
    · exact hv.forgetFields
    · exact hv.write _ _
  | call _ _ args, _, h => (typed_propagateAll args h).forgetFields

theorem typed_propagateAll : ∀ (es : List Expr) {flow : Flow}, flow.Typed fields scopes →
    (propagateAll fields scopes es flow).2.Typed fields scopes
  | [], _, h => h
  | e :: es, _, h => typed_propagateAll es (typed_propagate e h)

end

theorem typed_propagateOpt (e : Option Expr) (h : flow.Typed fields scopes) :
    (propagateOpt fields scopes e flow).2.Typed fields scopes := by
  cases e with
  | none => exact h
  | some e => exact typed_propagate e h

end Expr

namespace Stmt

/-- A propagated statement declares what it declared. -/
theorem declared_propagate (s : Stmt) (flow : Flow) (scopes scopes' : List Scope) :
    (s.propagate fields scopes flow).1.declared scopes' = s.declared scopes' := by
  cases s with
  | localVar _ _ _ init => cases init <;> rfl
  | ifElse _ _ _ e => cases e <;> rfl
  | forLoop _ i _ _ _ => cases i <;> rfl
  | ret _ e => cases e <;> rfl
  | _ => rfl

end Stmt

end

namespace Stmt

variable {fields : Scope}

mutual

/-- What is known after a statement has the declared types. -/
theorem typed_propagate : ∀ {s : Stmt} {scopes : List Scope} {flow : Flow}, s.Legal → flow.Typed fields scopes →
    (s.propagate fields scopes flow).2.Typed fields (s.declared scopes)
  | block _ ss, scopes, _, legal, h => by
    obtain ⟨scope, hscope⟩ := declaredAll_cons ss [] scopes
    have hall := typed_propagateAll ss legal h.push
    rw [hscope] at hall
    rw [propagate, hscope]
    exact hall.leave
  | expr _ e, _, _, _, h => e.typed_propagate h
  | localVar _ ty name none, _, _, _, h => h.declare name.value ty.value none
  | localVar _ ty name (some e), _, _, _, h => (e.typed_propagate h).declare name.value ty.value _
  | ifElse _ c t none, scopes, _, legal, h => by
    have hc := c.typed_propagate h
    have ht := typed_propagate legal.2.1 hc
    rw [declared_eq legal.2.2] at ht
    exact ht.join hc
  | ifElse _ c t (some e), scopes, _, legal, h => by
    have hc := c.typed_propagate h
    have ht := typed_propagate legal.2.1 hc
    have he := typed_propagate legal.2.2.2.2.1 hc
    rw [declared_eq legal.2.2.1] at ht
    rw [declared_eq legal.2.2.2.2.2] at he
    exact ht.join he
  | whileLoop _ c b, _, _, _, h => h.enterLoop _
  | forLoop _ none c u b, _, _, _, h => (h.push.enterLoop _).leave
  | forLoop _ (some i) c u b, scopes, _, legal, h => by
    obtain ⟨scope, hscope⟩ := declared_cons i [] scopes
    have hi := typed_propagate legal.1 h.push
    rw [hscope] at hi
    rw [propagate, hscope]
    exact (hi.enterLoop _).leave
  | ret _ none, _, _, _, _ | ret _ (some _), _, _, _, _ | brk _, _, _, _, _ | cont _, _, _, _, _ => .unreachable
  | empty _, _, _, _, h => h

theorem typed_propagateAll : ∀ (ss : List Stmt) {scopes : List Scope} {flow : Flow}, LegalAll ss →
    flow.Typed fields scopes → (propagateAll fields scopes ss flow).2.Typed fields (declaredAll ss scopes)
  | [], _, _, _, h => h
  | _ :: ss, _, _, legal, h => typed_propagateAll ss legal.2 (typed_propagate legal.1 h)

end

end Stmt

/-! ## Where expressions stand in a propagated program -/

/-- The second site is the first one with constants put in its expression. -/
def Site.Propagates (σ σ' : Site) : Prop :=
  ∃ flow : Flow, flow.Typed σ.fields σ.scopes ∧
    σ' = { σ with expr := (σ.expr.propagate σ.fields σ.scopes flow).expr }

section

variable {fields : Scope}

theorem Site.propagates {scopes : List Scope} {flow : Flow} (into : Option Ty) (e : Expr)
    (h : flow.Typed fields scopes) :
    Propagates ⟨fields, scopes, into, e⟩ ⟨fields, scopes, into, (e.propagate fields scopes flow).expr⟩ :=
  ⟨flow, h, rfl⟩

theorem Site.optional_propagates {scopes : List Scope} {flow : Flow} (into : Option Ty) (e : Option Expr)
    (h : flow.Typed fields scopes) :
    List.Forall₂ Propagates (optional fields scopes into e)
      (optional fields scopes into (Expr.propagateOpt fields scopes e flow).1) := by
  cases e with
  | none => exact .nil
  | some e => exact .cons (propagates into e h) .nil

namespace Stmt

mutual

/-- The expressions of a propagated statement. -/
theorem sites_propagate : ∀ {s : Stmt} {scopes : List Scope} {flow : Flow}, s.Legal → flow.Typed fields scopes →
    List.Forall₂ Site.Propagates (s.sites fields scopes) ((s.propagate fields scopes flow).1.sites fields scopes)
  | block _ ss, _, _, legal, h => sitesAll_propagate legal h.push
  | expr _ e, _, _, _, h => .cons (Site.propagates none e h) .nil
  | localVar _ ty _ none, _, _, _, _ => .nil
  | localVar _ ty _ (some e), _, _, _, h => .cons (Site.propagates (some ty.value) e h) .nil
  | ifElse _ c _ none, _, _, legal, h =>
    .cons (Site.propagates none c h) (sites_propagate legal.2.1 (c.typed_propagate h))
  | ifElse _ c _ (some _), _, _, legal, h =>
    have hc := c.typed_propagate h
    .cons (Site.propagates none c h)
      (List.rel_append (sites_propagate legal.2.1 hc) (sites_propagate legal.2.2.2.2.1 hc))
  | whileLoop _ c _, _, _, legal, h =>
    .cons (Site.propagates none c (h.enterLoop _)) (sites_propagate legal.2.1 (c.typed_propagate (h.enterLoop _)))
  | forLoop _ none c u _, _, _, legal, h =>
    have hhead := h.push.enterLoop _
    List.rel_append (Site.optional_propagates none c hhead) (List.rel_append (Site.optional_propagates none u hhead)
      (sites_propagate legal.2.2.1 (Expr.typed_propagateOpt c hhead)))
  | forLoop _ (some i) c u b, scopes, _, legal, h => by
    have hhead := (typed_propagate legal.1 h.push).enterLoop (Expr.writtenOpt c ++ (Expr.writtenOpt u ++ b.written))
    rw [propagate, sites, sites, declared_propagate]
    exact List.rel_append (sites_propagate legal.1 h.push) (List.rel_append (Site.optional_propagates none c hhead)
      (List.rel_append (Site.optional_propagates none u hhead)
        (sites_propagate legal.2.2.2.2.1 (Expr.typed_propagateOpt c hhead))))
  | ret _ none, _, _, _, _ => .nil
  | ret _ (some e), _, _, _, h => .cons (Site.propagates none e h) .nil
  | brk _, _, _, _, _ | cont _, _, _, _, _ | empty _, _, _, _, _ => .nil

theorem sitesAll_propagate : ∀ {ss : List Stmt} {scopes : List Scope} {flow : Flow}, LegalAll ss →
    flow.Typed fields scopes → List.Forall₂ Site.Propagates (sitesAll fields scopes ss)
      (sitesAll fields scopes (propagateAll fields scopes ss flow).1)
  | [], _, _, _, _ => .nil
  | s :: ss, _, _, legal, h => by
    rw [propagateAll, sitesAll, sitesAll, declared_propagate]
    exact List.rel_append (sites_propagate legal.1 h) (sitesAll_propagate legal.2 (typed_propagate legal.1 h))

end

end Stmt

theorem Member.sites_propagate {m : Member} (legal : m.Legal) :
    List.Forall₂ Site.Propagates (m.sites fields) ((m.propagate fields).sites fields) := by
  cases m with
  | field _ d => exact Site.optional_propagates none d.init .start
  | method _ d => exact Stmt.sitesAll_propagate legal.body .start

end

theorem ClassDecl.fields_propagate (c : ClassDecl) : c.propagate.fields = c.fields := by
  rw [fields, propagate, List.filterMap_map]
  congr 2
  funext m
  cases m <;> rfl

theorem forall₂_flatMap {α β : Type} {R : β → β → Prop} {f g : α → List β} : ∀ {l : List α},
    (∀ a ∈ l, List.Forall₂ R (f a) (g a)) → List.Forall₂ R (l.flatMap f) (l.flatMap g)
  | [], _ => .nil
  | a :: l, h => by
    rw [List.flatMap_cons, List.flatMap_cons]
    exact List.rel_append (h a List.mem_cons_self) (forall₂_flatMap fun b hb => h b (List.mem_cons_of_mem _ hb))

theorem forall₂_getElem? {α β : Type} {R : α → β → Prop} {as : List α} {bs : List β} (h : List.Forall₂ R as bs)
    {i : Nat} {a : α} (ha : as[i]? = some a) : ∃ b, bs[i]? = some b ∧ R a b := by
  obtain ⟨hi, rfl⟩ := List.getElem?_eq_some_iff.mp ha
  have hi' : i < bs.length := h.length_eq ▸ hi
  exact ⟨bs[i], List.getElem?_eq_getElem hi', h.get hi hi'⟩

theorem ClassDecl.sites_propagate {c : ClassDecl} (legal : c.Legal) :
    List.Forall₂ Site.Propagates c.sites c.propagate.sites := by
  rw [sites, sites, fields_propagate, propagate, List.flatMap_map]
  exact forall₂_flatMap fun m hm => Member.sites_propagate (legal.members m hm)

/-- The expressions of a propagated program. -/
theorem CompilationUnit.sites_propagate {unit : CompilationUnit} (legal : unit.Legal) :
    List.Forall₂ Site.Propagates unit.sites unit.propagate.sites := by
  rw [sites, sites, propagate, List.flatMap_map]
  exact forall₂_flatMap fun c hc => ClassDecl.sites_propagate (legal c hc)

end JavaFold
