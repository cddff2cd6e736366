import JavaFold.Proofs.Pass.Constants.Fold
import JavaFold.Proofs.Pass.Constants.Typed

/-!
# String concatenations

An addition is a concatenation if one of its operands is a string, which can be seen from the form of the expression
and the types of variables (`Expr.isText`). A variable that is known to be `null` gives way to a literal that no longer
tells the type of the variable. So a concatenation stays one, or gives way to a string, exactly if one of the strings
that it joins does not give way to `null` (`Expr.Joins`); `fold_keepsText_iff` says so of all additions of a program.
-/

namespace JavaFold

open Constants (Scope Flow)

namespace Expr

/-! ## Places in an expression -/

/-- The expressions right below an expression. -/
def children : Expr → List Expr
  | binary _ _ l r => [l, r]
  | unary _ _ e | postStep _ _ e => [e]
  | assign _ _ t v => [t, v]
  | call _ _ args => args
  | literal _ _ | name _ _ => []

/-- The expression at a place, which is given by the way down to it. -/
def at? (e : Expr) : List Nat → Option Expr
  | [] => some e
  | i :: place => (e.children[i]?).bind (·.at? place)

/-- What stands at a place now. A literal stands for all that it has taken the place of. -/
def inPlace (e : Expr) : List Nat → Expr
  | [] => e
  | i :: place =>
    match e.children[i]? with
    | some c => c.inPlace place
    | none => e

theorem inPlace_of_at? : ∀ {place : List Nat} {e a : Expr}, e.at? place = some a → e.inPlace place = a
  | [], _, _, h => Option.some.inj h
  | i :: place, e, a, h => by
    obtain ⟨c, hc, h⟩ := Option.bind_eq_some_iff.mp h
    rw [inPlace, hc]
    exact inPlace_of_at? h

theorem inPlace_literal (s : Span) (v : Literal) (place : List Nat) : (literal s v).inPlace place = literal s v := by
  cases place <;> rfl

/-! ## Strings -/

/-- Whether an expression is an addition. -/
def isAddition : Expr → Bool
  | binary _ op _ _ => op == .add
  | _ => false

/-- Whether an expression is the literal `null`. -/
def isNull : Expr → Bool
  | literal _ v => v == .null
  | _ => false

section

variable (type? : String → Option Ty)

/-- Whether an expression is a string by its form: a literal, a variable, what is assigned to a variable, or a
concatenation. -/
def isText : Expr → Bool
  | literal _ v => v.isText
  | name _ x => (type? x).any Ty.isString
  | assign _ _ t _ => t.name?.any fun x => (type? x).any Ty.isString
  | binary _ op l r => op == .add && (isText l || isText r)
  | _ => false

end

/-- The operands of an addition and of the additions among them, each with what stands in its place in another
expression. -/
def operands : Expr → Expr → List (Expr × Expr)
  | binary s op l r, e' =>
    if op == .add then operands l (e'.inPlace [0]) ++ operands r (e'.inPlace [1]) else [(binary s op l r, e')]
  | e, e' => [(e, e')]

/-- Whether one of the operands is a string for which `null` does not stand. -/
def Joins (type? : String → Option Ty) (e e' : Expr) : Prop :=
  ∃ o ∈ operands e e', o.1.isText type? = true ∧ o.2.isNull = false

variable {type? : String → Option Ty} {e e' l r : Expr} {s : Span} {op : BinaryOp} {v : Literal}

theorem operands_addition (s : Span) (l r e' : Expr) :
    operands (binary s .add l r) e' = operands l (e'.inPlace [0]) ++ operands r (e'.inPlace [1]) := by
  rw [operands]
  rfl

theorem operands_of_not (h : e.isAddition = false) (e' : Expr) : operands e e' = [(e, e')] := by
  cases e with
  | binary s op l r =>
    rw [operands]
    exact if_neg (Bool.eq_false_iff.mp h)
  | _ => rfl

theorem isText_addition (s : Span) (l r : Expr) :
    (binary s .add l r).isText type? = (l.isText type? || r.isText type?) := rfl

theorem isNull_literal (s : Span) (h : v.isText = true) : (literal s v).isNull = false := by
  cases v <;> first | rfl | cases h

theorem isNull_of_isText (h : e.isText type? = true) : e.isNull = false := by
  cases e with
  | literal s v => exact isNull_literal s h
  | _ => rfl

theorem joins_addition : Joins type? (binary s .add l r) e' ↔
    Joins type? l (e'.inPlace [0]) ∨ Joins type? r (e'.inPlace [1]) := by
  simp only [Joins, operands_addition, List.mem_append, or_and_right, exists_or]

theorem joins_of_not (h : e.isAddition = false) :
    Joins type? e e' ↔ e.isText type? = true ∧ e'.isNull = false := by
  simp only [Joins, operands_of_not h, List.mem_singleton, exists_eq_left]

/-- Every expression is put together from others by additions. -/
@[elab_as_elim]
theorem addition_induction {P : Expr → Prop} (addition : ∀ s l r, P l → P r → P (binary s .add l r))
    (other : ∀ e, e.isAddition = false → P e) : ∀ e, P e
  | binary s op l r => by
    have hl := addition_induction addition other l
    have hr := addition_induction addition other r
    cases h : op == .add with
    | true => exact eq_of_beq h ▸ addition s l r hl hr
    | false => exact other _ h
  | literal _ _ | name _ _ | unary _ _ _ | postStep _ _ _ | assign _ _ _ _ | call _ _ _ => other _ rfl

theorem isText_of_joins (h : Joins type? e e') : e.isText type? = true := by
  induction e using addition_induction generalizing e' with
  | addition s l r hl hr =>
    rw [isText_addition, Bool.or_eq_true]
    exact (joins_addition.mp h).imp hl hr
  | other e he => exact ((joins_of_not he).mp h).1

/-- A string joins the strings that it is made of. -/
theorem joins_self : Joins type? e e ↔ e.isText type? = true := by
  refine ⟨isText_of_joins, fun h => ?_⟩
  induction e using addition_induction with
  | addition s l r hl hr =>
    rw [isText_addition, Bool.or_eq_true] at h
    exact joins_addition.mpr (h.imp hl hr)
  | other e he => exact (joins_of_not he).mpr ⟨h, isNull_of_isText h⟩

/-- A literal other than `null` that has taken the place of a string joins its operands. -/
theorem joins_literal (h : e.isText type? = true) (s : Span) (hv : (literal s v).isNull = false) :
    Joins type? e (literal s v) := by
  induction e using addition_induction with
  | addition s l r hl hr =>
    rw [isText_addition, Bool.or_eq_true] at h
    exact joins_addition.mpr (h.imp hl hr)
  | other e he => exact (joins_of_not he).mpr ⟨h, hv⟩

end Expr

/-! ## Values of operators -/

section

variable {op : BinaryOp} {a b v : Literal}

theorem BinaryOp.isText_onInts? {m n : Int32} (h : op.onInts? m n = some v) : v.isText = false ∧ v ≠ .null := by
  unfold onInts? at h
  split at h <;> first
    | cases h; exact ⟨rfl, nofun⟩
    | split at h <;> cases h <;> exact ⟨rfl, nofun⟩
    | cases h

theorem BinaryOp.isText_onBools? {m n : Bool} (h : op.onBools? m n = some v) : v.isText = false ∧ v ≠ .null := by
  unfold onBools? at h
  split at h <;> cases h <;> exact ⟨rfl, nofun⟩

/-- The value of an operator is a string exactly if it is an addition of strings to something. -/
theorem BinaryOp.isText_eval? (h : op.eval? a b = some v) :
    v.isText = (a.isText || b.isText) ∧ v ≠ .null ∧ (v.isText = true → op = .add) := by
  unfold eval? at h
  split at h
  · cases h
    exact ⟨rfl, nofun, fun _ => rfl⟩
  · cases h
    exact ⟨(Bool.or_true _).symm, nofun, fun _ => rfl⟩
  · obtain ⟨htext, hnull⟩ := isText_onInts? h
    exact ⟨htext, hnull, fun ht => absurd (htext.symm.trans ht) Bool.false_ne_true⟩
  · obtain ⟨htext, hnull⟩ := isText_onBools? h
    exact ⟨htext, hnull, fun ht => absurd (htext.symm.trans ht) Bool.false_ne_true⟩
  · cases h

/-- Only a string is joined to `null`. -/
theorem BinaryOp.isText_of_eval?_null (h : op.eval? a b = some v) (hnull : a = .null ∨ b = .null) : v.isText = true := by
  unfold eval? at h
  split at h
  · cases h
    rfl
  · cases h
    rfl
  · rcases hnull with hnull | hnull <;> cases hnull
  · rcases hnull with hnull | hnull <;> cases hnull
  · cases h

theorem UnaryOp.isText_eval? {op : UnaryOp} (h : op.eval? a = some v) :
    a.isText = false ∧ v.isText = false ∧ v ≠ .null := by
  unfold eval? at h
  split at h <;> cases h <;> exact ⟨rfl, rfl, nofun⟩

end

/-! ## Literals in the places of expressions -/

namespace Expr

/-- A literal that can take the place of an expression: only strings and `null` take the places of strings, and no
concatenation gives way to anything but a string. -/
structure Fits (type? : String → Option Ty) (e : Expr) (v : Literal) : Prop where
  text : v.isText = true → e.isText type? = true
  string : e.isText type? = true → v.isText = true ∨ v = .null
  additions : ∀ place a, e.at? place = some a → a.isAddition = true → a.isText type? = true → v.isText = true

section

variable {type? : String → Option Ty} {e l r : Expr} {s : Span} {op : BinaryOp} {a b v : Literal}

theorem Fits.leaf (htext : v.isText = true → e.isText type? = true)
    (hstring : e.isText type? = true → v.isText = true ∨ v = .null) (hleaf : e.children = [])
    (hnot : e.isAddition = false) : Fits type? e v := by
  refine ⟨htext, hstring, fun place a ha hadd => ?_⟩
  cases place with
  | nil =>
    cases ha
    exact absurd (hnot.symm.trans hadd) Bool.false_ne_true
  | cons i place =>
    rw [at?, hleaf] at ha
    cases ha

theorem Fits.binary (hl : Fits type? l a) (hr : Fits type? r b) (h : op.eval? a b = some v) :
    Fits type? (.binary s op l r) v := by
  obtain ⟨htext, hnull, hop⟩ := BinaryOp.isText_eval? h
  have hstring : (Expr.binary s op l r).isText type? = true → v.isText = true := by
    intro hbin
    rw [isText, Bool.and_eq_true, Bool.or_eq_true] at hbin
    rcases hbin.2 with hl' | hr'
    · rcases hl.string hl' with ha | ha
      · rw [htext, ha, Bool.true_or]
      · exact BinaryOp.isText_of_eval?_null h (.inl ha)
    · rcases hr.string hr' with hb | hb
      · rw [htext, hb, Bool.or_true]
      · exact BinaryOp.isText_of_eval?_null h (.inr hb)
  refine ⟨fun hv => ?_, fun hbin => .inl (hstring hbin), fun place c hc hadd hctext => ?_⟩
  · rw [hop hv, isText_addition, Bool.or_eq_true]
    rw [htext, Bool.or_eq_true] at hv
    exact hv.imp hl.text hr.text
  · match place, hc with
    | [], hc =>
      cases hc
      exact hstring hctext
    | 0 :: place, hc => rw [htext, hl.additions place c hc hadd hctext, Bool.true_or]
    | 1 :: place, hc => rw [htext, hr.additions place c hc hadd hctext, Bool.or_true]

theorem Fits.unary {op : UnaryOp} (he : Fits type? e a) (h : op.eval? a = some v) :
    Fits type? (.unary s op e) v := by
  obtain ⟨ha, hv, -⟩ := UnaryOp.isText_eval? h
  refine ⟨fun htext => absurd (hv.symm.trans htext) Bool.false_ne_true, nofun, fun place c hc hadd hctext => ?_⟩
  match place, hc with
  | [], hc =>
    cases hc
    cases hadd
  | 0 :: place, hc => exact absurd (ha.symm.trans (he.additions place c hc hadd hctext)) Bool.false_ne_true

/-- A literal that fits is a string exactly if it joins the operands of what it has taken the place of. -/
theorem Fits.isText_iff (h : Fits type? e v) : (literal s v).isText type? = true ↔ Joins type? e (literal s v) := by
  refine ⟨fun hv => joins_literal (h.text hv) s (isNull_of_isText hv), fun hjoins => ?_⟩
  refine (h.string (isText_of_joins hjoins)).resolve_right fun hnull => ?_
  subst hnull
  clear h
  induction e using addition_induction with
  | addition s' l r hl hr => exact (joins_addition.mp hjoins).elim hl hr
  | other e he => cases ((joins_of_not he).mp hjoins).2

end

end Expr

theorem Ty.isString_of_holds {ty : Ty} {v : Literal} (h : Constants.holds ty v = true) :
    ty.isString = (v.isText || v == .null) := by
  cases ty <;> cases v <;> first | exact h | rfl | cases h

section

open JavaFold.Expr

variable {fields : Scope} {scopes : List Scope} {flow : Flow}

/-- What gives way to a literal fits it. -/
theorem Expr.fits_propagate : ∀ (e : Expr) {flow : Flow}, flow.Typed fields scopes → ∀ {s : Span} {v : Literal},
    (e.propagate fields scopes flow).expr = literal s v → Fits (Constants.declaredType? scopes fields) e v
  | literal _ v, _, _, _, _, h => by
    cases h
    exact .leaf id .inl rfl rfl
  | name s₁ x, flow, typed, _, v, h => by
    rw [propagate] at h
    split at h
    · next u hu =>
      cases h
      obtain ⟨ty, hty, hholds⟩ := typed.value? hu
      have htext : (name s₁ x).isText (Constants.declaredType? scopes fields) = (v.isText || v == .null) := by
        rw [isText, hty, Option.any_some, Ty.isString_of_holds hholds]
      refine .leaf (fun hv => ?_) (fun hname => ?_) rfl rfl
      · rw [htext, hv, Bool.true_or]
      · rwa [htext, Bool.or_eq_true, beq_iff_eq] at hname
    · cases h
  | binary s₁ op l r, flow, typed, _, v, h => by
    rw [propagate] at h
    rcases Constants.settled_cases s₁ _ _ _ with hs | ⟨u, hu, hlit, hs⟩
    · cases hs.symm.trans h
    · cases hs.symm.trans h
      obtain ⟨hl, hlit⟩ := Bool.and_eq_true_iff.mp hlit
      obtain ⟨hr, -⟩ := Bool.and_eq_true_iff.mp hlit
      obtain ⟨_, a, ha⟩ := Constants.exists_literal hl
      obtain ⟨_, b, hb⟩ := Constants.exists_literal hr
      rw [Constants.value_of_expr_eq ha, Constants.value_of_expr_eq hb] at hu
      exact (fits_propagate l typed ha).binary (fits_propagate r (l.typed_propagate typed) hb) hu
  | unary s₁ op e, flow, typed, _, v, h => by
    have hop : ∀ o, op ≠ .step o := by
      rintro o rfl
      cases (Constants.step_expr fields scopes o false e _ flow).symm.trans h
    rw [Constants.propagate_unary hop] at h
    rcases Constants.settled_cases s₁ _ _ _ with hs | ⟨u, hu, hlit, hs⟩
    · cases hs.symm.trans h
    · cases hs.symm.trans h
      obtain ⟨_, a, ha⟩ := Constants.exists_literal (Bool.and_eq_true_iff.mp hlit).1
      rw [Constants.value_of_expr_eq ha] at hu
      exact (fits_propagate e typed ha).unary hu
  | postStep _ op e, flow, _, _, _, h => by
    cases (Constants.step_expr fields scopes op true e _ flow).symm.trans h
  | assign s₁ op t v, flow, _, _, _, h => by
    rw [propagate] at h
    dsimp only at h
    split at h <;> cases h
  | call _ _ _, _, _, _, _, h => by cases h

/-! ## What stands in the places of expressions -/

/-- What may stand in the place of an expression: itself if it is written to, and otherwise the expression with
constants put in. -/
def Expr.Stands (fields : Scope) (scopes : List Scope) (e e' : Expr) : Prop :=
  e' = e ∨ ∃ flow : Flow, flow.Typed fields scopes ∧ e' = (e.propagate fields scopes flow).expr

theorem Expr.stands_propagateAll (es : List Expr) (typed : flow.Typed fields scopes) :
    List.Forall₂ (Stands fields scopes) es (propagateAll fields scopes es flow).1 := by
  induction es generalizing flow with
  | nil => exact .nil
  | cons e es ih => exact .cons (.inr ⟨flow, typed, rfl⟩) (ih (e.typed_propagate typed))

/-- What has not given way to a literal has the same form: its children stand in their places, and apart from additions
it is a string if it was one. -/
theorem Expr.stays_propagate (typed : flow.Typed fields scopes) (type? : String → Option Ty) (e : Expr)
    (h : (e.propagate fields scopes flow).expr.isLiteral = false) :
    List.Forall₂ (Stands fields scopes) e.children (e.propagate fields scopes flow).expr.children ∧
      (e.isAddition = false → (e.propagate fields scopes flow).expr.isText type? = e.isText type?) := by
  have hsame : List.Forall₂ (Stands fields scopes) e.children e.children := List.forall₂_same.mpr fun _ _ => .inl rfl
  cases e with
  | literal s v => exact ⟨.nil, fun _ => rfl⟩
  | name s x =>
    rw [propagate] at h ⊢
    split at h
    · cases h
    · exact ⟨.nil, fun _ => rfl⟩
  | binary s op l r =>
    rw [propagate] at h ⊢
    rcases Constants.settled_cases s _ _ _ with hs | ⟨v, -, -, hs⟩
    · rw [hs]
      refine ⟨.cons (.inr ⟨flow, typed, rfl⟩) (.cons (.inr ⟨_, l.typed_propagate typed, rfl⟩) .nil), fun hop => ?_⟩
      rw [isText, isText, show (op == .add) = false from hop, Bool.false_and, Bool.false_and]
    · rw [hs] at h
      cases h
  | unary s op e =>
    by_cases hop : ∀ o, op ≠ .step o
    · rw [Constants.propagate_unary hop] at h ⊢
      dsimp only at h ⊢
      rcases Constants.settled_cases s _ _ _ with hs | ⟨v, -, -, hs⟩
      · rw [hs]
        exact ⟨.cons (.inr ⟨flow, typed, rfl⟩) .nil, fun _ => rfl⟩
      · rw [hs] at h
        cases h
    · simp only [ne_eq, not_forall, not_not] at hop
      obtain ⟨o, rfl⟩ := hop
      rw [propagate, Constants.step_expr]
      exact ⟨hsame, fun _ => rfl⟩
  | postStep s op e =>
    rw [propagate, Constants.step_expr]
    exact ⟨hsame, fun _ => rfl⟩
  | assign s op t v =>
    rw [propagate]
    dsimp only
    split <;> exact ⟨.cons (.inl rfl) (.cons (.inr ⟨flow, typed, rfl⟩) .nil), fun _ => rfl⟩
  | call s path args => exact ⟨stands_propagateAll args typed, fun _ => rfl⟩

/-- An expression with constants put in is a string exactly if it joins strings that are there. -/
theorem Expr.isText_propagate (typed : flow.Typed fields scopes) (e : Expr) :
    (e.propagate fields scopes flow).expr.isText (Constants.declaredType? scopes fields) = true ↔
      Joins (Constants.declaredType? scopes fields) e (e.propagate fields scopes flow).expr := by
  induction e using addition_induction generalizing flow with
  | addition s l r hl hr =>
    cases h : ((binary s .add l r).propagate fields scopes flow).expr.isLiteral with
    | true =>
      obtain ⟨s', v, hv⟩ := Constants.exists_literal h
      rw [hv]
      exact (fits_propagate _ typed hv).isText_iff
    | false =>
      rw [propagate] at h ⊢
      rcases Constants.settled_cases s _ _ _ with hs | ⟨v, -, -, hs⟩
      · rw [hs, isText_addition, Bool.or_eq_true, joins_addition]
        exact or_congr (hl typed) (hr (l.typed_propagate typed))
      · rw [hs] at h
        cases h
  | other e he =>
    cases h : (e.propagate fields scopes flow).expr.isLiteral with
    | true =>
      obtain ⟨s', v, hv⟩ := Constants.exists_literal h
      rw [hv]
      exact (fits_propagate _ typed hv).isText_iff
    | false =>
      rw [joins_of_not he, (stays_propagate typed _ e h).2 he]
      refine (and_iff_left ?_).symm
      cases hexpr : (e.propagate fields scopes flow).expr <;> first | rfl | (rw [hexpr] at h; cases h)

/-- What stands in the place of an addition of strings is a string exactly if it joins strings that are there. -/
theorem Expr.Stands.isText_iff : ∀ (place : List Nat) {e e' a : Expr}, Stands fields scopes e e' →
    e.at? place = some a → a.isAddition = true → a.isText (Constants.declaredType? scopes fields) = true →
      ((e'.inPlace place).isText (Constants.declaredType? scopes fields) = true ↔
        Joins (Constants.declaredType? scopes fields) a (e'.inPlace place))
  | place, _, _, _, .inl rfl, ha, _, _ => by
    rw [inPlace_of_at? ha]
    exact joins_self.symm
  | [], e, _, _, .inr ⟨_, typed, rfl⟩, ha, _, _ => by
    cases ha
    exact isText_propagate typed e
  | i :: place, e, _, a, .inr ⟨flow, typed, rfl⟩, ha, hadd, htext => by
    cases h : (e.propagate fields scopes flow).expr.isLiteral with
    | true =>
      obtain ⟨s, v, hv⟩ := Constants.exists_literal h
      have hstring := (fits_propagate e typed hv).additions (i :: place) a ha hadd htext
      rw [hv, inPlace_literal]
      exact iff_of_true hstring (joins_literal htext s (isNull_literal s hstring))
    | false =>
      obtain ⟨c, hc, ha⟩ := Option.bind_eq_some_iff.mp ha
      obtain ⟨c', hc', hstands⟩ := forall₂_getElem? (stays_propagate typed (fun _ => none) e h).1 hc
      rw [inPlace, hc']
      exact isText_iff place hstands ha hadd htext

end

/-! ## Programs that are read again -/

namespace Expr

theorem unplacedAll_eq_map (es : List Expr) : unplacedAll es = es.map unplaced := by
  induction es with
  | nil => rfl
  | cons e es ih => rw [unplacedAll, ih, List.map_cons]

theorem children_unplaced (e : Expr) : e.unplaced.children = e.children.map unplaced := by
  cases e with
  | call s path args => exact unplacedAll_eq_map args
  | _ => rfl

theorem inPlace_unplaced (e : Expr) (place : List Nat) : e.unplaced.inPlace place = (e.inPlace place).unplaced := by
  induction place generalizing e with
  | nil => rfl
  | cons i place ih =>
    rw [inPlace, inPlace, children_unplaced, List.getElem?_map]
    cases e.children[i]? with
    | none => rfl
    | some c => exact ih c

variable {type? : String → Option Ty}

theorem isText_unplaced (e : Expr) : e.unplaced.isText type? = e.isText type? := by
  induction e using addition_induction with
  | addition s l r hl hr => rw [unplaced, isText_addition, isText_addition, hl, hr]
  | other e he =>
    cases e with
    | binary s op l r => rw [unplaced, isText, isText, show (op == .add) = false from he, Bool.false_and, Bool.false_and]
    | assign s op t v => rw [unplaced, isText, isText, Execution.name?_unplaced]
    | _ => rfl

theorem isNull_unplaced (e : Expr) : e.unplaced.isNull = e.isNull := by
  cases e <;> rfl

theorem joins_unplaced {e e' : Expr} : Joins type? e e'.unplaced ↔ Joins type? e e' := by
  induction e using addition_induction generalizing e' with
  | addition s l r hl hr => rw [joins_addition, joins_addition, inPlace_unplaced, inPlace_unplaced, hl, hr]
  | other e he => rw [joins_of_not he, joins_of_not he, isNull_unplaced]

end Expr

/-- The place of an expression without the spans of paths. -/
def Site.unplaced (σ : Site) : Site := { σ with expr := σ.expr.unplaced }

section

variable (fields : Scope)

theorem Site.optional_unplaced (scopes : List Scope) (into : Option Ty) (e : Option Expr) :
    optional fields scopes into (e.map Expr.unplaced) = (optional fields scopes into e).map unplaced := by
  cases e <;> rfl

namespace Stmt

mutual

theorem sites_unplaced : ∀ (s : Stmt) (scopes : List Scope),
    s.unplaced.sites fields scopes = (s.sites fields scopes).map Site.unplaced
  | block _ ss, scopes => sitesAll_unplaced ss ([] :: scopes)
  | expr _ _, _ | brk _, _ | cont _, _ | empty _, _ => rfl
  | localVar _ _ _ init, scopes => Site.optional_unplaced fields scopes _ init
  | ifElse _ c t none, scopes => by
    rw [unplaced, sites, sites, sites_unplaced t, List.map_cons]
    rfl
  | ifElse _ c t (some e), scopes => by
    rw [unplaced, sites, sites, sites_unplaced t, sites_unplaced e, List.map_cons, List.map_append]
    rfl
  | whileLoop _ c b, scopes => by
    rw [unplaced, sites, sites, sites_unplaced b, List.map_cons]
    rfl
  | forLoop _ none c u b, scopes => by
    rw [unplaced, sites, sites, sites_unplaced b, Site.optional_unplaced, Site.optional_unplaced, List.map_append,
      List.map_append]
  | forLoop _ (some i) c u b, scopes => by
    simp only [unplaced, sites, declared_unplaced, sites_unplaced i, sites_unplaced b, Site.optional_unplaced,
      List.map_append]
  | ret _ e, scopes => Site.optional_unplaced fields scopes none e

theorem sitesAll_unplaced : ∀ (ss : List Stmt) (scopes : List Scope),
    sitesAll fields scopes (unplacedAll ss) = (sitesAll fields scopes ss).map Site.unplaced
  | [], _ => rfl
  | s :: ss, scopes => by
    rw [unplacedAll, sitesAll, sitesAll, declared_unplaced, sites_unplaced s, sitesAll_unplaced ss, List.map_append]

end

end Stmt

theorem Member.sites_unplaced (m : Member) : m.unplaced.sites fields = (m.sites fields).map Site.unplaced := by
  cases m with
  | field s d => exact Site.optional_unplaced fields [] none d.init
  | method s d => exact Stmt.sitesAll_unplaced fields d.body.stmts _

end

theorem ClassDecl.sites_unplaced (c : ClassDecl) : c.unplaced.sites = c.sites.map Site.unplaced := by
  rw [sites, fields_unplaced, sites, unplaced, List.flatMap_map, List.map_flatMap]
  exact congrArg (c.members.flatMap ·) (funext fun m => m.sites_unplaced c.fields)

theorem CompilationUnit.sites_unplaced (unit : CompilationUnit) :
    unit.unplaced.sites = unit.sites.map Site.unplaced := by
  rw [sites, sites, unplaced, List.flatMap_map, List.map_flatMap]
  exact congrArg (unit.classes.flatMap ·) (funext ClassDecl.sites_unplaced)

/-! ## Folding a program -/

/-- All additions of strings are additions of strings in the second place, or have given way to strings. -/
def Site.StaysText (σ σ' : Site) : Prop :=
  ∀ place a, σ.expr.at? place = some a → a.isAddition = true → a.isText σ.type? = true →
    (σ'.expr.inPlace place).isText σ.type? = true

/-- The same is declared in both places, and an addition of strings is one in the second place, or has given way to a
string, exactly if one of the strings that it joins has not given way to `null`. -/
structure Site.KeepsText (σ σ' : Site) : Prop where
  fields : σ'.fields = σ.fields
  scopes : σ'.scopes = σ.scopes
  additions : ∀ place a, σ.expr.at? place = some a → a.isAddition = true → a.isText σ.type? = true →
    ((σ'.expr.inPlace place).isText σ.type? = true ↔ a.Joins σ.type? (σ'.expr.inPlace place))

theorem Site.Propagates.keepsText {σ σ' : Site} (h : σ.Propagates σ') : σ.KeepsText σ'.unplaced := by
  obtain ⟨flow, typed, rfl⟩ := h
  refine ⟨rfl, rfl, fun place a ha hadd htext => ?_⟩
  rw [show (Site.unplaced _).expr = Expr.unplaced _ from rfl, Expr.inPlace_unplaced, Expr.isText_unplaced,
    Expr.joins_unplaced]
  exact Expr.Stands.isText_iff place (.inr ⟨flow, typed, rfl⟩) ha hadd htext

namespace Constants

/-- Propagating constants in the tree of a program that has been read succeeds, and leaves the tree of a program in
which an addition of strings is still one or has given way to a string, exactly if one of the strings that it joins has
not given way to `null`. -/
theorem fold_keepsText_iff {source : String} {unit : CompilationUnit} {comments : List Comment}
    (h : CompilationUnit.ofSource? source = .ok (unit, comments)) :
    ∃ c t' unit', (PassKind.constantPropagation.fold (Tree.ofUnit unit).root).run
        (Tree.ofUnit unit) = .ok c t' ∧
      t'.unit? = .ok unit' ∧ List.Forall₂ Site.KeepsText unit.sites unit'.sites := by
  have legal := CompilationUnit.legal_of_ofSource? h
  obtain ⟨c, t', s', hrun, hs, hparts⟩ := run_fold_ofUnit legal
  refine ⟨c, t', unit.propagate.unplaced, hrun, Tree.unit?_of_parts hs hparts, ?_⟩
  rw [CompilationUnit.sites_unplaced, List.forall₂_map_right_iff]
  exact (CompilationUnit.sites_propagate legal).imp fun _ _ => Site.Propagates.keepsText

/-- A number that is joined to a variable which is known to hold a string, and to one which holds what a call gives. -/
theorem fold_keepsText_iff_joined : ∃ unit comments,
    CompilationUnit.ofSource?
      "class A \x7b String t; void m(int x) \x7b String s = \"a\"; f(s + 1, t + x); \x7d \x7d" =
        .ok (unit, comments) ∧
      ∃ c t' unit', (PassKind.constantPropagation.fold (Tree.ofUnit unit).root).run
          (Tree.ofUnit unit) = .ok c t' ∧
        t'.unit? = .ok unit' ∧ List.Forall₂ Site.KeepsText unit.sites unit'.sites := by
  have hok : (CompilationUnit.ofSource?
      "class A \x7b String t; void m(int x) \x7b String s = \"a\"; f(s + 1, t + x); \x7d \x7d").toOption.isSome = true := by
    decide +kernel
  obtain ⟨⟨unit, comments⟩, hparsed⟩ := Option.isSome_iff_exists.mp hok
  have h := eq_ok_of_toOption hparsed
  exact ⟨unit, comments, h, fold_keepsText_iff h⟩

/-- Whether an addition of strings stands at a place in the `n`-th expression of a program, and whether what stands there
in the propagated program is a string. -/
def textAt (unit : CompilationUnit) (n : Nat) (place : List Nat) : Option (Bool × Bool) := do
  let σ ← unit.sites[n]?
  let a ← σ.expr.at? place
  let σ' ← unit.propagate.unplaced.sites[n]?
  return (a.isAddition && a.isText σ.type?, (σ'.expr.inPlace place).isText σ.type?)

/-- A string that is known to be `null` gives way to a literal that is no string, and so does not make an addition to
a number one of strings any more. -/
theorem fold_loses_text : ∃ unit comments,
    CompilationUnit.ofSource? "class A { void m(int x) { String s = null; f(s + x); } }" = .ok (unit, comments) ∧
      ∃ c t' unit', (PassKind.constantPropagation.fold (Tree.ofUnit unit).root).run
          (Tree.ofUnit unit) = .ok c t' ∧
        t'.unit? = .ok unit' ∧ ¬ List.Forall₂ Site.StaysText unit.sites unit'.sites := by
  have hlost : (CompilationUnit.ofSource? "class A { void m(int x) { String s = null; f(s + x); } }").toOption.map
      (fun parsed => textAt parsed.1 1 [0]) = some (some (true, false)) := by decide +kernel
  obtain ⟨⟨unit, comments⟩, hparsed, hlost⟩ := Option.map_eq_some_iff.mp hlost
  have h := eq_ok_of_toOption hparsed
  obtain ⟨c, t', s', hrun, hs, hparts⟩ := run_fold_ofUnit (CompilationUnit.legal_of_ofSource? h)
  refine ⟨unit, comments, h, c, t', unit.propagate.unplaced, hrun, Tree.unit?_of_parts hs hparts, fun hstays => ?_⟩
  obtain ⟨σ, hσ, hlost⟩ := Option.bind_eq_some_iff.mp hlost
  obtain ⟨a, ha, hlost⟩ := Option.bind_eq_some_iff.mp hlost
  obtain ⟨σ', hσ', hlost⟩ := Option.bind_eq_some_iff.mp hlost
  obtain ⟨hold, hnew⟩ := Prod.mk.inj (Option.some.inj hlost)
  rw [Bool.and_eq_true] at hold
  obtain ⟨σ'', hσ'', hstay⟩ := forall₂_getElem? hstays hσ
  cases hσ'.symm.trans hσ''
  exact absurd (hnew.symm.trans (hstay [0] a ha hold.1 hold.2)) Bool.false_ne_true

end Constants

end JavaFold
