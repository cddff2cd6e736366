import JavaFold.Proofs.Pass.Constants.Changes
import JavaFold.Proofs.Pass.Constants.Typed
import JavaFold.Proofs.Program.Conversion
import JavaFold.Proofs.Program.Runs

/-!
# Propagating constants is sound

A field or method with constants put in runs exactly as before (`Member.runIn_propagate`). What values are makes no
difference to this, if no change can be told in the runs (`Change.Harmless`), and if no variable that takes the values
it is given gets one that another variable has not taken yet (`Member.unmixed`).

The machines are those of which what is known is true (`Describes`). Beside that, all runs keep whatever does not depend
on the names that they may write to (`Stable`); for a loop, this is what was known before it without what it writes to,
which is still true after every round, however the round ends, and whatever the analysis finds out in it.
-/

namespace JavaFold

open Constants (Scope Facts Flow isDotted isLocal)

namespace Constants

open Execution

variable {V σ : Type}

/-! ## Machines of which something is known -/

/-- The names that are declared are those of the scopes, and what is known of variables is true. -/
structure Describes (S : Semantics V σ) (scopes : List Scope) (flow : Flow) (m : Machine V σ) : Prop where
  names : m.scopes.map names = scopes.map (·.map Prod.fst)
  facts : ∃ facts, flow = some facts ∧
    ∀ f ∈ facts, isDotted f.1 = false ∧ m.read? f.1 = some (S.ofLiteral f.2)

namespace Describes

variable {S : Semantics V σ} {fields : Scope} {scopes : List Scope} {scope : Scope} {flow : Flow} {m m' : Machine V σ}
  {x : String}

theorem isLocal_eq (h : Describes S scopes flow m) (x : String) : m.isLocal x = isLocal scopes x := by
  have names := congrArg (·.any (·.any (· == x))) h.names
  simp only [List.any_map, Function.comp_def, Execution.names] at names
  exact names

/-- What is known of a variable is its value. -/
theorem value? (h : Describes S scopes flow m) {v : Literal} (hv : flow.value? x = some v) :
    m.read? x = some (S.ofLiteral v) := by
  obtain ⟨facts, rfl, hfacts⟩ := h.facts
  obtain ⟨before, after, hsplit, -⟩ := List.lookup_eq_some_iff.mp hv
  exact (hfacts (x, v) (by simp [hsplit])).2

/-- What is known of variables that are not written to is true after a change. -/
theorem kept {W : List (Option String)} (h : Describes S scopes flow m) (hk : Kept W m m')
    {keep : String × Literal → Bool}
    (hkeep : ∀ f, keep f = true → some f.1 ∉ W ∧ (none ∉ W ∨ isLocal scopes f.1 = true)) :
    Describes S scopes (flow.map (·.filter keep)) m' := by
  obtain ⟨facts, rfl, hfacts⟩ := h.facts
  refine ⟨hk.names.trans h.names, facts.filter keep, rfl, fun f hf => ?_⟩
  have ⟨hmem, hkeepf⟩ := List.mem_filter.mp hf
  have ⟨hdot, hread⟩ := hfacts f hmem
  have ⟨hf, hn⟩ := hkeep f hkeepf
  rw [← h.isLocal_eq] at hn
  exact ⟨hdot, (hk.read? hdot hf hn).trans hread⟩

/-- What is known does not depend on anything but names. -/
theorem stable : Stable [] (Describes S scopes flow) := by
  intro m m' hk h
  have hkept : Describes S scopes (flow.map (·.filter fun _ => true)) m' :=
    h.kept hk fun f _ => ⟨List.not_mem_nil, .inl List.not_mem_nil⟩
  obtain ⟨facts, rfl, -⟩ := h.facts
  rwa [Option.map_some, List.filter_true] at hkept

theorem forgetFields (h : Describes S scopes flow m) (hk : Kept [none] m m') :
    Describes S scopes (flow.forgetFields scopes) m' :=
  h.kept hk fun f hf => ⟨by simp, .inr hf⟩

/-- A loop may be entered. -/
theorem enterLoop (h : Describes S scopes flow m) (W : List (Option String)) :
    Describes S scopes (flow.enterLoop scopes W) m := by
  obtain ⟨facts, rfl, hfacts⟩ := h.facts
  exact ⟨h.names, _, rfl, fun f hf => hfacts f (List.mem_filter.mp hf).1⟩

/-- What is known when a loop is entered does not depend on what the loop may write to. -/
theorem stable_enterLoop (W : List (Option String)) : Stable W (Describes S scopes (flow.enterLoop scopes W)) := by
  intro m m' hk h
  have hsame : flow.enterLoop scopes W = (flow.enterLoop scopes W).enterLoop scopes W := by
    cases flow with
    | none => rfl
    | some facts => simp [Flow.enterLoop]
  rw [hsame]
  refine h.kept hk fun f hf => ?_
  simpa using hf

theorem join_left (h : Describes S scopes flow m) (other : Flow) : Describes S scopes (flow.join other) m := by
  obtain ⟨facts, rfl, hfacts⟩ := h.facts
  cases other with
  | none => exact ⟨h.names, facts, rfl, hfacts⟩
  | some b => exact ⟨h.names, _, rfl, fun f hf => hfacts f (List.mem_filter.mp hf).1⟩

theorem join_right (h : Describes S scopes flow m) (other : Flow) : Describes S scopes (other.join flow) m := by
  obtain ⟨facts, rfl, hfacts⟩ := h.facts
  cases other with
  | none => exact ⟨h.names, facts, rfl, hfacts⟩
  | some a =>
    refine ⟨h.names, _, rfl, fun f hf => hfacts f ?_⟩
    obtain ⟨before, after, hsplit, -⟩ := List.lookup_eq_some_iff.mp (eq_of_beq (List.mem_filter.mp hf).2)
    simp [hsplit]

/-- A variable has got a value, and the others are as before. -/
theorem give {scopes' : List Scope} {value : Option Literal} (h : Describes S scopes flow m)
    (hnames : m'.scopes.map Execution.names = scopes'.map (·.map Prod.fst)) (hx : isDotted x = false)
    (hvalue : ∀ u ∈ value, m'.read? x = some (S.ofLiteral u))
    (hothers : ∀ y, y ≠ x → isDotted y = false → m'.read? y = m.read? y) :
    Describes S scopes' (flow.give fields scopes' x value) m' := by
  obtain ⟨facts, rfl, hfacts⟩ := h.facts
  have hforget : ∀ f ∈ facts.forget x, isDotted f.1 = false ∧ m'.read? f.1 = some (S.ofLiteral f.2) := by
    intro f hf
    have ⟨hmem, hne⟩ := List.mem_filter.mp hf
    have ⟨hdot, hread⟩ := hfacts f hmem
    exact ⟨hdot, (hothers f.1 (by simpa using hne) hdot).trans hread⟩
  refine ⟨hnames, _, rfl, ?_⟩
  split
  · exact hforget
  · next v =>
    split
    · exact List.forall_mem_cons.mpr ⟨⟨hx, hvalue v rfl⟩, hforget⟩
    · exact hforget

theorem write {value : Option Literal} (h : Describes S scopes flow m) (w : World V) {new : V}
    (hvalue : ∀ u ∈ value, new = S.ofLiteral u) :
    Describes S scopes (flow.write fields scopes x value) (m.write w x new) := by
  have hk := kept_write w x new m
  unfold Flow.write
  cases hx : isDotted x with
  | true =>
    rw [if_pos rfl]
    refine h.forgetFields ?_
    simpa [Option.filter, hx] using hk
  | false =>
    rw [if_neg Bool.false_ne_true]
    refine h.give (hk.names.trans h.names) hx (fun u hu => ?_) fun y hy hd => ?_
    · rw [read?_write, hvalue u hu]
    · exact hk.read? hd (by simp [Option.filter, hx, hy]) (.inl (by simp [Option.filter, hx]))

theorem declare {ty : Ty} {value : Option Literal} {v : Option V} (h : Describes S scopes flow m)
    (hscopes : scopes ≠ []) (hx : isDotted x = false) (hvalue : ∀ u ∈ value, v = some (S.ofLiteral u)) :
    Describes S (declaring x ty scopes) (flow.give fields (declaring x ty scopes) x value) (m.declare x v) := by
  have hm : m.scopes ≠ [] := by
    intro hnil
    have names := h.names
    rw [hnil] at names
    exact hscopes (List.map_eq_nil_iff.mp names.symm)
  refine h.give ?_ hx (fun u hu => ?_) fun y hy _ => read?_declare_ne hy
  · have names := h.names
    obtain ⟨scope, scopes, rfl⟩ := List.exists_cons_of_ne_nil hscopes
    obtain ⟨frame, frames, hframes⟩ := List.exists_cons_of_ne_nil hm
    simp only [Machine.declare, hframes, declaring, List.map_cons, List.cons.injEq] at names ⊢
    exact ⟨congrArg (x :: ·) names.1, names.2⟩
  · rw [read?_declare_self hm, hvalue u hu]

theorem push (h : Describes S scopes flow m) : Describes S ([] :: scopes) flow m.push := by
  refine ⟨by simpa [Machine.push, Execution.names] using h.names, ?_⟩
  exact h.facts

theorem pop (h : Describes S (scope :: scopes) flow m) : Describes S scopes (flow.leave scope) m.pop := by
  have names := h.names
  obtain ⟨frame, frames, hframes⟩ : ∃ frame frames, m.scopes = frame :: frames := by
    refine List.exists_cons_of_ne_nil fun hnil => ?_
    rw [hnil] at names
    cases names
  simp only [hframes, List.map_cons, List.cons.injEq] at names
  obtain ⟨facts, rfl, hfacts⟩ := h.facts
  refine ⟨by simpa [Machine.pop, hframes] using names.2, _, rfl, fun f hf => ?_⟩
  obtain ⟨hmem, hscope⟩ := Facts.mem_forgetAll scope hf
  have hframe : declaredIn f.1 frame = false := by
    have hany := congrArg (·.any (· == f.1)) names.1
    simp only [List.any_map, Function.comp_def, Execution.names] at hany
    exact hany.trans hscope
  obtain ⟨hdot, hread⟩ := hfacts f hmem
  exact ⟨hdot, (read?_pop hframes hframe).trans hread⟩

end Describes

/-! ## Variables that take values of their own -/

section

variable {cv : Conversion V} {fields : Scope} {scopes : List Scope} {flow : Flow} {x : String}

/-- What is known of a variable is the value that it has been given. -/
theorem Flow.Typed.others_eq (h : flow.Typed fields scopes) (cv : Conversion V) {v : Literal}
    (hv : flow.value? x = some v) : cv.others fields scopes x = false := by
  obtain ⟨ty, hty, hholds⟩ := h.value? hv
  rw [Conversion.others, hty, cv.held ty v hholds]

/-- Nothing gets known of a variable that takes values of its own. -/
theorem give_of_others (h : cv.others fields scopes x = true) (value : Option Literal) (flow : Flow) :
    flow.give fields scopes x value = flow.give fields scopes x none := by
  cases value with
  | none => rfl
  | some v =>
    refine congrArg (Option.map · flow) (funext fun facts => if_neg fun hholds => ?_)
    obtain ⟨ty, hty, hv⟩ := (Option.any_eq_true ..).mp hholds
    rw [Conversion.others, hty, cv.held ty v hv] at h
    cases h

/-- A variable is given a value, and what gets known of it is true if it takes that value. -/
theorem Describes.writeInto {S : Semantics V σ} {m : Machine V σ} {value : Option Literal} {v : V}
    (hm : Describes S scopes flow m) (w : World V)
    (hvalue : cv.others fields scopes x = false → ∀ u ∈ value, v = S.ofLiteral u) :
    Describes S scopes (flow.write fields scopes x value) (m.write w x (cv.into fields scopes x v)) := by
  cases h : cv.others fields scopes x with
  | false =>
    rw [Conversion.into_of_not h]
    exact hm.write w (hvalue h)
  | true =>
    have hwrite : Describes S scopes (flow.write fields scopes x none) (m.write w x (cv.into fields scopes x v)) :=
      hm.write w nofun
    unfold Flow.write at hwrite ⊢
    rwa [give_of_others h value flow]

end

theorem carries_unary {op : UnaryOp} (hop : ∀ o, op ≠ .step o) (s : Span) (e : Expr) (other : String → Bool) :
    (Expr.unary s op e).carries other = e.carries other := by
  cases op with
  | step o => exact absurd rfl (hop o)
  | _ => rfl

/-- What is made of literals alone now has no value from before a conversion. -/
theorem carries_of_isConstant {fields : Scope} {scopes : List Scope} (other : String → Bool) : ∀ {e : Expr}
    {flow : Flow}, (e.propagate fields scopes flow).expr.isConstant = true → e.carries other = false
  | .literal _ _, _, _ | .name _ _, _, _ | .unary _ (.step _) _, _, _ | .postStep _ _ _, _, _
  | .call _ _ _, _, _ => rfl
  | .binary s op l r, flow, h => by
    have hparts : (l.propagate fields scopes flow).expr.isConstant = true ∧
        (r.propagate fields scopes (l.propagate fields scopes flow).flow).expr.isConstant = true := by
      rcases Expr.isConstant_of_settled (s := s) h with hstays | hoperands
      · exact Bool.and_eq_true_iff.mp hstays
      · exact ⟨hoperands _ List.mem_cons_self, hoperands _ (List.mem_cons_of_mem _ List.mem_cons_self)⟩
    rw [Expr.carries, carries_of_isConstant other hparts.1, carries_of_isConstant other hparts.2]
    rfl
  | .unary s .neg e, flow, h | .unary s .not e, flow, h | .unary s .bitNot e, flow, h => by
    have hpart : (e.propagate fields scopes flow).expr.isConstant = true :=
      (Expr.isConstant_of_settled (s := s) h).elim id fun hoperands => hoperands _ List.mem_cons_self
    have hcarries : e.carries other = false := carries_of_isConstant other hpart
    exact hcarries
  | .assign s op t v, flow, h => by
    unfold Expr.propagate at h
    cases hx : t.name? <;> simp [hx, Expr.isConstant] at h

/-! ## Expressions -/

section

variable {S : Semantics V σ} {w : World V} {fields : Scope} {scopes : List Scope} {flow : Flow}
  {J : Machine V σ → Prop} {joined : Bool}

/-- What is ensured of the value of an expression and of the machine after it. A value that is computed from one before
its conversion may be another one than is known. -/
structure Known (S : Semantics V σ) (fields : Scope) (scopes : List Scope) (J : Machine V σ → Prop) (e : Expr)
    (p : Propagated) (v : V) (m : Machine V σ) : Prop where
  describes : Describes S scopes p.flow m
  still : J m
  value : e.carries (S.conversion.others fields scopes) = false → ∀ u ∈ p.value, v = S.ofLiteral u

/-- What is on record makes no difference to this. -/
theorem agree_see {W : List (Option String)} {P : Machine V σ → Prop} {x x' : Run V σ V} {e : Expr} {p : Propagated}
    (h : Agree P x x' (Known S fields scopes J e p)) (hJ : Stable W J) (s : Span) :
    Agree P (see S s x) (see S s x') (Known S fields scopes J e p) :=
  h.see (fun _ m m' hk hm => ⟨hm.describes.stable m m' hk, hJ m m' (hk.mono (List.nil_subset W)) hm.still, hm.value⟩) s

/-- An expression with constants put in has the same value and the same effect where something is known. -/
def Preserved (S : Semantics V σ) (w : World V) (fields : Scope) (scopes : List Scope) (J : Machine V σ → Prop)
    (joined : Bool) (e : Expr) (flow : Flow) : Prop :=
  Agree (fun m => Describes S scopes flow m ∧ J m) (eval S w fields scopes joined e)
    (eval S w fields scopes joined (e.propagate fields scopes flow).expr)
    (Known S fields scopes J e (e.propagate fields scopes flow))

/-- A left operand that decides the result alone is the result. -/
theorem eq_of_isDecided {op : BinaryOp} {a b v : Literal} (hd : isDecided op a = true) (h : op.eval? a b = some v) :
    v = a := by
  cases op <;> cases a <;> cases b <;> simp_all [isDecided, BinaryOp.eval?, BinaryOp.onBools?]

theorem isShortCircuit_of_isDecided {op : BinaryOp} {a : Literal} (h : isDecided op a = true) :
    op.isShortCircuit = true := by
  cases op <;> first | rfl | cases h

/-- Only an addition gives a string. -/
theorem add_of_eval? {op : BinaryOp} {a b v : Literal} (h : op.eval? a b = some v) (hv : v.isText = true) :
    op = .add := by
  cases v with
  | str text =>
    cases op with
    | add => rfl
    | _ => cases a <;> cases b <;> simp [BinaryOp.eval?, BinaryOp.onInts?, BinaryOp.onBools?] at h
  | _ => cases hv

/-- A value that is known is the one that the literal stands for. -/
theorem result_shared (v : Literal) (log : σ) : S.result true v log = (S.ofLiteral v, log) :=
  S.result_eq (fun _ => rfl) log

/-- Only strings are told apart by whether they are shared. -/
theorem result_congr {shared shared' : Bool} {v : Literal} (h : v.isText = true →
    shared = shared' ∨ ∀ shared v log, S.result shared v log = (S.ofLiteral v, log)) :
    S.result shared v = S.result shared' v := by
  funext log
  cases hv : v.isText with
  | true =>
    rcases h hv with rfl | hplain
    · rfl
    · rw [hplain, hplain]
  | false => rw [S.result_eq (by simp [hv]), S.result_eq (by simp [hv])]

/-- An operator on literals with a constant result gives just that, and if it is a string, the shared one. -/
theorem eval_binary_literals {op : BinaryOp} {a b v : Literal} (h : op.eval? a b = some v) (s : Span) {s₁ s₂ : Span}
    (h₁ : ∀ v log, S.record s₁ v log = log) (h₂ : ∀ v log, S.record s₂ v log = log) :
    eval S w fields scopes joined (.binary s op (.literal s₁ a) (.literal s₂ b)) =
      eval S w fields scopes joined (.literal s v) := by
  have hrun : eval S w fields scopes joined (.binary s op (.literal s₁ a) (.literal s₂ b)) = see S s (do
      let x ← see S s₁ (return S.ofLiteral a)
      if isDecided op (S.literal x) then return x
      binary S w op (joined || true) x (← see S s₂ (return S.ofLiteral b))) := rfl
  rw [hrun, see_of_not h₁, see_of_not h₂, eval]
  refine congrArg (see S s) ?_
  simp only [pure_bind, S.literal_ofLiteral, Bool.or_true]
  split
  · next hd => rw [eq_of_isDecided hd h]
  · rw [binary, S.literal_ofLiteral, S.literal_ofLiteral, h]
    funext m
    exact congrArg (fun r : V × σ => EStateM.Result.ok r.1 { m with log := r.2 }) (result_shared v m.log)

theorem eval_unary {op : UnaryOp} (h : ∀ o, op ≠ .step o) (s : Span) (e : Expr) :
    eval S w fields scopes joined (.unary s op e) =
      see S s (eval S w fields scopes false e >>= fun a => unary S w op a) := by
  cases op with
  | step o => exact absurd rfl (h o)
  | _ => rfl

theorem eval_unary_literal {op : UnaryOp} {a v : Literal} (h : op.eval? a = some v) (s : Span) {s₁ : Span}
    (h₁ : ∀ v log, S.record s₁ v log = log) :
    eval S w fields scopes joined (.unary s op (.literal s₁ a)) = eval S w fields scopes joined (.literal s v) := by
  have hop : ∀ o, op ≠ .step o := by
    rintro o rfl
    cases h
  rw [eval_unary hop, eval, eval, see_of_not h₁, pure_bind, unary, S.literal_ofLiteral, h]
  rfl

/-- An operator that has given way to its value gives that value. -/
theorem agree_settled {e e' : Expr} {p : Propagated} {s : Span} {operands : List Expr} {P : Machine V σ → Prop}
    (h : Agree P (eval S w fields scopes joined e) (eval S w fields scopes joined e') (Known S fields scopes J e p))
    (hexpr : p.expr = Propagated.settled s p.value operands e')
    (hvalue : ∀ v, p.value = some v → operands.all Expr.isLiteral = true → p.expr.isLiteral = true →
      eval S w fields scopes joined e' = eval S w fields scopes joined (.literal s v)) :
    Agree P (eval S w fields scopes joined e) (eval S w fields scopes joined p.expr)
      (Known S fields scopes J e p) := by
  rcases settled_cases s p.value operands e' with hs | ⟨v, hv, hlit, hs⟩
  · rw [hexpr, hs]
    exact h
  · have hp : p.expr = .literal s v := hexpr.trans hs
    rw [hp, ← hvalue v hv hlit (congrArg Expr.isLiteral hp)]
    exact h

/-- An operand that has given way to a literal stands where it stood. -/
theorem exists_literal_at {e : Expr} (h : (e.propagate fields scopes flow).expr.isLiteral = true) :
    ∃ a, (e.propagate fields scopes flow).expr = .literal e.span a ∧
      (e.propagate fields scopes flow).value = some a := by
  obtain ⟨s, a, ha⟩ := exists_literal h
  have hspan : (e.propagate fields scopes flow).expr.span = e.span := e.span_propagate flow
  rw [ha] at hspan
  have hs : s = e.span := hspan
  subst hs
  exact ⟨a, ha, value_of_expr_eq ha⟩

/-- Nothing is put on record at the places of operands that have given way to a value. -/
theorem record_absorbed {operands : List Expr} {p : Propagated} (h : ∀ c ∈ p.absorbed operands, c.Harmless S)
    (hp : p.expr.isLiteral = true) : ∀ e ∈ operands, ∀ v log, S.record e.span v log = log := by
  rw [Propagated.absorbed, if_pos hp] at h
  exact fun e he => h _ (List.mem_map_of_mem he)

/-! ### Binary operators -/

section

variable {s : Span} {op : BinaryOp} {l r : Expr} {a b : V}

/-- What is known of an operator is what it gives on its operands. -/
theorem eval?_of_combined {left right : Option Literal} {u : Literal} (ha : ∀ v ∈ left, a = S.ofLiteral v)
    (hb : ∀ v ∈ right, b = S.ofLiteral v) (h : Propagated.combined op left right = some u) :
    op.eval? (S.literal a) (S.literal b) = some u := by
  obtain ⟨x, y, hx, hy, hxy⟩ := Propagated.combined_eq_some h
  rw [ha x hx, hb y hy, S.literal_ofLiteral, S.literal_ofLiteral, hxy]

/-- What rules out that a concatenation gives a shared string after a change but not before: it is said so, or all
strings of a text are the same. -/
theorem Change.excluded_or_of_harmless {excluded : Bool} (h : ∀ c ∈ sharesUnless excluded, c.Harmless S) :
    excluded = true ∨ ∀ shared v log, S.result shared v log = (S.ofLiteral v, log) := by
  cases excluded with
  | true => exact .inl rfl
  | false => exact .inr (h shares List.mem_cons_self)

/-- A string is shared after the change if and only if it was before. -/
theorem shared_eq (h : (joined || op != .add ||
      ((Expr.binary s op l r).propagate fields scopes flow).sharesAlike (.binary s op l r)) = true)
    (ha : l.carries (S.conversion.others fields scopes) = false →
      ∀ u ∈ (l.propagate fields scopes flow).value, a = S.ofLiteral u)
    (hb : r.carries (S.conversion.others fields scopes) = false →
      ∀ u ∈ (r.propagate fields scopes (l.propagate fields scopes flow).flow).value, b = S.ofLiteral u)
    {u : Literal} (heval : op.eval? (S.literal a) (S.literal b) = some u) (hu : u.isText = true) :
    (joined || l.isConstant && r.isConstant) = (joined || (l.propagate fields scopes flow).expr.isConstant &&
      (r.propagate fields scopes (l.propagate fields scopes flow).flow).expr.isConstant) := by
  cases joined with
  | true => rfl
  | false =>
    cases hc : l.isConstant && r.isConstant with
    | true =>
      obtain ⟨hl, hr⟩ := Bool.and_eq_true_iff.mp hc
      rw [Expr.isConstant_propagate hl, Expr.isConstant_propagate hr]
      rfl
    | false =>
      have hadd := add_of_eval? heval hu
      rw [hadd, bne_self_eq_false, Bool.false_or, Bool.false_or, ← hadd] at h
      cases hv : Propagated.combined op (l.propagate fields scopes flow).value
          (r.propagate fields scopes (l.propagate fields scopes flow).flow).value with
      | none =>
        have hstays : ((Expr.binary s op l r).propagate fields scopes flow).expr =
            .binary s op (l.propagate fields scopes flow).expr
              (r.propagate fields scopes (l.propagate fields scopes flow).flow).expr := by
          rw [Expr.propagate, hv]
          rfl
        rw [Propagated.sharesAlike_of_none hv, hstays, Expr.isConstant, hc, Bool.false_or, Bool.not_eq_true'] at h
        exact h.symm
      | some v =>
        rw [Propagated.sharesAlike_of_some hv, Expr.isConstant, hc, Bool.false_or, Bool.not_eq_true'] at h
        -- the string would be known if both operands were of literals alone
        refine (Bool.eq_false_iff.mpr fun hparts => ?_).symm
        obtain ⟨hl, hr⟩ := Bool.and_eq_true_iff.mp hparts
        rw [eval?_of_combined (ha (carries_of_isConstant _ hl)) (hb (carries_of_isConstant _ hr)) hv] at heval
        rw [Option.some.inj heval, hu] at h
        cases h

/-- A string that is known is a shared one. -/
theorem shared_of_known (h : (joined || op != .add ||
      ((Expr.binary s op l r).propagate fields scopes flow).sharesAlike (.binary s op l r)) = true)
    {u : Literal} (hv : ((Expr.binary s op l r).propagate fields scopes flow).value = some u) (hu : u.isText = true) :
    (joined || l.isConstant && r.isConstant) = true := by
  have hcombined : Propagated.combined op _ _ = some u := hv
  obtain ⟨x, y, -, -, hxy⟩ := Propagated.combined_eq_some hcombined
  cases joined with
  | true => rfl
  | false =>
    have hadd := add_of_eval? hxy hu
    rw [hadd, bne_self_eq_false, Bool.false_or, Bool.false_or, ← hadd, Propagated.sharesAlike_of_some hv, hu,
      Bool.not_true, Bool.or_false] at h
    exact h

/-- An operator that gives way to its value has that value on the literals in the place of its operands. -/
theorem eval_binary_settled {v : Literal} (hv : ((Expr.binary s op l r).propagate fields scopes flow).value = some v)
    (hlit : [(l.propagate fields scopes flow).expr,
      (r.propagate fields scopes (l.propagate fields scopes flow).flow).expr].all Expr.isLiteral = true)
    (hplaces : ∀ e ∈ [l, r], ∀ v log, S.record e.span v log = log) :
    eval S w fields scopes joined (.binary s op (l.propagate fields scopes flow).expr
      (r.propagate fields scopes (l.propagate fields scopes flow).flow).expr) =
        eval S w fields scopes joined (.literal s v) := by
  have ⟨hl, hrest⟩ := Bool.and_eq_true_iff.mp hlit
  have ⟨hr, _⟩ := Bool.and_eq_true_iff.mp hrest
  obtain ⟨a, ha, hva⟩ := exists_literal_at hl
  obtain ⟨b, hb, hvb⟩ := exists_literal_at hr
  rw [Expr.propagate] at hv
  dsimp only at hv
  rw [hva, hvb] at hv
  rw [ha, hb]
  exact eval_binary_literals hv s (hplaces l List.mem_cons_self) (hplaces r (List.mem_cons_of_mem l List.mem_cons_self))

theorem preserved_binary (hl : Preserved S w fields scopes J (op == .add) l flow)
    (hr : Preserved S w fields scopes J (op == .add) r (l.propagate fields scopes flow).flow) (hJ : Stable [] J)
    (h : (joined || op != .add ||
      ((Expr.binary s op l r).propagate fields scopes flow).sharesAlike (.binary s op l r)) = true ∨
        ∀ shared v log, S.result shared v log = (S.ofLiteral v, log))
    (hplaces : ((Expr.binary s op l r).propagate fields scopes flow).expr.isLiteral = true →
      ∀ e ∈ [l, r], ∀ v log, S.record e.span v log = log) :
    Preserved S w fields scopes J joined (.binary s op l r) flow := by
  refine agree_settled ?_ rfl ?_
  · unfold eval
    refine agree_see (.bind hl fun a => .assume (fun m hm => hm.value) fun ha => ?_) hJ s
    have hcarries : (Expr.binary s op l r).carries (S.conversion.others fields scopes) = false →
        l.carries (S.conversion.others fields scopes) = false ∧ r.carries (S.conversion.others fields scopes) = false :=
      Bool.or_eq_false_iff.mp
    cases hd : isDecided op (S.literal a) with
    | true =>
      refine .pure fun m hm => ⟨?_, hm.still, fun hc u hu => ?_⟩
      · unfold Expr.propagate
        rw [isShortCircuit_of_isDecided hd]
        exact hm.describes.join_left _
      · have hcombined : Propagated.combined op _ _ = some u := hu
        obtain ⟨x, y, hx, -, hxy⟩ := Propagated.combined_eq_some hcombined
        rw [ha (hcarries hc).1 x hx, S.literal_ofLiteral] at hd
        rw [ha (hcarries hc).1 x hx, eq_of_isDecided hd hxy]
    | false =>
      refine .bind (hr.of_imp fun m hm => ⟨hm.describes, hm.still⟩) fun b => ?_
      refine .assume (fun m hm => hm.value) fun hb => ?_
      rw [binary_congr fun u heval => result_congr fun hu => h.imp_left fun h => shared_eq h ha hb heval hu]
      refine .of_ok fun m hm v m' hrun => ?_
      obtain ⟨hk, hvalue⟩ := run_binary hrun
      refine ⟨?_, hJ m m' hk hm.still, fun hc u hu => ?_⟩
      · unfold Expr.propagate
        dsimp only
        split
        · exact (hm.describes.join_right _).stable m m' hk
        · exact hm.describes.stable m m' hk
      · have heval := eval?_of_combined (ha (hcarries hc).1) (hb (hcarries hc).2) hu
        refine hvalue u heval fun log => ?_
        rcases h with h | hplain
        · exact S.result_eq (fun htext => by rw [← shared_eq h ha hb heval htext, shared_of_known h hu htext]) log
        · exact hplain _ u log
  · exact fun v hv hlit hp => eval_binary_settled hv hlit (hplaces hp)

end

/-! ### Other expressions -/

theorem preserved_unary {s : Span} {op : UnaryOp} {e : Expr} (hop : ∀ o, op ≠ .step o)
    (he : Preserved S w fields scopes J false e flow) (hJ : Stable [] J)
    (hplaces : ((Expr.unary s op e).propagate fields scopes flow).expr.isLiteral = true →
      ∀ x ∈ [e], ∀ v log, S.record x.span v log = log) :
    Preserved S w fields scopes J joined (.unary s op e) flow := by
  unfold Preserved
  rw [propagate_unary hop] at hplaces ⊢
  refine agree_settled (s := s) ?_ rfl ?_
  · rw [eval_unary hop, eval_unary hop]
    refine agree_see (.bind he fun a => .assume (fun m hm => hm.value) fun ha => ?_) hJ s
    refine (agree_given _).imp fun v m hm => ⟨hm.1.describes, hm.1.still, fun hc u hu => ?_⟩
    obtain ⟨x, hx, hxu⟩ := Option.bind_eq_some_iff.mp hu
    have hor := hm.2
    rw [ha (carries_unary hop s e _ ▸ hc) x hx, S.literal_ofLiteral, hxu] at hor
    exact (Option.some.inj hor).symm
  · intro v hv hlit hp
    have ⟨he, _⟩ := Bool.and_eq_true_iff.mp hlit
    obtain ⟨a, ha, hva⟩ := exists_literal_at he
    dsimp only at hv
    rw [hva] at hv
    rw [ha]
    exact eval_unary_literal hv s (hplaces hp e (by simp))

/-- A target gets a value, of which something may be known. -/
theorem agree_writeTo {P : Machine V σ → Prop} {W : List (Option String)} {t : Expr} {x : String} {v : V}
    {value : Option Literal} (hJ : Stable (t.target :: W) J) (hx : t.name? = some x)
    (hvalue : S.conversion.others fields scopes x = false → ∀ u ∈ value, v = S.ofLiteral u)
    (hP : ∀ m, P m → Describes S scopes flow m ∧ J m) :
    Agree P (write w x (S.conversion.into fields scopes x v)) (write w x (S.conversion.into fields scopes x v))
      fun _ m => Describes S scopes (flow.write fields scopes x value) m ∧ J m :=
  agree_write fun m hm => ⟨(hP m hm).1.writeInto w hvalue, hJ.write hx _ (hP m hm).2⟩

theorem agree_step {W : List (Option String)} (w : World V) (typed : flow.Typed fields scopes) (op : StepOp)
    (isAfter : Bool) {target : Expr} (e₀ e : Expr) (hJ : Stable (target.target :: W) J) :
    Agree (fun m => Describes S scopes flow m ∧ J m) (step S w fields scopes op isAfter target)
      (step S w fields scopes op isAfter target)
      (Known S fields scopes J e₀ (Propagated.step fields scopes op isAfter target e flow)) := by
  unfold step Propagated.step
  refine .given fun x hx => ?_
  rw [hx]
  refine .bind (agree_read x) fun old => .bind (agree_given _) fun new => ?_
  refine .assume (p := ∀ u ∈ flow.value? x, old = S.ofLiteral u) (fun m hm u hu => ?_) fun hold => ?_
  · exact Option.some.inj (hm.1.2.symm.trans (hm.1.1.1.value? hu))
  refine .assume (fun m hm => hm.2) fun hnew => ?_
  have hvalue : ∀ u ∈ (flow.value? x).bind op.eval?,
      S.conversion.others fields scopes x = false ∧ new = S.ofLiteral u := by
    intro u hu
    obtain ⟨u₁, hu₁, huu⟩ := Option.bind_eq_some_iff.mp hu
    rw [hold u₁ hu₁, S.literal_ofLiteral, huu] at hnew
    exact ⟨typed.others_eq S.conversion hu₁, (Option.some.inj hnew).symm⟩
  refine .bind (agree_writeTo hJ hx (fun _ u hu => (hvalue u hu).2) fun m hm => hm.1.1) fun _ =>
    .pure fun m hm => ⟨hm.1, hm.2, fun _ => ?_⟩
  cases isAfter with
  | true => exact hold
  | false =>
    intro u hu
    obtain ⟨hother, hu⟩ := hvalue u hu
    exact (Conversion.into_of_not hother new).trans hu

/-- What is given to a variable that takes it as it is, is no value from before a conversion. -/
theorem carries_of_unmixed {s : Span} {op : AssignOp} {t v : Expr} {x : String} {other : String → Bool}
    (h : (Expr.assign s op t v).unmixed other = true) (hx : t.name? = some x) (hother : other x = false) :
    v.carries other = false := by
  simpa [hx, hother] using (Bool.and_eq_true_iff.mp h).2

theorem preserved_plain {W : List (Option String)} {s : Span} {t v : Expr} (hJ : Stable (t.target :: W) J)
    (hunmixed : (Expr.assign s .plain t v).unmixed (S.conversion.others fields scopes) = true)
    (hv : Preserved S w fields scopes J false v flow) :
    Preserved S w fields scopes J joined (.assign s .plain t v) flow := by
  unfold Preserved Expr.propagate
  cases hx : t.name? with
  | none =>
    unfold eval
    rw [hx]
    refine agree_see ?_ hJ s
    exact .bind hv fun a => .given fun x h => nomatch h
  | some x =>
    -- a value that the variable takes as it is may be known, so it must not be one before a conversion
    have hcarries := carries_of_unmixed hunmixed hx
    unfold eval
    rw [hx]
    refine agree_see (.bind hv fun a => .given fun y hy => ?_) hJ s
    cases hy
    refine .assume (fun m hm => hm.value) fun ha => ?_
    refine .bind (agree_writeTo hJ hx (fun hother => ha (hcarries hother)) fun m hm => ⟨hm.describes, hm.still⟩)
      fun _ => .pure fun m hm => ⟨hm.1, hm.2, fun hc u hu => ?_⟩
    cases hother : S.conversion.others fields scopes x with
    | true => simp [Expr.carries, hx, hother] at hc
    | false =>
      rw [Conversion.into_of_not hother]
      exact ha (hcarries hother) u hu

theorem preserved_compound {W : List (Option String)} {s : Span} {op : BinaryOp} {t v : Expr}
    (typed : flow.Typed fields scopes) (hJ : Stable (t.target :: W) J)
    (hunmixed : (Expr.assign s (.compound op) t v).unmixed (S.conversion.others fields scopes) = true)
    (hv : Preserved S w fields scopes J (op == .add) v flow)
    (h : (!((Expr.assign s (.compound op) t v).propagate fields scopes flow).value.any Literal.isText) = true ∨
        ∀ shared v log, S.result shared v log = (S.ofLiteral v, log)) :
    Preserved S w fields scopes J joined (.assign s (.compound op) t v) flow := by
  unfold Preserved
  rw [Expr.propagate] at h ⊢
  cases hx : t.name? with
  | none =>
    unfold eval
    rw [hx]
    refine agree_see ?_ hJ s
    exact .given fun x h => nomatch h
  | some x =>
    have hcarries := carries_of_unmixed hunmixed hx
    rw [hx] at h
    unfold eval
    rw [hx]
    refine agree_see (.given fun y hy => ?_) hJ s
    cases hy
    refine .bind (agree_read x) fun old => ?_
    refine .assume (p := ∀ u ∈ flow.value? x, old = S.ofLiteral u) (fun m hm u hu => ?_) fun hold => ?_
    · exact Option.some.inj (hm.2.symm.trans (hm.1.1.value? hu))
    refine .bind (hv.of_imp fun m hm => hm.1) fun b => .assume (fun m hm => hm.value) fun hb => ?_
    have hother : ∀ u ∈ Propagated.combined op (flow.value? x) (v.propagate fields scopes flow).value,
        S.conversion.others fields scopes x = false := by
      intro u hu
      obtain ⟨u₁, -, hu₁, -, -⟩ := Propagated.combined_eq_some hu
      exact typed.others_eq S.conversion hu₁
    -- the result is no string where it is known, so it is not one that has been made
    have hbinary : Agree (Known S fields scopes J v (v.propagate fields scopes flow) b) (binary S w op false old b)
        (binary S w op false old b) fun a m => (Describes S scopes (v.propagate fields scopes flow).flow m ∧ J m) ∧
          ∀ u ∈ Propagated.combined op (flow.value? x) (v.propagate fields scopes flow).value, a = S.ofLiteral u := by
      refine .of_ok fun m hm a m' hrun => ?_
      obtain ⟨hk, hvalue⟩ := run_binary hrun
      refine ⟨⟨hm.describes.stable m m' hk, hJ.mono (List.nil_subset _) m m' hk hm.still⟩, fun u hu => ?_⟩
      refine hvalue u (eval?_of_combined hold (hb (hcarries (hother u hu))) hu) fun log => ?_
      rcases h with h | hplain
      · have hany : (!(Propagated.combined op _ _).any Literal.isText) = true := h
        rw [hu, Option.any_some] at hany
        exact S.result_eq (fun htext => by simp [htext] at hany) log
      · exact hplain false u log
    refine .bind hbinary fun a => .assume (fun m hm => hm.2) fun ha => ?_
    refine .bind (agree_writeTo hJ hx (fun _ => ha) fun m hm => hm.1) fun _ => .pure fun m hm => ?_
    refine ⟨hm.1, hm.2, fun _ u hu => ?_⟩
    rw [Conversion.into_of_not (hother u hu)]
    exact ha u hu

/-- After a call nothing is known of what is not local. -/
theorem agree_callAt {W : List (Option String)} (path : String) (args : List V) (hJ : Stable (none :: W) J) :
    Agree (fun m => Describes S scopes flow m ∧ J m) (call w path args) (call w path args) fun _ m =>
      Describes S scopes (flow.forgetFields scopes) m ∧ J m :=
  agree_call path args fun m m' hk hm =>
    ⟨hm.1.forgetFields hk, hJ.mono (List.cons_subset_cons _ (List.nil_subset W)) m m' hk hm.2⟩

mutual

/-- An expression with constants put in has the same value and the same effect, if its changes are harmless and no value
from before a conversion is given to a variable that takes it as it is. -/
theorem preserved_eval : ∀ (e : Expr) {joined : Bool} {flow : Flow}, flow.Typed fields scopes →
    (∀ c ∈ e.changes fields scopes joined flow, c.Harmless S) →
    e.unmixed (S.conversion.others fields scopes) = true → Stable e.written J →
    Preserved S w fields scopes J joined e flow
  | .literal s v, joined, flow, _, _, _, hJ =>
    agree_see (.pure fun m hm => ⟨hm.1, hm.2, fun _ u hu => congrArg _ (Option.some.inj hu)⟩) hJ s
  | .name s x, joined, flow, _, _, _, hJ => by
    have hread := agree_read (P := fun m => Describes S scopes flow m ∧ J m) x
    have hrun (m : Machine V σ) : (read x).run m = (given (m.read? x)).run m := rfl
    unfold Preserved Expr.propagate
    cases hv : flow.value? x with
    | none =>
      refine agree_see (hread.imp fun v m hm => ⟨hm.1.1, hm.1.2, fun _ u hu => ?_⟩) hJ s
      cases hu
    | some u =>
      have hknown := hread.trans_eq (y := Pure.pure (S.ofLiteral u)) fun m hm => by
        rw [hrun, hm.1.value? hv]
        rfl
      refine agree_see (hknown.imp fun v m hm => ⟨hm.1.1, hm.1.2, fun _ u' hu' => ?_⟩) hJ s
      cases hu'
      exact Option.some.inj (hm.2.symm.trans (hm.1.1.value? hv))
  | .binary s op l r, joined, flow, typed, h, hunmixed, hJ => by
    have ⟨hul, hur⟩ := Bool.and_eq_true_iff.mp hunmixed
    rw [Expr.written] at hJ
    rw [Expr.changes, List.forall_mem_append, List.forall_mem_append, List.forall_mem_append] at h
    have hl := preserved_eval l typed h.1 hul hJ.left
    have hr := preserved_eval r (l.typed_propagate typed) h.2.1 hur hJ.right
    exact preserved_binary hl hr (hJ.mono (List.nil_subset _)) (Change.excluded_or_of_harmless h.2.2.1)
      (record_absorbed h.2.2.2)
  | .unary s (.step op) e, joined, flow, typed, _, _, hJ =>
    (agree_see (agree_step w typed op false _ (.unary s (.step op) e) hJ) hJ s).expr_eq (step_expr ..)
  | .unary s .neg e, joined, flow, typed, h, hunmixed, hJ | .unary s .not e, joined, flow, typed, h, hunmixed, hJ
  | .unary s .bitNot e, joined, flow, typed, h, hunmixed, hJ => by
    have ⟨he, hplaces⟩ := List.forall_mem_append.mp h
    exact preserved_unary (fun _ h => nomatch h) (preserved_eval e typed he hunmixed hJ) (hJ.mono (List.nil_subset _))
      (record_absorbed hplaces)
  | .postStep s op e, joined, flow, typed, _, _, hJ =>
    (agree_see (agree_step w typed op true _ (.postStep s op e) hJ) hJ s).expr_eq (step_expr ..)
  | .assign s .plain t v, joined, flow, typed, h, hunmixed, hJ => by
    rw [Expr.written] at hJ
    rw [Expr.changes] at h
    have hsub : v.written ⊆ t.target :: (t.written ++ v.written) :=
      List.subset_cons_of_subset _ (List.subset_append_right _ _)
    exact preserved_plain hJ hunmixed
      (preserved_eval v typed h (Bool.and_eq_true_iff.mp hunmixed).1 (hJ.mono hsub))
  | .assign s (.compound op) t v, joined, flow, typed, h, hunmixed, hJ => by
    rw [Expr.written] at hJ
    rw [Expr.changes, List.forall_mem_append] at h
    have hsub : v.written ⊆ t.target :: (t.written ++ v.written) :=
      List.subset_cons_of_subset _ (List.subset_append_right _ _)
    exact preserved_compound typed hJ hunmixed
      (preserved_eval v typed h.1 (Bool.and_eq_true_iff.mp hunmixed).1 (hJ.mono hsub))
      (Change.excluded_or_of_harmless h.2)
  | .call s path args, joined, flow, typed, h, hunmixed, hJ => by
    rw [Expr.written] at hJ
    rw [Expr.changes] at h
    have hargs := agree_evalAll args typed h hunmixed (hJ.mono (List.subset_cons_self _ _))
    refine agree_see (.bind hargs fun vs => ?_) hJ s
    exact (agree_callAt path.value vs hJ).imp fun v m hm => ⟨hm.1, hm.2, fun _ u hu => nomatch hu⟩

theorem agree_evalAll : ∀ (es : List Expr) {flow : Flow}, flow.Typed fields scopes →
    (∀ c ∈ Expr.changesAll fields scopes es flow, c.Harmless S) →
    Expr.unmixedAll (S.conversion.others fields scopes) es = true → Stable (Expr.writtenAll es) J →
    Agree (fun m => Describes S scopes flow m ∧ J m) (evalAll S w fields scopes es)
      (evalAll S w fields scopes (Expr.propagateAll fields scopes es flow).1) fun _ m =>
      Describes S scopes (Expr.propagateAll fields scopes es flow).2 m ∧ J m
  | [], flow, _, _, _, _ => .pure fun m hm => hm
  | e :: es, flow, typed, h, hunmixed, hJ => by
    have ⟨hue, hues⟩ := Bool.and_eq_true_iff.mp hunmixed
    rw [Expr.writtenAll] at hJ
    rw [Expr.changesAll, List.forall_mem_append] at h
    have he := preserved_eval e typed h.1 hue hJ.left
    have hes := agree_evalAll es (e.typed_propagate typed) h.2 hues hJ.right
    refine .bind he fun v => .bind (hes.of_imp fun m hm => ⟨hm.describes, hm.still⟩) fun vs => ?_
    exact .pure fun m hm => hm

end

theorem Site.unmixed_expr {cv : Conversion V} {into : Option Ty} {e : Expr}
    (h : Site.unmixed cv ⟨fields, scopes, into, e⟩ = true) : e.unmixed (cv.others fields scopes) = true :=
  (Bool.and_eq_true_iff.mp h).1

theorem agree_evalOpt {e : Option Expr} (typed : flow.Typed fields scopes)
    (h : ∀ p ∈ Point.optional scopes flow e, p.Harmless S fields)
    (hunmixed : (Site.optional fields scopes none e).all (Site.unmixed S.conversion) = true)
    (hJ : Stable (Expr.writtenOpt e) J) :
    Agree (fun m => Describes S scopes flow m ∧ J m) (evalOpt S w fields scopes e)
      (evalOpt S w fields scopes (Expr.propagateOpt fields scopes e flow).1) fun _ m =>
      Describes S scopes (Expr.propagateOpt fields scopes e flow).2 m ∧ J m := by
  cases e with
  | none => exact .pure fun m hm => hm
  | some e =>
    rw [Site.all_optional_some] at hunmixed
    have he := preserved_eval (w := w) e typed (h _ List.mem_cons_self) (Site.unmixed_expr hunmixed) hJ
    exact .bind he fun v => .pure fun m hm => ⟨hm.describes, hm.still⟩

theorem agree_test {e : Option Expr} (typed : flow.Typed fields scopes)
    (h : ∀ p ∈ Point.optional scopes flow e, p.Harmless S fields)
    (hunmixed : (Site.optional fields scopes none e).all (Site.unmixed S.conversion) = true)
    (hJ : Stable (Expr.writtenOpt e) J) :
    Agree (fun m => Describes S scopes flow m ∧ J m) (test S w fields scopes e)
      (test S w fields scopes (Expr.propagateOpt fields scopes e flow).1) fun _ m =>
      Describes S scopes (Expr.propagateOpt fields scopes e flow).2 m ∧ J m := by
  cases e with
  | none => exact .pure fun m hm => hm
  | some e =>
    rw [Site.all_optional_some] at hunmixed
    have he := preserved_eval (w := w) e typed (h _ List.mem_cons_self) (Site.unmixed_expr hunmixed) hJ
    refine .bind he fun v => ?_
    cases S.literal v with
    | bool b => exact .pure fun m hm => ⟨hm.describes, hm.still⟩
    | _ => exact .throw

end

/-! ## Statements -/

section

variable {S : Semantics V σ} {w : World V} {fields : Scope} {scopes : List Scope} {flow : Flow}
  {J : Machine V σ → Prop} {n : Nat}

theorem declaring_ne_nil {name : String} {ty : Ty} (h : scopes ≠ []) : declaring name ty scopes ≠ [] := by
  obtain ⟨scope, scopes, rfl⟩ := List.exists_cons_of_ne_nil h
  exact List.cons_ne_nil _ _

theorem declared_ne_nil (s : Stmt) (h : scopes ≠ []) : s.declared scopes ≠ [] := by
  cases s with
  | localVar span ty name init => exact declaring_ne_nil h
  | _ => exact h

/-- What is ensured of the machine after a statement. What is known is only true if it ends normally. -/
def After (S : Semantics V σ) (scopes : List Scope) (flow : Flow) (J : Machine V σ → Prop) (c : Completion V)
    (m : Machine V σ) : Prop :=
  (c = .normal → Describes S scopes flow m) ∧ J m

/-- Nothing is known where a statement ends otherwise. -/
theorem After.abrupt {c : Completion V} {m : Machine V σ} (hc : c ≠ .normal) (hm : J m) : After S scopes flow J c m :=
  ⟨fun h => absurd h hc, hm⟩

/-- What is known where two branches meet. -/
theorem After.join_left {other : Flow} {c : Completion V} {m : Machine V σ} (h : After S scopes flow J c m) :
    After S scopes (flow.join other) J c m :=
  ⟨fun hc => (h.1 hc).join_left other, h.2⟩

theorem After.join_right {other : Flow} {c : Completion V} {m : Machine V σ} (h : After S scopes flow J c m) :
    After S scopes (other.join flow) J c m :=
  ⟨fun hc => (h.1 hc).join_right other, h.2⟩

/-- A statement with constants put in has the same effect and ends in the same way where something is known. -/
def Unaltered (S : Semantics V σ) (w : World V) (fields : Scope) (n : Nat) (scopes : List Scope)
    (J : Machine V σ → Prop) (s : Stmt) (flow : Flow) : Prop :=
  Agree (fun m => Describes S scopes flow m ∧ J m) (exec S w fields n scopes s)
    (exec S w fields n scopes (s.propagate fields scopes flow).1)
    (After S (s.declared scopes) (s.propagate fields scopes flow).2 J)

/-- What is known at the end of a scope holds after it. -/
theorem agree_inScope {x x' : Run V σ (Completion V)} {flow' : Flow} {scope : Scope}
    (h : Agree (fun m => Describes S ([] :: scopes) flow m ∧ J m.pop) x x'
      (After S (scope :: scopes) flow' fun m => J m.pop)) :
    Agree (fun m => Describes S scopes flow m ∧ J m) (inScope x) (inScope x')
      (After S scopes (flow'.leave scope) J) := by
  refine (h.inScope.of_imp fun m hm => ⟨hm.1.push, hm.2⟩).imp fun c m hm => ?_
  obtain ⟨m', rfl, hafter⟩ := hm
  exact ⟨fun hc => (hafter.1 hc).pop, hafter.2⟩

theorem agree_andThen {P : Machine V σ → Prop} {x x' y y' : Run V σ (Completion V)} {scopes' : List Scope}
    {flow' : Flow} (hx : Agree P x x' (After S scopes flow J))
    (hy : Agree (fun m => Describes S scopes flow m ∧ J m) y y' (After S scopes' flow' J)) :
    Agree P (andThen x y) (andThen x' y') (After S scopes' flow' J) := by
  refine .bind hx fun c => ?_
  cases c with
  | normal => exact hy.of_imp fun m hm => ⟨hm.1 rfl, hm.2⟩
  | brk => exact .pure fun m hm => .abrupt (fun h => nomatch h) hm.2
  | cont => exact .pure fun m hm => .abrupt (fun h => nomatch h) hm.2
  | ret v => exact .pure fun m hm => .abrupt (fun h => nomatch h) hm.2

/-- A variable is declared. -/
theorem agree_declare {P : Machine V σ → Prop} {W : List (Option String)} {name : String} (fields : Scope) (ty : Ty)
    {value : Option Literal} {v : Option V} (hP : ∀ m, P m → Describes S scopes flow m ∧ J m)
    (hscopes : scopes ≠ []) (hname : IsWord name) (hvalue : ∀ u ∈ value, v = some (S.ofLiteral u)) (hJ : Outer W J) :
    Agree P (do modify (·.declare name v); return Completion.normal)
      (do modify (·.declare name v); return Completion.normal)
      (After S (declaring name ty scopes) (flow.give fields (declaring name ty scopes) name value) J) := by
  refine .of_ok fun m hm c m' hrun => ?_
  cases hrun
  exact ⟨fun _ => (hP m hm).1.declare hscopes hname.isDotted hvalue, hJ.declare name v m (hP m hm).2⟩

/-- A variable is declared with an initial value. -/
theorem agree_declareInto {P : Machine V σ → Prop} {W : List (Option String)} {name : String} (fields : Scope) {ty : Ty}
    {value : Option Literal} {v : V} (hP : ∀ m, P m → Describes S scopes flow m ∧ J m) (hscopes : scopes ≠ [])
    (hname : IsWord name) (hvalue : S.conversion.other (some ty) = false → ∀ u ∈ value, v = S.ofLiteral u)
    (hJ : Outer W J) :
    Agree P (do modify (·.declare name (some (S.conversion.give (some ty) v))); return Completion.normal)
      (do modify (·.declare name (some (S.conversion.give (some ty) v))); return Completion.normal)
      (After S (declaring name ty scopes) (flow.give fields (declaring name ty scopes) name value) J) := by
  cases h : S.conversion.other (some ty) with
  | false =>
    rw [Conversion.give_of_not h]
    exact agree_declare fields ty hP hscopes hname (fun u hu => congrArg some (hvalue h u hu)) hJ
  | true =>
    have hothers : S.conversion.others fields (declaring name ty scopes) name = true := by
      rw [Conversion.others, declaredType?_declaring_self hscopes, h]
    rw [give_of_others hothers]
    exact agree_declare fields ty hP hscopes hname nofun hJ

/-- The rounds of a loop, with what is known before each of them. -/
theorem agree_rounds {c u : Option Expr} {b : Stmt} {W : List (Option String)}
    (hW : W = Expr.writtenOpt c ++ (Expr.writtenOpt u ++ b.written)) (hJ : Stable W J)
    (typed : flow.Typed fields scopes)
    (hc : ∀ p ∈ Point.optional scopes (flow.enterLoop scopes W) c, p.Harmless S fields)
    (hu : ∀ p ∈ Point.optional scopes (flow.enterLoop scopes W) u, p.Harmless S fields)
    (huc : (Site.optional fields scopes none c).all (Site.unmixed S.conversion) = true)
    (huu : (Site.optional fields scopes none u).all (Site.unmixed S.conversion) = true)
    (hb : ∀ J', Stable b.written J' →
      Agree (fun m => Describes S scopes (Expr.propagateOpt fields scopes c (flow.enterLoop scopes W)).2 m ∧ J' m)
        (exec S w fields n scopes b) (exec S w fields n scopes (b.propagate fields scopes
          (Expr.propagateOpt fields scopes c (flow.enterLoop scopes W)).2).1) fun _ => J') :
    Agree (fun m => Describes S scopes flow m ∧ J m)
      (loop (oneRound (test S w fields scopes c) (exec S w fields n scopes b) (evalOpt S w fields scopes u)) n)
      (loop (oneRound (test S w fields scopes (Expr.propagateOpt fields scopes c (flow.enterLoop scopes W)).1)
        (exec S w fields n scopes
          (b.propagate fields scopes (Expr.propagateOpt fields scopes c (flow.enterLoop scopes W)).2).1)
        (evalOpt S w fields scopes (Expr.propagateOpt fields scopes u (flow.enterLoop scopes W)).1)) n)
      (After S scopes (flow.enterLoop scopes W) J) := by
  have hround : Stable W fun m => Describes S scopes (flow.enterLoop scopes W) m ∧ J m :=
    (Describes.stable_enterLoop W).and hJ
  have hhead := typed.enterLoop W
  subst hW
  have hcond := agree_test (w := w) hhead hc huc hround.left
  have hupdate := agree_evalOpt (w := w) hhead hu huu hround.right.left
  have hbody := hb _ hround.right.right
  have hloop := agree_loop (agree_round (hcond.of_imp fun m hm => ⟨hm.1, hm⟩) hbody
    ((hupdate.of_imp fun m hm => ⟨hm.1, hm⟩).imp fun _ m hm => hm.2) fun m hm => hm.2) n
  exact (hloop.of_imp fun m hm => ⟨hm.1.enterLoop _, hm.2⟩).imp fun c m hm => ⟨fun _ => hm.1, hm.2⟩

mutual

/-- A statement with constants put in has the same effect and ends in the same way, if its changes are harmless and no
value from before a conversion is given to a variable that takes it as it is. -/
theorem unaltered_exec : ∀ {s : Stmt} {scopes : List Scope} {flow : Flow} {J : Machine V σ → Prop}, s.Legal →
    scopes ≠ [] → flow.Typed fields scopes → (∀ p ∈ s.points fields scopes flow, p.Harmless S fields) →
    (s.sites fields scopes).all (Site.unmixed S.conversion) = true → Stable s.written J →
    (s.isDeclaration = true → Outer s.written J) → Unaltered S w fields n scopes J s flow
  | .block _ ss, scopes, flow, J, legal, hne, typed, h, hsites, hJ, _ => by
    obtain ⟨scope, hscope⟩ := Stmt.declaredAll_cons ss [] scopes
    unfold Unaltered Stmt.propagate
    rw [hscope]
    have hbody := agree_execAll legal (List.cons_ne_nil [] scopes) typed.push h hsites hJ.outer
    rw [hscope] at hbody
    exact agree_inScope hbody
  | .expr _ e, scopes, flow, J, _, _, typed, h, hsites, hJ, _ => by
    rw [Stmt.sites, List.all_cons, Bool.and_eq_true] at hsites
    have he := preserved_eval (w := w) e typed (h _ List.mem_cons_self) (Site.unmixed_expr hsites.1) hJ
    exact .bind he fun v => .pure fun m hm => ⟨fun _ => hm.describes, hm.still⟩
  | .localVar _ ty name none, scopes, flow, J, legal, hne, _, _, _, _, hdecl => by
    have hnone : ∀ u ∈ (none : Option Literal), (none : Option V) = some (S.ofLiteral u) := fun u hu => nomatch hu
    exact agree_declare fields ty.value (fun m hm => hm) hne legal.2.2.1 hnone (hdecl rfl)
  | .localVar _ ty name (some e), scopes, flow, J, legal, hne, typed, h, hsites, hJ, hdecl => by
    rw [Stmt.sites, Site.all_optional_some, Site.unmixed, Bool.and_eq_true] at hsites
    have he := preserved_eval (w := w) e typed (h _ List.mem_cons_self) hsites.1 hJ
    refine .bind he fun v => .assume (fun m hm => hm.value) fun hv => ?_
    refine agree_declareInto fields (fun m hm => ⟨hm.describes, hm.still⟩) hne legal.2.2.1
      (fun hother => hv ?_) (hdecl rfl)
    simpa [hother] using hsites.2
  | .ifElse _ c t none, scopes, flow, J, legal, hne, typed, h, hsites, hJ, _ => by
    rw [Stmt.points, List.forall_mem_cons] at h
    rw [Stmt.sites, List.all_cons, Bool.and_eq_true] at hsites
    rw [Stmt.written] at hJ
    have hyes := unaltered_exec legal.2.1 hne (c.typed_propagate typed) h.2 hsites.2 hJ.right
      (absurd · (Bool.eq_false_iff.mp legal.2.2))
    unfold Unaltered at hyes
    rw [Stmt.declared_eq legal.2.2] at hyes
    refine .bind (agree_test (e := some c) typed h.1.optional ((Site.all_optional_some ..).trans hsites.1) hJ.left)
      fun b => ?_
    cases b with
    | true => exact hyes.imp fun _ _ => After.join_left
    | false => exact .pure fun m hm => ⟨fun _ => hm.1.join_right _, hm.2⟩
  | .ifElse _ c t (some e), scopes, flow, J, legal, hne, typed, h, hsites, hJ, _ => by
    rw [Stmt.points, List.forall_mem_cons, List.forall_mem_append] at h
    rw [Stmt.sites, List.all_cons, List.all_append, Bool.and_eq_true, Bool.and_eq_true] at hsites
    rw [Stmt.written] at hJ
    have hcond := c.typed_propagate typed
    have hyes := unaltered_exec legal.2.1 hne hcond h.2.1 hsites.2.1 hJ.right.left
      (absurd · (Bool.eq_false_iff.mp legal.2.2.1))
    have hno := unaltered_exec legal.2.2.2.2.1 hne hcond h.2.2 hsites.2.2 hJ.right.right
      (absurd · (Bool.eq_false_iff.mp legal.2.2.2.2.2))
    unfold Unaltered at hyes hno
    rw [Stmt.declared_eq legal.2.2.1] at hyes
    rw [Stmt.declared_eq legal.2.2.2.2.2] at hno
    refine .bind (agree_test (e := some c) typed h.1.optional ((Site.all_optional_some ..).trans hsites.1) hJ.left)
      fun b => ?_
    cases b with
    | true => exact hyes.imp fun _ _ => After.join_left
    | false => exact hno.imp fun _ _ => After.join_right
  | .whileLoop _ c b, scopes, flow, J, legal, hne, typed, h, hsites, hJ, _ => by
    rw [Stmt.points, List.forall_mem_cons] at h
    rw [Stmt.sites, List.all_cons, Bool.and_eq_true] at hsites
    refine agree_rounds (c := some c) (u := none) rfl hJ typed h.1.optional (List.forall_mem_nil _)
      ((Site.all_optional_some ..).trans hsites.1) rfl fun J' hJ' => ?_
    have hbody := unaltered_exec legal.2.1 hne (c.typed_propagate (typed.enterLoop _)) h.2 hsites.2
      hJ' (absurd · (Bool.eq_false_iff.mp legal.2.2))
    exact hbody.imp fun _ _ hm => hm.2
  | .forLoop _ none c u b, scopes, flow, J, legal, hne, typed, h, hsites, hJ, _ => by
    rw [Stmt.points, List.forall_mem_append, List.forall_mem_append] at h
    rw [Stmt.sites, List.all_append, List.all_append, Bool.and_eq_true, Bool.and_eq_true] at hsites
    refine agree_inScope (agree_rounds rfl hJ.outer.stable typed.push h.1 h.2.1 hsites.1 hsites.2.1 fun J' hJ' => ?_)
    have hbody := unaltered_exec legal.2.2.1 (List.cons_ne_nil [] scopes)
      (Expr.typed_propagateOpt c (typed.push.enterLoop _)) h.2.2 hsites.2.2 hJ'
      (absurd · (Bool.eq_false_iff.mp legal.2.2.2))
    exact hbody.imp fun _ _ hm => hm.2
  | .forLoop _ (some i) c u b, scopes, flow, J, legal, hne, typed, h, hsites, hJ, _ => by
    have ⟨hi, _, _, _, hb, hdecl⟩ := legal
    obtain ⟨scope, hscope⟩ := Stmt.declared_cons i [] scopes
    rw [Stmt.points, hscope, List.forall_mem_append, List.forall_mem_append, List.forall_mem_append] at h
    simp only [Stmt.sites, hscope, List.all_append, Bool.and_eq_true] at hsites
    rw [Stmt.written] at hJ
    have hinit := unaltered_exec hi (List.cons_ne_nil [] scopes) typed.push h.1 hsites.1
      hJ.outer.left.stable fun _ => hJ.outer.left
    have htyped := Stmt.typed_propagate hi typed.push
    unfold Unaltered at hinit
    rw [hscope] at hinit htyped
    unfold Unaltered Stmt.propagate exec
    simp only [Stmt.declared_propagate, hscope]
    refine agree_inScope (agree_andThen hinit (agree_rounds rfl hJ.outer.right.stable htyped h.2.1 h.2.2.1 hsites.2.1
      hsites.2.2.1 fun J' hJ' => ?_))
    have hbody := unaltered_exec hb (List.cons_ne_nil scope scopes)
      (Expr.typed_propagateOpt c (htyped.enterLoop _)) h.2.2.2 hsites.2.2.2 hJ'
      (absurd · (Bool.eq_false_iff.mp hdecl))
    exact hbody.imp fun _ _ hm => hm.2
  | .ret _ none, scopes, flow, J, _, _, _, _, _, _, _ => .pure fun m hm => .abrupt (fun hc => nomatch hc) hm.2
  | .ret _ (some e), scopes, flow, J, _, _, typed, h, hsites, hJ, _ => by
    rw [Stmt.sites, Site.all_optional_some] at hsites
    have he := preserved_eval (w := w) e typed (h _ List.mem_cons_self) (Site.unmixed_expr hsites) hJ
    exact .bind he fun v => .pure fun m hm => .abrupt (fun hc => nomatch hc) hm.still
  | .brk _, scopes, flow, J, _, _, _, _, _, _, _ => .pure fun m hm => .abrupt (fun hc => nomatch hc) hm.2
  | .cont _, scopes, flow, J, _, _, _, _, _, _, _ => .pure fun m hm => .abrupt (fun hc => nomatch hc) hm.2
  | .empty _, scopes, flow, J, _, _, _, _, _, _, _ => .pure fun m hm => ⟨fun _ => hm.1, hm.2⟩

theorem agree_execAll : ∀ {ss : List Stmt} {scopes : List Scope} {flow : Flow} {J : Machine V σ → Prop},
    Stmt.LegalAll ss → scopes ≠ [] → flow.Typed fields scopes →
    (∀ p ∈ Stmt.pointsAll fields scopes ss flow, p.Harmless S fields) →
    (Stmt.sitesAll fields scopes ss).all (Site.unmixed S.conversion) = true → Outer (Stmt.writtenAll ss) J →
    Agree (fun m => Describes S scopes flow m ∧ J m) (execAll S w fields n scopes ss)
      (execAll S w fields n scopes (Stmt.propagateAll fields scopes ss flow).1)
      (After S (Stmt.declaredAll ss scopes) (Stmt.propagateAll fields scopes ss flow).2 J)
  | [], scopes, flow, J, _, _, _, _, _, _ => .pure fun m hm => ⟨fun _ => hm.1, hm.2⟩
  | s :: ss, scopes, flow, J, legal, hne, typed, h, hsites, hJ => by
    rw [Stmt.pointsAll, List.forall_mem_append] at h
    rw [Stmt.sitesAll, List.all_append, Bool.and_eq_true] at hsites
    rw [Stmt.writtenAll] at hJ
    rw [Stmt.propagateAll, execAll, execAll, Stmt.declared_propagate]
    exact agree_andThen
      (unaltered_exec legal.1 hne typed h.1 hsites.1 hJ.left.stable fun _ => hJ.left)
      (agree_execAll legal.2 (declared_ne_nil s hne) (Stmt.typed_propagate legal.1 typed) h.2 hsites.2 hJ.right)

end

end

/-! ## Methods and fields -/

theorem names_arguments (params : List Param) : ∀ args : List V, names (arguments params args) = params.map (·.name) := by
  induction params with
  | nil => exact fun args => rfl
  | cons p params ih =>
    intro args
    cases args with
    | nil => exact congrArg (p.name :: ·) (ih [])
    | cons v args => exact congrArg (p.name :: ·) (ih args)

/-- At the start of a method nothing is known. -/
theorem describes_arguments (S : Semantics V σ) (d : MethodDecl) (args : List V) (f : Fields V) :
    Describes S [d.scope] (some []) ⟨[(arguments d.params args).reverse], f, [], S.start⟩ := by
  refine ⟨?_, [], rfl, fun f hf => nomatch hf⟩
  have h := names_arguments d.params args
  simpa [MethodDecl.scope, names, Function.comp_def] using congrArg List.reverse h

theorem stable_true (W : List (Option String)) : Stable W fun _ : Machine V σ => True := fun _ _ _ _ => trivial

end Constants

open Constants Execution

variable {V σ : Type} {S : Semantics V σ} {fields : Scope}

/-- A method with constants put in does the same, whatever the world, its arguments and the fields are, and whether it
ends or not, if its changes are harmless and no value from before a conversion is given to a variable that takes it as
it is. -/
theorem MethodDecl.runIn_propagate {d : MethodDecl} (legal : d.Legal)
    (h : ∀ p ∈ Stmt.pointsAll fields [[], d.scope] d.body.stmts (some []), p.Harmless S fields)
    (hsites : (d.sites fields).all (Site.unmixed S.conversion) = true) :
    (d.propagate fields).runIn S fields = d.runIn S fields := by
  funext w args f n
  let body : Stmt := .block d.body.span d.body.stmts
  have hbody : Unaltered S w fields n [d.scope] (fun _ => True) body (some []) :=
    unaltered_exec legal.body (List.cons_ne_nil d.scope []) .start h hsites (stable_true _) fun hdecl => nomatch hdecl
  exact congrArg behaviour (hbody _ ⟨describes_arguments S d args f, trivial⟩).1.symm

/-- So does a field when it gets its initial value. -/
theorem FieldDecl.runIn_propagate {d : FieldDecl} (h : ∀ p ∈ Point.optional [] (some []) d.init, p.Harmless S fields)
    (hsites : (Site.optional fields [] none d.init).all (Site.unmixed S.conversion) = true) :
    (d.propagate fields).runIn S fields = d.runIn S fields := by
  funext w f
  cases hinit : d.init with
  | none => simp only [runIn, propagate, hinit, Expr.propagateOpt]
  | some e =>
    rw [hinit] at h hsites
    rw [Site.all_optional_some] at hsites
    have hstart : Describes S [] (some []) ⟨[], f, [], S.start⟩ := ⟨rfl, [], rfl, nofun⟩
    have heq := (preserved_eval (w := w) e .start (h _ List.mem_cons_self) (Site.unmixed_expr hsites) (stable_true _) _
      ⟨hstart, trivial⟩).1
    simp only [runIn, propagate, hinit, Expr.propagateOpt, EStateM.run_bind, heq]

/-- A field or method with constants put in does the same. -/
theorem Member.runIn_propagate {m : Member} (legal : m.Legal) (h : ∀ c ∈ m.changes fields, c.Harmless S)
    (hsites : m.unmixed S.conversion fields = true) :
    (m.propagate fields).runIn S fields = m.runIn S fields := by
  have h := Member.harmless h
  funext w args f n
  cases m with
  | field s d => exact congrFun (congrFun (FieldDecl.runIn_propagate h hsites) w) f
  | method s d =>
    exact congrFun (congrFun (congrFun (congrFun (MethodDecl.runIn_propagate legal h hsites) w) args) f) n

/-- Where values are literals, no change can be told. -/
theorem Constants.Change.harmless_converting (cv : Conversion Literal) : ∀ c : Change, c.Harmless (.converting cv)
  | .shares => fun _ _ _ => rfl
  | .absorbs _ => fun _ _ => rfl

end JavaFold
