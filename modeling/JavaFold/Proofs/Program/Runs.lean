import JavaFold.Proofs.Program.Writes

/-!
# Runs that are the same

`Agree` says that two runs are the same from every machine of a kind, and what holds of the machine after them; runs are
put together from their parts by `Agree.bind` and the rules for scopes and loops. What the machine is known to be is
carried along: a part of a run says what is true after it of all machines of which something is true before it.
-/

namespace JavaFold

namespace Execution

variable {V σ α β : Type}

section

variable {P P' : Machine V σ → Prop} {x x' : Run V σ α} {f f' : α → Run V σ β} {Q Q' : α → Machine V σ → Prop}
  {R : β → Machine V σ → Prop}

/-- Two runs are the same from every machine of which `P` is true; `Q` is true of what comes out. -/
def Agree (P : Machine V σ → Prop) (x x' : Run V σ α) (Q : α → Machine V σ → Prop) : Prop :=
  ∀ m, P m → x.run m = x'.run m ∧ ∀ a m', x.run m = .ok a m' → Q a m'

namespace Agree

theorem of_ok (h : ∀ m, P m → ∀ a m', x.run m = .ok a m' → Q a m') : Agree P x x Q :=
  fun m hm => ⟨rfl, h m hm⟩

theorem pure {a : α} (h : ∀ m, P m → Q a m) : Agree P (Pure.pure a) (Pure.pure a) Q := by
  refine .of_ok fun m hm b m' hrun => ?_
  cases hrun
  exact h m hm

theorem throw {e : Halt} : Agree P (MonadExcept.throw e : Run V σ α) (MonadExcept.throw e) Q :=
  .of_ok fun _ _ _ _ hrun => nomatch hrun

theorem bind (hx : Agree P x x' Q) (hf : ∀ a, Agree (Q a) (f a) (f' a) R) : Agree P (x >>= f) (x' >>= f') R := by
  intro m hm
  have ⟨heq, hpost⟩ := hx m hm
  rw [EStateM.run_bind, EStateM.run_bind, ← heq]
  cases hrun : x.run m with
  | ok a m' => exact hf a m' (hpost a m' hrun)
  | error e m' => exact ⟨rfl, fun b m'' h => nomatch h⟩

theorem given {o : Option α} (h : ∀ a, o = some a → Agree P (f a) (f' a) R) :
    Agree P (Execution.given o >>= f) (Execution.given o >>= f') R := by
  cases o with
  | none => exact fun m _ => ⟨rfl, fun b m' hrun => nomatch hrun⟩
  | some a => exact h a rfl

theorem imp (hx : Agree P x x' Q) (h : ∀ a m, Q a m → Q' a m) : Agree P x x' Q' :=
  fun m hm => ⟨(hx m hm).1, fun a m' hrun => h a m' ((hx m hm).2 a m' hrun)⟩

theorem of_imp (hx : Agree P x x' Q) (h : ∀ m, P' m → P m) : Agree P' x x' Q := fun m hm => hx m (h m hm)

/-- Two runs that agree may be compared to a third one. -/
theorem trans_eq {y : Run V σ α} (hx : Agree P x x' Q) (h : ∀ m, P m → x'.run m = y.run m) : Agree P x y Q :=
  fun m hm => ⟨(hx m hm).1.trans (h m hm), (hx m hm).2⟩

/-- What is true before a run, whatever the machine, may be assumed. -/
theorem assume {p : Prop} (h : ∀ m, P m → p) (hx : p → Agree P x x' Q) : Agree P x x' Q :=
  fun m hm => hx (h m hm) m hm

/-- The same in a scope of its own. -/
theorem inScope (hx : Agree P x x' Q) :
    Agree (fun m => P m.push) (Execution.inScope x) (Execution.inScope x') fun a m => ∃ m', m = m'.pop ∧ Q a m' := by
  intro m hm
  have ⟨heq, hpost⟩ := hx m.push hm
  have hrun (y : Run V σ α) : (Execution.inScope y).run m =
      (y >>= fun a => do modify Machine.pop; return a).run m.push := rfl
  rw [hrun, hrun, EStateM.run_bind, EStateM.run_bind, ← heq]
  cases h : x.run m.push with
  | ok a m' =>
    refine ⟨rfl, fun b m'' hok => ?_⟩
    cases hok
    exact ⟨m', rfl, hpost a m' h⟩
  | error e m' => exact ⟨rfl, fun b m'' hok => nomatch hok⟩

end Agree

/-- The rounds of two loops are the same if their parts are. -/
theorem agree_round {cond cond' : Run V σ Bool} {body body' : Run V σ (Completion V)} {update update' : Run V σ Unit}
    {P₁ : Machine V σ → Prop} (hcond : Agree P cond cond' fun _ => P₁) (hbody : Agree P₁ body body' fun _ => P)
    (hupdate : Agree P update update' fun _ => P) (hP : ∀ m, P₁ m → P m) :
    Agree P (oneRound cond body update) (oneRound cond' body' update') fun _ => P := by
  unfold oneRound
  refine .bind hcond fun b => ?_
  cases b with
  | false => exact .pure hP
  | true =>
    refine .bind hbody fun c => ?_
    cases c with
    | normal => exact .bind hupdate fun _ => .pure fun m hm => hm
    | cont => exact .bind hupdate fun _ => .pure fun m hm => hm
    | brk => exact .pure fun m hm => hm
    | ret v => exact .pure fun m hm => hm

/-- Two loops are the same if their rounds are, and lead back to where they started. -/
theorem agree_loop {r r' : Run V σ (Option (Completion V))} (hr : Agree P r r' fun _ => P) (fuel : Nat) :
    Agree P (loop r fuel) (loop r' fuel) fun _ => P := by
  induction fuel with
  | zero => exact .throw
  | succ fuel ih =>
    unfold loop
    refine .bind hr fun c => ?_
    cases c with
    | none => exact ih
    | some c => exact .pure fun m hm => hm

end

/-! ## The parts of a run -/

section

variable {S : Semantics V σ} {w : World V} {P : Machine V σ → Prop}

theorem agree_given (o : Option α) : Agree P (given o) (given o) fun a m => P m ∧ o = some a := by
  cases o with
  | none => exact .throw
  | some a => exact .pure fun m hm => ⟨hm, rfl⟩

theorem agree_read (x : String) : Agree P (read x) (read x) fun v m => P m ∧ m.read? x = some v := by
  refine .of_ok fun m hm v m' hrun => ?_
  have hrun : (given (m.read? x)).run m = .ok v m' := hrun
  cases h : m.read? x with
  | none =>
    rw [h] at hrun
    cases hrun
  | some u =>
    rw [h] at hrun
    cases hrun
    exact ⟨hm, h⟩

theorem agree_write {Q : Unit → Machine V σ → Prop} {x : String} {v : V} (h : ∀ m, P m → Q () (m.write w x v)) :
    Agree P (write w x v) (write w x v) Q := by
  refine .of_ok fun m hm u m' hrun => ?_
  cases hrun
  exact h m hm

/-- A call changes only what is not local. -/
theorem agree_call (path : String) (args : List V) {Q : Machine V σ → Prop}
    (h : ∀ m m', Kept [none] m m' → P m → Q m') : Agree P (call w path args) (call w path args) fun _ => Q := by
  refine .of_ok fun m hm v m' hrun => ?_
  have hrun : (given (w.call (⟨path, args⟩ :: m.calls) m.fields).1).run
      { m with fields := (w.call (⟨path, args⟩ :: m.calls) m.fields).2, calls := ⟨path, args⟩ :: m.calls } =
        .ok v m' := hrun
  cases hanswer : (w.call (⟨path, args⟩ :: m.calls) m.fields).1 with
  | none =>
    rw [hanswer] at hrun
    cases hrun
  | some u =>
    rw [hanswer] at hrun
    cases hrun
    exact h m _ (kept_fields rfl) hm

/-- An operator changes no name, and gives what literals stand for where its constant result is that. -/
theorem run_binary {op : BinaryOp} {shared : Bool} {a b v : V} {m m' : Machine V σ}
    (hrun : (binary S w op shared a b).run m = .ok v m') : Kept [] m m' ∧
      ∀ u, op.eval? (S.literal a) (S.literal b) = some u →
        (∀ log, S.result shared u log = (S.ofLiteral u, log)) → v = S.ofLiteral u := by
  unfold binary at hrun
  split at hrun
  · next u heval =>
    cases hrun
    refine ⟨.of_eq rfl rfl, fun u' hu h => ?_⟩
    cases heval.symm.trans hu
    rw [h]
  · next heval =>
    refine ⟨?_, fun u hu => ?_⟩
    · cases hgiven : (S.compare? op a b).or (w.binary op a b) with
      | none =>
        rw [hgiven] at hrun
        cases hrun
      | some u =>
        rw [hgiven] at hrun
        cases hrun
        exact .of_eq rfl rfl
    · cases heval.symm.trans hu

/-- Whether a string is shared makes no difference to an operator that gives the same in both cases. -/
theorem binary_congr {op : BinaryOp} {shared shared' : Bool} {a b : V}
    (h : ∀ u, op.eval? (S.literal a) (S.literal b) = some u → S.result shared u = S.result shared' u) :
    binary S w op shared a b = binary S w op shared' a b := by
  unfold binary
  split
  · next u heval => rw [result, result, h u heval]
  · rfl

/-- What is on record makes no difference to anything else. -/
theorem Agree.see {x x' : Run V σ V} {Q : V → Machine V σ → Prop} (h : Agree P x x' Q)
    (hQ : ∀ v, Stable [] (Q v)) (place : Span) : Agree P (Execution.see S place x) (Execution.see S place x') Q := by
  refine .bind h fun v => .of_ok fun m hm a m' hrun => ?_
  cases hrun
  exact hQ _ m _ (.of_eq rfl rfl) hm

/-- At a place of which nothing is put on record. -/
theorem see_of_not {place : Span} (h : ∀ v log, S.record place v log = log) (x : Run V σ V) : see S place x = x := by
  have hsame : (fun v => do
      modify fun m : Machine V σ => { m with log := S.record place v m.log }
      return v : V → Run V σ V) = Pure.pure := by
    funext v m
    exact congrArg (fun log => EStateM.Result.ok v { m with log }) (h v m.log)
  exact (congrArg (x >>= ·) hsame).trans (bind_pure x)

/-- An expression that has stayed is the same. -/
theorem Agree.expr_eq {fields : Constants.Scope} {scopes : List Constants.Scope} {joined : Bool} {e e' : Expr}
    {Q : V → Machine V σ → Prop}
    (h : Agree P (eval S w fields scopes joined e) (eval S w fields scopes joined e) Q) (he : e' = e) :
    Agree P (eval S w fields scopes joined e) (eval S w fields scopes joined e') Q := by
  rwa [he]

end

end Execution

end JavaFold
