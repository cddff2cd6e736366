import JavaFold.Proofs.Token.Cursor

/-!
# What reading does with tokens that are right

`Leads x passed ts rest need y` states that reading `x` before the tokens `ts`, with `rest` after them, goes
on as reading `y` before `rest`, after nesting `need` levels deeper in between; where the limit of the nesting
does not allow this, it is noted that the nesting is too deep. There is one rule for each step of a reading.
Two readings are put together by `Leads.seq`; what comes after the first one has to keep the problems that
are noted (`Moves`), since it is read even if the nesting was too deep.
-/

namespace JavaFold

open Problem (nestingLimit)

namespace Cursor

/-- A cursor before some tokens. -/
def before (passed : Option Span) (ts : List (Spanned Token)) (depth : Nat) (problems : List Diagnostic) :
    Cursor :=
  { ofTokens ts with passed, depth, problems }

/-- It has been noted that the nesting is too deep. -/
def TooDeep (c : Cursor) : Prop := ∃ d ∈ c.problems, d.problem = .nestingTooDeep

theorem Onward.tooDeep {c c' : Cursor} (h : c.Onward c') (hc : c.TooDeep) : c'.TooDeep := by
  obtain ⟨d, hd, heq⟩ := hc
  exact ⟨d, h.problems.subset hd, heq⟩

end Cursor

namespace Parser

/-! ## Readings that move on -/

/-- Reading moves onward: tokens are passed, and problems are kept. -/
class Moves {α : Type} (x : Parser α) : Prop where
  onward : ∀ c : Cursor, c.Legal → c.Onward (x.run c).2

namespace Moves

variable {α β : Type} {x y : Parser α} {f : α → Parser β}

theorem of_ensures {Q : Cursor → α → Cursor → Prop} (h : ∀ c : Cursor, c.Legal → Ensures x c (Q c)) :
    Moves x := by
  exact ⟨fun c hc => (h c hc).onward⟩

instance bind [hx : Moves x] [hf : ∀ a, Moves (f a)] : Moves (x >>= f) := by
  refine ⟨fun c hc => ?_⟩
  have on := hx.onward c hc
  exact on.trans ((hf _).onward _ (on.legal hc))

instance pure (a : α) : Moves (Pure.pure a : Parser α) := ⟨fun c _ => .refl c⟩

instance ite {b : Prop} [Decidable b] [Moves x] [Moves y] : Moves (if b then x else y) := by
  split <;> infer_instance

instance get : Moves (MonadState.get : Parser Cursor) := ⟨fun c _ => .refl c⟩

instance peek : Moves Parser.peek := ⟨fun c _ => .refl c⟩

instance here : Moves Parser.here := ⟨fun c _ => .refl c⟩

instance behind : Moves Parser.behind := ⟨fun c _ => .refl c⟩

instance advance : Moves Parser.advance := of_ensures fun c _ => ensures_advance c

instance report (p : Problem) : Moves (Parser.report p) := of_ensures fun c _ => ensures_report p c

instance reportAt (p : Problem) (s : Span) : Moves (Parser.reportAt p s) :=
  of_ensures fun c _ => ensures_reportAt p s c

instance eat (t : Token) : Moves (Parser.eat t) := of_ensures fun c _ => ensures_eat t c

instance expect (t : Token) : Moves (Parser.expect t) := of_ensures fun c _ => ensures_expect t c

instance identifier : Moves Parser.identifier := of_ensures fun _ hc => ensures_identifier hc

instance enterNesting : Moves Parser.enterNesting := of_ensures fun c _ => ensures_enterNesting c

instance leaveNesting : Moves Parser.leaveNesting := of_ensures fun c _ => ensures_leaveNesting c

end Moves

/-! ## Where a reading leads -/

/-- The span of the last token that has been passed. -/
def passedBy (passed : Option Span) (ts : List (Spanned Token)) : Option Span :=
  ts.foldl (fun _ t => some t.span) passed

theorem passedBy_append (passed : Option Span) (ts us : List (Spanned Token)) :
    passedBy passed (ts ++ us) = passedBy (passedBy passed ts) us := List.foldl_append

/-- Before `ts`, reading `x` goes on as reading `y` after them. -/
structure Leads {α : Type} (x : Parser α) (passed : Option Span) (ts rest : List (Spanned Token)) (need : Nat)
    (y : Parser α) : Prop where
  run : ∀ {depth : Nat} {problems : List Diagnostic}, rest ≠ [] → depth + need ≤ nestingLimit →
    x.run (.before passed (ts ++ rest) depth problems) =
      y.run (.before (passedBy passed ts) rest depth problems)
  tooDeep : ∀ {depth : Nat} {problems : List Diagnostic}, rest ≠ [] → depth ≤ nestingLimit →
    nestingLimit < depth + need → (∀ t ∈ ts ++ rest, t.value.Legal) →
      (x.run (.before passed (ts ++ rest) depth problems)).2.TooDeep

namespace Leads

variable {α β : Type} {x y z : Parser α} {f : α → Parser β} {passed : Option Span} {t : Spanned Token}
  {ts us rest : List (Spanned Token)} {n m : Nat} {a : α} {r : Parser β}

theorem done (x : Parser α) (passed : Option Span) (rest : List (Spanned Token)) :
    Leads x passed [] rest 0 x where
  run _ _ := rfl
  tooDeep _ hdepth hlimit := absurd hlimit (Nat.not_lt.mpr hdepth)

theorem trans (h : Leads x passed ts (us ++ rest) n y) (h' : Leads y (passedBy passed ts) us rest m z) :
    Leads x passed (ts ++ us) rest (max n m) z where
  run {depth problems} hrest hlimit := by
    have hrest' : us ++ rest ≠ [] := List.append_ne_nil_of_right_ne_nil us hrest
    rw [List.append_assoc, h.run hrest' (by omega), h'.run hrest (by omega), passedBy_append]
  tooDeep {depth problems} hrest hdepth hlimit hlegal := by
    have hrest' : us ++ rest ≠ [] := List.append_ne_nil_of_right_ne_nil us hrest
    rw [List.append_assoc] at hlegal ⊢
    rcases Nat.lt_or_ge nestingLimit (depth + n) with hn | hn
    · exact h.tooDeep hrest' hdepth hn hlegal
    · rw [h.run hrest' hn]
      exact h'.tooDeep hrest hdepth (by omega) fun t ht => hlegal t (List.mem_append_right _ ht)

/-- A reading goes on with what passes no token. -/
theorem stop (h : Leads x passed ts rest n y) (h' : Leads y (passedBy passed ts) [] rest 0 z) :
    Leads x passed ts rest n z := by
  have htrans : Leads x passed (ts ++ []) rest (max n 0) z := h.trans h'
  rwa [List.append_nil, Nat.max_zero] at htrans

theorem bind (h : Leads x passed ts rest n y) (hx : Moves x) (hf : ∀ a, Moves (f a)) :
    Leads (x >>= f) passed ts rest n (y >>= f) where
  run hrest hlimit := by
    rw [StateT.run_bind, StateT.run_bind, h.run hrest hlimit]
  tooDeep {depth problems} hrest hdepth hlimit hlegal := by
    have on := hx.onward (.before passed (ts ++ rest) depth problems) hlegal
    rw [StateT.run_bind]
    exact ((hf _).onward _ (on.legal hlegal)).tooDeep (h.tooDeep hrest hdepth hlimit hlegal)

/-- Two readings, one after the other. -/
theorem seq (h : Leads x passed ts (us ++ rest) n (pure a)) (h' : Leads (f a) (passedBy passed ts) us rest m r)
    [hx : Moves x] [hf : ∀ a, Moves (f a)] :
    Leads (x >>= f) passed (ts ++ us) rest (max n m) r := by
  refine (h.bind hx hf).trans ?_
  rwa [pure_bind]

/-- A reading, and what passes no token after it. -/
theorem last (h : Leads x passed ts rest n (pure a)) (h' : Leads (f a) (passedBy passed ts) [] rest 0 r)
    [hx : Moves x] [hf : ∀ a, Moves (f a)] :
    Leads (x >>= f) passed ts rest n r := by
  refine (h.bind hx hf).stop ?_
  rwa [pure_bind]

/-- A reading that does not nest, and what comes after it. -/
theorem next (h : Leads x passed ts (us ++ rest) 0 (pure a))
    (h' : Leads (f a) (passedBy passed ts) us rest m r) : Leads (x >>= f) passed (ts ++ us) rest m r where
  run {depth problems} hrest hlimit := by
    have hrest' : us ++ rest ≠ [] := List.append_ne_nil_of_right_ne_nil us hrest
    rw [List.append_assoc, StateT.run_bind, h.run hrest' (by omega), passedBy_append]
    exact h'.run hrest hlimit
  tooDeep {depth problems} hrest hdepth hlimit hlegal := by
    have hrest' : us ++ rest ≠ [] := List.append_ne_nil_of_right_ne_nil us hrest
    rw [List.append_assoc] at hlegal ⊢
    rw [StateT.run_bind, h.run hrest' hdepth]
    exact h'.tooDeep hrest hdepth hlimit fun t ht => hlegal t (List.mem_append_right _ ht)

/-- A step that looks at the cursor only. -/
theorem look {g : Parser β} (hx : ∀ depth problems, (x >>= f).run (.before passed (ts ++ rest) depth problems) =
    g.run (.before passed (ts ++ rest) depth problems)) (h : Leads g passed ts rest n r) :
    Leads (x >>= f) passed ts rest n r where
  run hrest hlimit := by
    rw [hx, h.run hrest hlimit]
  tooDeep hrest hdepth hlimit hlegal := by
    rw [hx]
    exact h.tooDeep hrest hdepth hlimit hlegal

theorem get {f : Cursor → Parser β} {g : Parser β}
    (hf : ∀ depth problems, f (.before passed (ts ++ rest) depth problems) = g)
    (h : Leads g passed ts rest n r) : Leads (MonadState.get >>= f) passed ts rest n r := by
  refine look (fun depth problems => ?_) h
  rw [← hf depth problems]
  rfl

theorem peek {f : Token → Parser β} (ht : (ts ++ rest).head? = some t)
    (h : Leads (f t.value) passed ts rest n r) : Leads (Parser.peek >>= f) passed ts rest n r := by
  obtain ⟨us, hus⟩ := List.head?_eq_some_iff.mp ht
  refine look (fun depth problems => ?_) h
  rw [hus]
  rfl

theorem here {f : Span → Parser β} (ht : (ts ++ rest).head? = some t)
    (h : Leads (f t.span) passed ts rest n r) : Leads (Parser.here >>= f) passed ts rest n r := by
  obtain ⟨us, hus⟩ := List.head?_eq_some_iff.mp ht
  refine look (fun depth problems => ?_) h
  rw [hus]
  rfl

theorem behind {f : Span → Parser β} {s : Span} (hs : passed = some s) (h : Leads (f s) passed ts rest n r) :
    Leads (Parser.behind >>= f) passed ts rest n r := by
  subst hs
  exact look (g := f s) (fun _ _ => rfl) h

/-- A token is passed. -/
theorem pass {x : Parser α} {f : α → Parser β} {a : α}
    (hx : ∀ u us depth problems, x.run (.before passed (t :: u :: us) depth problems) =
      (a, .before (some t.span) (u :: us) depth problems))
    (h : Leads (f a) (some t.span) ts rest n r) : Leads (x >>= f) passed (t :: ts) rest n r where
  run {depth problems} hrest hlimit := by
    obtain ⟨u, us, hus⟩ := List.exists_cons_of_ne_nil (List.append_ne_nil_of_right_ne_nil ts hrest)
    rw [List.cons_append, StateT.run_bind, hus, hx, ← hus]
    exact h.run hrest hlimit
  tooDeep {depth problems} hrest hdepth hlimit hlegal := by
    obtain ⟨u, us, hus⟩ := List.exists_cons_of_ne_nil (List.append_ne_nil_of_right_ne_nil ts hrest)
    rw [List.cons_append, StateT.run_bind, hus, hx, ← hus]
    exact h.tooDeep hrest hdepth hlimit fun t ht => hlegal t (List.mem_cons_of_mem _ ht)

theorem advance {f : Unit → Parser β} (h : Leads (f ()) (some t.span) ts rest n r) :
    Leads (Parser.advance >>= f) passed (t :: ts) rest n r := pass (fun _ _ _ _ => rfl) h

theorem eat {f : Bool → Parser β} {token : Token} (ht : t.value = token)
    (h : Leads (f true) (some t.span) ts rest n r) : Leads (Parser.eat token >>= f) passed (t :: ts) rest n r := by
  refine pass (fun u us depth problems => ?_) h
  subst ht
  simp only [Parser.eat, StateT.run_bind]
  exact congrFun (if_pos rfl) _

/-- A token that does not come next is not passed. -/
theorem miss {f : Bool → Parser β} {token : Token} (ht : (ts ++ rest).head? = some t) (hne : t.value ≠ token)
    (h : Leads (f false) passed ts rest n r) : Leads (Parser.eat token >>= f) passed ts rest n r := by
  obtain ⟨us, hus⟩ := List.head?_eq_some_iff.mp ht
  refine look (fun depth problems => ?_) h
  rw [hus, StateT.run_bind]
  have heat : (Parser.eat token).run (.before passed (t :: us) depth problems) =
      (false, .before passed (t :: us) depth problems) := by
    exact congrFun (if_neg hne) _
  rw [heat]
  rfl

theorem expect {f : Unit → Parser β} {token : Token} (ht : t.value = token)
    (h : Leads (f ()) (some t.span) ts rest n r) :
    Leads (Parser.expect token >>= f) passed (t :: ts) rest n r := by
  refine pass (fun u us depth problems => ?_) h
  have heat : (Parser.eat token).run (.before passed (t :: u :: us) depth problems) =
      (true, .before (some t.span) (u :: us) depth problems) := by
    exact congrFun (if_pos ht) _
  rw [Parser.expect, StateT.run_bind, heat]
  rfl

theorem identifier {f : Spanned String → Parser β} {name : String} (ht : t.value = .identifier name)
    (h : Leads (f ⟨name, t.span⟩) (some t.span) ts rest n r) :
    Leads (Parser.identifier >>= f) passed (t :: ts) rest n r := by
  refine pass (fun u us depth problems => ?_) h
  obtain ⟨value, span⟩ := t
  cases ht
  rfl

/-! ## Nesting -/

/-- A reading one level deeper, and what comes after it. -/
theorem nested {f : α → Parser β} {e : Parser β} (h : Leads x passed ts (us ++ rest) n (Pure.pure a))
    (h' : Leads (f a) (passedBy passed ts) us rest m r) [he : Moves e] [hx : Moves x] [hf : ∀ a, Moves (f a)] :
    Leads (do if ← enterNesting then let a ← x; leaveNesting; f a else e) passed (ts ++ us) rest
      (max (n + 1) m) r where
  run {depth problems} hrest hlimit := by
    have hrest' : us ++ rest ≠ [] := List.append_ne_nil_of_right_ne_nil us hrest
    have henter : enterNesting.run (.before passed (ts ++ (us ++ rest)) depth problems) =
        (true, .before passed (ts ++ (us ++ rest)) (depth + 1) problems) := by
      exact congrFun (if_pos (show depth + 1 ≤ nestingLimit by omega)) _
    rw [List.append_assoc, StateT.run_bind, henter]
    change (x >>= fun a => leaveNesting >>= fun _ => f a).run _ = _
    rw [StateT.run_bind, h.run hrest' (by omega), passedBy_append]
    change (f a).run (.before (passedBy passed ts) (us ++ rest) depth problems) = _
    exact h'.run hrest (by omega)
  tooDeep {depth problems} hrest hdepth hlimit hlegal := by
    have hrest' : us ++ rest ≠ [] := List.append_ne_nil_of_right_ne_nil us hrest
    rw [List.append_assoc] at hlegal ⊢
    rw [StateT.run_bind]
    by_cases hd : depth + 1 ≤ nestingLimit
    · have henter : enterNesting.run (.before passed (ts ++ (us ++ rest)) depth problems) =
          (true, .before passed (ts ++ (us ++ rest)) (depth + 1) problems) := by
        exact congrFun (if_pos hd) _
      rw [henter]
      change ((x >>= fun a => leaveNesting >>= fun _ => f a).run _).2.TooDeep
      rcases Nat.lt_or_ge nestingLimit (depth + 1 + n) with hn | hn
      · have on := hx.onward (.before passed (ts ++ (us ++ rest)) (depth + 1) problems) hlegal
        have hdeep := @h.tooDeep _ problems hrest' hd hn hlegal
        have hafter : Moves (leaveNesting >>= fun _ => f (x.run
          (.before passed (ts ++ (us ++ rest)) (depth + 1) problems)).1) := inferInstance
        rw [StateT.run_bind]
        exact (hafter.onward _ (on.legal hlegal)).tooDeep hdeep
      · rw [StateT.run_bind, h.run hrest' hn]
        change ((f a).run (.before (passedBy passed ts) (us ++ rest) depth problems)).2.TooDeep
        exact h'.tooDeep hrest hdepth (by omega) fun t ht => hlegal t (List.mem_append_right _ ht)
    · have on := Moves.enterNesting.onward (.before passed (ts ++ (us ++ rest)) depth problems) hlegal
      have henter : enterNesting.run (.before passed (ts ++ (us ++ rest)) depth problems) =
          (false, (Cursor.note (.before passed (ts ++ (us ++ rest)) (depth + 1) problems) .nestingTooDeep
            (Cursor.here (.before passed (ts ++ (us ++ rest)) (depth + 1) problems))).skipToEnd) := by
        exact congrFun (if_neg hd) _
      rw [henter] at on ⊢
      refine (he.onward _ (on.legal hlegal)).tooDeep ?_
      exact ⟨_, List.mem_cons_self, rfl⟩

end Leads

end Parser

end JavaFold
