import JavaFold.Proofs.Program.Grammar.Stmt

/-!
# How programs are read

The same for classes and what they hold. A program is read exactly if its tokens do not nest deeper than the
limit (`ofTokens?_of_readsClasses`).
-/

namespace JavaFold

namespace Parser

variable {ts us vs ws : List (Spanned Token)} {need more : Nat} {t k l r : Spanned Token}

/-! ## Functions that move on -/

namespace Moves

instance block : Moves Parser.block := of_ensures fun _ hc => ensures_block hc

instance modifiers : Moves Parser.modifiers := of_ensures fun c _ => ensures_modifiers c

instance params (limit : Nat) : Moves (Parser.params limit) := of_ensures fun _ hc => ensures_params hc

instance member : Moves Parser.member := of_ensures fun _ hc => ensures_member hc

instance members (limit : Nat) : Moves (Parser.members limit) := of_ensures fun _ hc => ensures_members hc

instance classDecl : Moves Parser.classDecl := of_ensures fun _ hc => ensures_classDecl hc

instance classes (limit : Nat) : Moves (Parser.classes limit) := of_ensures fun _ hc => ensures_classes hc

end Moves

/-! ## What tokens are read as -/

def ReadsModifiers (ts : List (Spanned Token)) (ms : List Modifier) : Prop :=
  ∀ ⦃passed : Option Span⦄ ⦃u : Spanned Token⦄ ⦃rest : List (Spanned Token)⦄,
    Modifier.ofToken? u.value = none → Leads modifiers passed ts (u :: rest) 0 (pure ms)

def ReadsParams (ts : List (Spanned Token)) (ps : List Param) : Prop :=
  ∀ ⦃limit : Nat⦄ ⦃passed : Option Span⦄ ⦃u : Spanned Token⦄ ⦃rest : List (Spanned Token)⦄,
    ts.length ≤ limit → u.value = .rparen → Leads (params limit) passed ts (u :: rest) 0 (pure ps)

def ReadsMember (ts : List (Spanned Token)) (need : Nat) (m : Member) : Prop :=
  ∀ ⦃passed : Option Span⦄ ⦃rest : List (Spanned Token)⦄, Leads member passed ts rest need (pure m)

def ReadsMembers (ts : List (Spanned Token)) (need : Nat) (ms : List Member) : Prop :=
  ∀ ⦃limit : Nat⦄ ⦃passed : Option Span⦄ ⦃u : Spanned Token⦄ ⦃rest : List (Spanned Token)⦄,
    ts.length ≤ limit → u.value = .rbrace → Leads (members limit) passed ts (u :: rest) need (pure ms)

def ReadsClass (ts : List (Spanned Token)) (need : Nat) (c : ClassDecl) : Prop :=
  ∀ ⦃passed : Option Span⦄ ⦃rest : List (Spanned Token)⦄, Leads classDecl passed ts rest need (pure c)

def ReadsClasses (ts : List (Spanned Token)) (need : Nat) (cs : List ClassDecl) : Prop :=
  ∀ ⦃limit : Nat⦄ ⦃passed : Option Span⦄ ⦃u : Spanned Token⦄ ⦃rest : List (Spanned Token)⦄,
    ts.length ≤ limit → u.value = .endOfFile → Leads (classes limit) passed ts (u :: rest) need (pure cs)

/-! ## Modifiers and parameters -/

theorem leads_modifiersAfter : ∀ {ms seen : List Modifier} {ts : List (Spanned Token)} {limit : Nat}
    {passed : Option Span} {u : Spanned Token} {rest : List (Spanned Token)},
    ts.map (·.value) = ms.map (fun m => .keyword m.keyword) → (seen ++ ms).Nodup → ts.length ≤ limit →
    Modifier.ofToken? u.value = none →
    Leads (modifiersAfter limit seen) passed ts (u :: rest) 0 (pure (seen ++ ms))
  | [], seen, ts, limit, passed, u, rest, hts, _, _, hu => by
    obtain rfl := List.map_eq_nil_iff.mp hts
    rw [List.append_nil]
    cases limit with
    | zero => exact .done _ _ _
    | succ limit =>
      rw [modifiersAfter]
      refine .peek rfl ?_
      rw [hu]
      exact .done _ _ _
  | m :: ms, seen, ts, limit, passed, u, rest, hts, hnodup, hlimit, hu => by
    obtain ⟨t, ts, rfl, ht, hts⟩ := List.map_eq_cons_iff.mp hts
    have hm : Modifier.ofToken? t.value = some m := by
      rw [ht]
      cases m <;> rfl
    have hnew : m ∉ seen := fun hmem =>
      (List.nodup_append.mp hnodup).2.2 m hmem m List.mem_cons_self rfl
    cases limit with
    | zero => cases hlimit
    | succ limit =>
      rw [modifiersAfter]
      refine .peek rfl ?_
      rw [hm]
      dsimp only
      rw [if_neg hnew]
      rw [List.append_cons] at hnodup
      have hread := @leads_modifiersAfter ms (seen ++ [m]) ts limit (some t.span) u rest hts hnodup
        (Nat.le_of_succ_le_succ hlimit) hu
      rw [← List.append_cons] at hread
      exact .advance hread

theorem readsModifiers {ms : List Modifier} (hts : ts.map (·.value) = ms.map (fun m => .keyword m.keyword))
    (h : ms.Nodup) : ReadsModifiers ts ms := by
  intro passed u rest hu
  refine .get (g := modifiersAfter (ts ++ u :: rest).length []) (fun _ _ => rfl)
    (leads_modifiersAfter hts h ?_ hu)
  rw [List.length_append]
  exact Nat.le_add_right _ _

theorem readsParams_nil : ReadsParams [] [] := by
  intro limit passed u rest _ hu
  cases limit with
  | zero => exact .done _ _ _
  | succ limit =>
    rw [params]
    refine .peek rfl ?_
    rw [hu]
    exact .done _ _ _

/-- The first token is one that a type may start with. -/
def StartsTy (ts : List (Spanned Token)) : Prop :=
  ∃ t us, ts = t :: us ∧ (t.value ∈ [.keyword .int, .keyword .boolean, .keyword .void] ∨
    ∃ name, t.value = .identifier name)

/-- A parameter, and what is read after it. -/
theorem ReadsTy.leads_params {ty : Spanned Ty} {name : String} (h : ReadsTy ts ty) (hts : StartsTy ts)
    (ht : t.value = .identifier name) {limit : Nat} {passed : Option Span} {rest : List (Spanned Token)}
    {ps : List Param} (hafter : Leads (do
      if ← eat .comma then
        return ⟨ty.value, name⟩ :: (← params limit)
      return [⟨ty.value, name⟩] : Parser (List Param)) (some t.span) us rest 0 (pure ps)) :
    Leads (params (limit + 1)) passed (ts ++ t :: us) rest 0 (pure ps) := by
  obtain ⟨first, tail, rfl, hfirst⟩ := hts
  rw [params]
  refine .peek rfl ?_
  split
  · next heq =>
    rw [heq] at hfirst
    simp at hfirst
  · next heq =>
    rw [heq] at hfirst
    simp at hfirst
  · exact .next (h (by simp [ht])) (.identifier ht hafter)

theorem ReadsTy.param {ty : Spanned Ty} {name : String} (h : ReadsTy ts ty) (hts : StartsTy ts)
    (ht : t.value = .identifier name) : ReadsParams (ts ++ [t]) [⟨ty.value, name⟩] := by
  intro limit passed u rest hlimit hu
  cases limit with
  | zero => simp at hlimit
  | succ limit => exact h.leads_params hts ht (.miss rfl (by rw [hu]; nofun) (.done _ _ _))

theorem ReadsTy.params {ty : Spanned Ty} {name : String} {ps : List Param} (h : ReadsTy ts ty)
    (hts : StartsTy ts) (ht : t.value = .identifier name) (hk : k.value = .comma) (hps : ReadsParams us ps) :
    ReadsParams (ts ++ t :: k :: us) (⟨ty.value, name⟩ :: ps) := by
  intro limit passed u rest hlimit hu
  simp only [List.length_append, List.length_cons] at hlimit
  cases limit with
  | zero => omega
  | succ limit => exact h.leads_params hts ht (.eat hk (.last (hps (by omega) hu) (.done _ _ _)))

/-! ## Fields and methods -/

theorem ofToken?_startsTy (h : StartsTy ts) : ∃ u tail, ts = u :: tail ∧ Modifier.ofToken? u.value = none := by
  obtain ⟨u, tail, rfl, hu⟩ := h
  refine ⟨u, tail, rfl, ?_⟩
  simp only [List.mem_cons, List.not_mem_nil, or_false] at hu
  rcases hu with (hu | hu | hu) | ⟨name, hu⟩ <;> · rw [hu]; rfl

theorem spanAll_eq {first : Spanned Token} (h : ts.head? = some first) :
    spanAll ts = first.span.merge (lastSpan first.span ts) := by
  cases ts with
  | nil => cases h
  | cons t ts =>
    cases h
    rfl

/-- What a field and a method start with, and what is read after it. -/
theorem ReadsModifiers.leads_member {ms : List Modifier} {ty : Spanned Ty} {name : String}
    (h : ReadsModifiers ts ms) (hty : ReadsTy us ty) (hstarts : StartsTy us) (ht : t.value = .identifier name)
    {first : Spanned Token} (hfirst : (ts ++ (us ++ t :: vs)).head? = some first) {passed : Option Span}
    {rest : List (Spanned Token)} {m : Member} (hafter : Leads (do
      if ← eat .lparen then
        let params ← params (← get).left
        expect .rparen
        let body ← block
        return .method (first.span.merge (← behind)) ⟨ms, ty, ⟨name, t.span⟩, params, body⟩
      if ty.value = .void then
        reportAt .voidField ty.span
      let init ← initializer
      expect .semicolon
      return .field (first.span.merge (← behind)) ⟨ms, ty, ⟨name, t.span⟩, init⟩ : Parser Member)
      (some t.span) vs rest need (pure m)) :
    Leads member passed (ts ++ (us ++ t :: vs)) rest need (pure m) := by
  obtain ⟨u, tail, rfl, hu⟩ := ofToken?_startsTy hstarts
  refine .here (t := first) ?_ (.next (h hu) (.next (hty (by rw [ht]; nofun)) (.identifier ht hafter)))
  rw [List.head?_append, hfirst]
  rfl

theorem ReadsModifiers.field {ms : List Modifier} {ty : Spanned Ty} {name : String} {init : Option Expr}
    (h : ReadsModifiers ts ms) (hty : ReadsTy us ty) (hstarts : StartsTy us) (hvoid : ty.value ≠ .void)
    (ht : t.value = .identifier name) (hinit : ReadsInit vs need init) (hr : r.value = .semicolon)
    (hvs : ∀ v ∈ vs.head?, v.value ≠ .lparen) :
    ReadsMember (ts ++ (us ++ t :: (vs ++ [r]))) need
      (.field (spanAll (ts ++ (us ++ t :: (vs ++ [r])))) ⟨ms, ty, ⟨name, t.span⟩, init⟩) := by
  intro passed rest
  obtain ⟨first, hfirst⟩ : ∃ first, (ts ++ (us ++ t :: (vs ++ [r]))).head? = some first :=
    Option.isSome_iff_exists.mp (by simp)
  have hspan : spanAll (ts ++ (us ++ t :: (vs ++ [r]))) = first.span.merge r.span := by
    rw [spanAll_eq hfirst]
    simp
  have hnext : ∃ v, (vs ++ [r] ++ rest).head? = some v ∧ v.value ≠ .lparen := by
    cases vs with
    | nil => exact ⟨r, rfl, by rw [hr]; nofun⟩
    | cons v vs => exact ⟨v, rfl, hvs v rfl⟩
  obtain ⟨v, hv, hparen⟩ := hnext
  rw [hspan]
  refine h.leads_member hty hstarts ht hfirst (.miss hv hparen ?_)
  dsimp only
  rw [if_neg hvoid, ← Nat.max_zero need]
  exact .seq (hinit hr) (.expect hr (.behind rfl (.done _ _ _)))

theorem ReadsModifiers.method {ms : List Modifier} {ty : Spanned Ty} {name : String} {ps : List Param}
    {ss : List Stmt} (h : ReadsModifiers ts ms) (hty : ReadsTy us ty) (hstarts : StartsTy us)
    (ht : t.value = .identifier name) {lp rp : Spanned Token} (hlp : lp.value = .lparen)
    (hps : ReadsParams vs ps) (hrp : rp.value = .rparen) (hl : l.value = .lbrace) (hss : ReadsStatements ws need ss)
    (hr : r.value = .rbrace) :
    ReadsMember (ts ++ (us ++ t :: lp :: (vs ++ rp :: (l :: (ws ++ [r]))))) (need + 1)
      (.method (spanAll (ts ++ (us ++ t :: lp :: (vs ++ rp :: (l :: (ws ++ [r]))))))
        ⟨ms, ty, ⟨name, t.span⟩, ps, ⟨spanAll (l :: (ws ++ [r])), ss⟩⟩) := by
  intro passed rest
  obtain ⟨first, hfirst⟩ : ∃ first, (ts ++ (us ++ t :: lp :: (vs ++ rp :: (l :: (ws ++ [r]))))).head? =
      some first := Option.isSome_iff_exists.mp (by simp)
  have hspan : spanAll (ts ++ (us ++ t :: lp :: (vs ++ rp :: (l :: (ws ++ [r]))))) =
      first.span.merge r.span := by
    rw [spanAll_eq hfirst]
    simp
  rw [hspan]
  refine h.leads_member hty hstarts ht hfirst (.eat hlp ?_)
  refine .get (g := do
    let params ← params ((vs ++ rp :: (l :: (ws ++ [r]))) ++ rest).length
    expect .rparen
    let body ← block
    return .method (first.span.merge (← behind)) ⟨ms, ty, ⟨name, t.span⟩, params, body⟩) (fun _ _ => rfl) ?_
  refine .next (hps ?_ hrp) (.expect hrp (.last (hss.method hl hr) ?_))
  · simp
  · exact .behind (s := r.span) (by simp) (.done _ _ _)

/-! ## Classes -/

theorem readsMembers_nil : ReadsMembers [] 0 [] := by
  intro limit passed u rest _ hu
  cases limit with
  | zero => exact .done _ _ _
  | succ limit =>
    rw [members]
    refine .peek rfl ?_
    rw [hu]
    exact .done _ _ _

theorem ReadsMember.cons {m : Member} {ms : List Member} (h : ReadsMember ts need m)
    (hts : ∃ t us, ts = t :: us ∧ t.value ≠ .rbrace ∧ t.value ≠ .endOfFile) (hms : ReadsMembers us more ms) :
    ReadsMembers (ts ++ us) (max need more) (m :: ms) := by
  intro limit passed u rest hlimit hu
  obtain ⟨t, tail, rfl, hbrace, hend⟩ := hts
  simp only [List.length_cons, List.length_append] at hlimit
  cases limit with
  | zero => omega
  | succ limit =>
    rw [members]
    refine .peek rfl ?_
    split
    · next heq => exact absurd heq hbrace
    · next heq => exact absurd heq hend
    · refine .get (g := do
        let m ← member
        if (← MonadState.get).left = ((t :: tail ++ us) ++ u :: rest).length then
          advance
          return m :: (← members limit)
        else return m :: (← members limit)) (fun _ _ => rfl) ?_
      refine .seq (@h _ _) ?_
      refine .get (g := do return m :: (← members limit)) (fun _ _ => if_neg ?_)
        (.last (hms (by omega) hu) (.done _ _ _))
      change (us ++ u :: rest).length ≠ (t :: tail ++ us ++ u :: rest).length
      simp only [List.length_cons, List.length_append]
      omega

theorem ReadsModifiers.classDecl {ms : List Modifier} {name : String} {members : List Member}
    (h : ReadsModifiers ts ms) (hk : k.value = .keyword .«class») (ht : t.value = .identifier name)
    (hl : l.value = .lbrace) (hmembers : ReadsMembers us need members) (hr : r.value = .rbrace) :
    ReadsClass (ts ++ k :: t :: l :: (us ++ [r])) need
      ⟨spanAll (ts ++ k :: t :: l :: (us ++ [r])), ms, ⟨name, t.span⟩, members⟩ := by
  intro passed rest
  obtain ⟨first, hfirst⟩ : ∃ first, (ts ++ k :: t :: l :: (us ++ [r])).head? = some first :=
    Option.isSome_iff_exists.mp (by simp)
  have hspan : spanAll (ts ++ k :: t :: l :: (us ++ [r])) = first.span.merge r.span := by
    rw [spanAll_eq hfirst]
    simp
  rw [hspan]
  refine .here (t := first) (by rw [List.head?_append, hfirst]; rfl) (.next (h (by rw [hk]; rfl)) ?_)
  refine .peek rfl ?_
  rw [hk]
  refine .advance (.identifier ht (.expect hl ?_))
  refine .get (g := do
    let members ← Parser.members ((us ++ [r]) ++ rest).length
    expect .rbrace
    return ⟨first.span.merge (← behind), ms, ⟨name, t.span⟩, members⟩) (fun _ _ => rfl) ?_
  rw [← Nat.max_zero need]
  have hlimit : us.length ≤ ((us ++ [r]) ++ rest).length := by
    simp only [List.length_append]
    omega
  refine .seq ?_ (.expect hr (.behind rfl (.done _ _ _)))
  exact hmembers hlimit hr

theorem readsClasses_nil : ReadsClasses [] 0 [] := by
  intro limit passed u rest _ hu
  cases limit with
  | zero => exact .done _ _ _
  | succ limit =>
    rw [classes]
    refine .peek rfl ?_
    rw [hu]
    exact .done _ _ _

theorem ReadsClass.cons {c : ClassDecl} {cs : List ClassDecl} (h : ReadsClass ts need c)
    (hts : ∃ t us, ts = t :: us ∧ t.value ≠ .endOfFile) (hcs : ReadsClasses us more cs) :
    ReadsClasses (ts ++ us) (max need more) (c :: cs) := by
  intro limit passed u rest hlimit hu
  obtain ⟨t, tail, rfl, hend⟩ := hts
  simp only [List.length_cons, List.length_append] at hlimit
  cases limit with
  | zero => omega
  | succ limit =>
    rw [classes]
    refine .peek rfl ?_
    split
    · next heq => exact absurd heq hend
    · refine .get (g := do
        let c ← classDecl
        if (← MonadState.get).left = ((t :: tail ++ us) ++ u :: rest).length then
          advance
          return c :: (← classes limit)
        else return c :: (← classes limit)) (fun _ _ => rfl) ?_
      refine .seq (@h _ _) ?_
      refine .get (g := do return c :: (← classes limit)) (fun _ _ => if_neg ?_)
        (.last (hcs (by omega) hu) (.done _ _ _))
      change (us ++ u :: rest).length ≠ (t :: tail ++ us ++ u :: rest).length
      simp only [List.length_cons, List.length_append]
      omega

end Parser

/-- A program is read from its tokens if they do not nest too deep, and else this is reported. What comes after
the end of the file is not looked at. -/
theorem CompilationUnit.ofTokens?_of_readsClasses {ts : List (Spanned Token)} {u : Spanned Token} {need : Nat}
    {cs : List ClassDecl} (h : Parser.ReadsClasses ts need cs) (hu : u.value = .endOfFile)
    (rest : List (Spanned Token)) :
    (need ≤ Problem.nestingLimit → ofTokens? (ts ++ u :: rest) = .ok ⟨cs⟩) ∧
      (Problem.nestingLimit < need → (∀ t ∈ ts ++ u :: rest, t.value.Legal) →
        ∃ ds, ofTokens? (ts ++ u :: rest) = .error ds ∧ ∃ d ∈ ds, d.problem = .nestingTooDeep) := by
  have hlimit : ts.length ≤ (ts ++ u :: rest).length := by
    rw [List.length_append]
    exact Nat.le_add_right _ _
  have hread := @h (ts ++ u :: rest).length none u rest hlimit hu
  have hstart : Cursor.ofTokens (ts ++ u :: rest) = .before none (ts ++ u :: rest) 0 [] := rfl
  constructor
  · intro hneed
    have hrun : (Parser.classes (ts ++ u :: rest).length).run (.before none (ts ++ u :: rest) 0 []) =
        (cs, .before (Parser.passedBy none ts) (u :: rest) 0 []) := hread.run (List.cons_ne_nil _ _) (by omega)
    unfold ofTokens?
    rw [hstart, hrun]
    rfl
  · intro hneed hlegal
    have hdeep : ((Parser.classes (ts ++ u :: rest).length).run (.before none (ts ++ u :: rest) 0 [])).2.TooDeep :=
      hread.tooDeep (List.cons_ne_nil _ _) (Nat.zero_le _) (by omega) hlegal
    obtain ⟨d, hd, hproblem⟩ := hdeep
    unfold ofTokens?
    rw [hstart]
    split
    next classes cursor hrun =>
    rw [hrun] at hd
    rw [if_neg fun hnil => by rw [List.isEmpty_iff.mp hnil] at hd; cases hd]
    exact ⟨_, rfl, d, List.mem_reverse.mpr hd, hproblem⟩

end JavaFold
