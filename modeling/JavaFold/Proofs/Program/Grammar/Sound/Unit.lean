import JavaFold.Proofs.Program.Grammar.Sound.Stmt

/-!
# Programs that are read derive from the grammar

The same for classes and programs. Together with `CompilationUnit.Derives.ofTokens?` this says which tokens are
read: those that the loose grammar derives up to the end of the file, if they do not nest too deep.
-/

namespace JavaFold

open Problem (nestingLimit)

namespace Grammar

open JavaFold.Parser

/-! ## Members -/

theorem gives_block (c : Cursor) : Ensures block c fun b c' => c.Gives (fun ts n => ∃ l us r k,
    ts = l :: (us ++ [r]) ∧ n = k + 1 ∧ l.value = .lbrace ∧ StmtTokens true (.stmts b.stmts) us k ∧
      r.value = .rbrace ∧ b.span = spanAll ts) c' := by
  unfold block
  refine .here (.bind (ensures_expect .lbrace c) fun _ c₁ _ => .get ?_)
  refine .bind ((givesStmts _).blockBody c₁) fun ss c₂ _ => .behind (.pure ?_)
  rintro hss ⟨rfl, hl⟩ ends
  have hpass := ends.pass hl (by simp)
  obtain ⟨_, _, hpassed, us, r, k, rfl, rfl, hss, hr⟩ := hss hpass.ends
  have hall := hpass.cons hpassed
  exact ⟨_, _, hall, _, us, r, k, rfl, rfl, rfl, hss, hr, hall.span (by simp)⟩

theorem keyword_of_ofToken? {t : Token} {m : Modifier} (h : Modifier.ofToken? t = some m) :
    t = .keyword m.keyword := by
  unfold Modifier.ofToken? at h
  split at h <;> cases h <;> rfl

theorem gives_modifiersAfter {limit : Nat} : ∀ (seen : List Modifier) (c : Cursor),
    Ensures (modifiersAfter limit seen) c fun ms c' => ∀ ts, ModifierTokens seen ts →
      c.Gives (fun us n => n = 0 ∧ ModifierTokens ms (ts ++ us)) c' := by
  have hstop : ∀ (seen : List Modifier) (c : Cursor) (ts : List (Spanned Token)), ModifierTokens seen ts →
      c.Gives (fun us n => n = 0 ∧ ModifierTokens seen (ts ++ us)) c := by
    exact fun seen c ts h ends => ⟨[], 0, .refl ends, rfl, by rwa [List.append_nil]⟩
  induction limit with
  | zero => exact fun seen c => .pure (hstop seen c)
  | succ limit ih =>
    intro seen c
    unfold modifiersAfter
    refine .peek ?_
    split
    · exact .pure (hstop seen c)
    · next m hm =>
      refine .refuse rfl fun c₁ _ _ same => .advance ?_
      refine (ih _ _).imp fun ms c₂ hms hnew ts hts ends => ?_
      obtain rfl := same hnew
      have htoken := keyword_of_ofToken? hm
      have hpass := ends.pass htoken (by simp)
      have hmore : ModifierTokens (seen ++ [m]) (ts ++ [⟨.keyword m.keyword, c₁.here⟩]) := by
        refine ⟨by simp [hts.tokens], List.nodup_append.mpr ⟨hts.nodup, List.pairwise_singleton _ m, ?_⟩⟩
        intro a ha b hb
        rw [List.mem_singleton.mp hb]
        exact fun h => hnew (h ▸ ha)
      obtain ⟨us, _, hpassed, rfl, hms⟩ := hms _ hmore hpass.ends
      exact ⟨_, 0, hpass.cons hpassed, rfl, by rwa [List.append_assoc] at hms⟩

theorem gives_modifiers (c : Cursor) : Ensures modifiers c fun ms c' =>
    c.Gives (fun ts n => n = 0 ∧ ModifierTokens ms ts) c' := by
  unfold modifiers
  exact .get ((gives_modifiersAfter [] c).imp fun ms c' h => h [] ⟨rfl, List.nodup_nil⟩)

theorem gives_params {limit : Nat} : ∀ c : Cursor,
    Ensures (params limit) c fun ps c' => c.Gives (fun ts n => n = 0 ∧ ParamTokens true ps ts) c' := by
  have hnil : ∀ c : Cursor, c.Gives (fun ts n => n = 0 ∧ ParamTokens true [] ts) c :=
    fun c ends => ⟨[], 0, .refl ends, rfl, .nil⟩
  induction limit with
  | zero => exact fun c => .pure (hnil c)
  | succ limit ih =>
    intro c
    unfold params
    refine .peek ?_
    split
    · exact .pure (hnil c)
    · exact .pure (hnil c)
    · refine .bind (gives_ty c) fun ty c₁ _ => ?_
      refine .bind (ensures_identifier_token c₁) fun name c₂ _ => ?_
      refine .bind (ensures_eat .comma c₂) fun b c₃ _ => ?_
      split
      · next hb =>
        refine .bind (ih c₃) fun ps c₄ _ => .pure ?_
        rintro hps ⟨rfl, hcomma⟩ ⟨rfl, hname, -⟩ hty ends
        obtain ⟨ts, _, hpassed, rfl, hty⟩ := hty ends
        have hpass := hpassed.ends.pass hname (by simp)
        have hpass' := hpass.ends.pass (hcomma.mp hb) (by simp)
        obtain ⟨us, _, hpassed', rfl, hps⟩ := hps (by simpa [hb] using hpass'.ends)
        refine ⟨_, 0, hpassed.trans (hpass.cons (hpass'.cons (by simpa [hb] using hpassed'))), rfl, ?_⟩
        exact .more (t := ⟨.identifier name.value, c₁.here⟩) (c := ⟨.comma, c₁.advance.here⟩) hty rfl rfl hps
          fun _ => rfl
      · next hb =>
        refine .pure ?_
        rintro ⟨rfl, -⟩ ⟨rfl, hname, -⟩ hty ends
        obtain ⟨ts, _, hpassed, rfl, hty⟩ := hty ends
        have hall := hpassed.concat (hpassed.ends.pass hname (by simp))
        refine ⟨_, 0, by simpa [hb] using hall, rfl, ?_⟩
        exact .last (t := ⟨.identifier name.value, c₁.here⟩) hty rfl

theorem gives_member (c : Cursor) : Ensures member c fun m c' => c.Gives (MemberTokens true m) c' := by
  unfold member
  refine .here (.bind (gives_modifiers c) fun ms c₁ _ => ?_)
  refine .bind (gives_ty c₁) fun ty c₂ _ => ?_
  refine .bind (ensures_identifier_token c₂) fun name c₃ _ => ?_
  refine .bind (ensures_eat .lparen c₃) fun b c₄ _ => ?_
  obtain ⟨name, span⟩ := name
  split
  · next hb =>
    refine .get (.bind (gives_params c₄) fun ps c₅ _ => ?_)
    refine .bind (ensures_expect .rparen c₅) fun _ c₆ _ => ?_
    refine .bind (gives_block c₆) fun body c₇ _ => .behind (.pure ?_)
    rintro hbody ⟨rfl, hrp⟩ hps heat ⟨rfl, hname, hspan⟩ hty hms ends
    obtain rfl : c₄ = c₂.advance.advance := by simpa [hb] using heat.1
    obtain rfl : span = c₂.here := hspan
    obtain ⟨ts, _, hpassed, rfl, hms⟩ := hms ends
    obtain ⟨us, _, hpassed', rfl, hty⟩ := hty hpassed.ends
    have hname := hpassed'.ends.pass hname (by simp)
    have hlp := hname.ends.pass (heat.2.mp hb) (by simp)
    obtain ⟨vs, _, hpassed'', rfl, hps⟩ := hps hlp.ends
    have hrp := hpassed''.ends.pass hrp (by simp)
    obtain ⟨_, _, hblock, l, ws, r, n, rfl, rfl, hl, hss, hr, hspan⟩ := hbody hrp.ends
    have hall := hpassed.trans (hpassed'.trans (hname.cons (hlp.cons (hpassed''.trans (hrp.cons hblock)))))
    simp only [Nat.zero_max] at hall
    refine ⟨_, _, hall, ?_⟩
    obtain ⟨bspan, ss⟩ := body
    obtain rfl : bspan = _ := hspan
    rw [hall.span (by simp)]
    have hopen : (⟨.lparen, c₂.advance.here⟩ : Spanned Token).value = .lparen := rfl
    have hclose : (⟨.rparen, c₅.here⟩ : Spanned Token).value = .rparen := rfl
    exact .method (t := ⟨.identifier name, c₂.here⟩) hms hty rfl hopen hps hclose hl hss hr
  · next hb =>
    refine .refuse rfl fun c₅ _ _ same => ?_
    refine .bind (gives_initializer c₅) fun init c₆ _ => ?_
    refine .bind (ensures_expect .semicolon c₆) fun _ c₇ _ => .behind (.pure ?_)
    rintro ⟨rfl, hr⟩ hinit hvoid heat ⟨rfl, hname, hspan⟩ hty hms ends
    obtain rfl := same hvoid
    obtain rfl : c₅ = c₂.advance := by simpa [hb] using heat.1
    obtain rfl : span = c₂.here := hspan
    obtain ⟨ts, _, hpassed, rfl, hms⟩ := hms ends
    obtain ⟨us, _, hpassed', rfl, hty⟩ := hty hpassed.ends
    have hname := hpassed'.ends.pass hname (by simp)
    obtain ⟨vs, n, hpassed'', hinit⟩ := hinit hname.ends
    have hall := hpassed.trans (hpassed'.trans (hname.cons (hpassed''.concat (hpassed''.ends.pass hr (by simp)))))
    simp only [Nat.zero_max] at hall
    refine ⟨_, _, hall, ?_⟩
    rw [hall.span (by simp)]
    exact .field (t := ⟨.identifier name, c₂.here⟩) (r := ⟨.semicolon, c₆.here⟩) hms hty hvoid rfl hinit rfl

/-! ## Classes -/

/-- Reading what takes tokens moves the cursor. -/
theorem left_ne {P : List (Spanned Token) → Nat → Prop} {c c' : Cursor} (h : c.Gives P c')
    (hP : ∀ ts n, P ts n → ts ≠ []) (ends : c.Ends) : c'.left ≠ c.left := by
  obtain ⟨ts, n, hpassed, hts⟩ := h ends
  have hpos := List.length_pos_iff.mpr (hP ts n hts)
  rw [c.left_eq, c'.left_eq, hpassed.ahead, List.length_append]
  omega

theorem MemberTokens.ne_nil {loose : Bool} {m : Member} {ts : List (Spanned Token)} {n : Nat}
    (h : MemberTokens loose m ts n) : ts ≠ [] := by
  obtain ⟨u, us, rfl, -⟩ := h.starts
  exact List.cons_ne_nil _ _

theorem ClassTokens.ne_nil {loose : Bool} {d : ClassDecl} {ts : List (Spanned Token)} {n : Nat}
    (h : ClassTokens loose d ts n) : ts ≠ [] := by
  obtain ⟨u, us, rfl, -⟩ := h.starts
  exact List.cons_ne_nil _ _

theorem gives_members {limit : Nat} : ∀ c : Cursor,
    Ensures (members limit) c fun ms c' => c.Gives (Sequence (MemberTokens true) ms) c' := by
  have hnil : ∀ c : Cursor, c.Gives (Sequence (MemberTokens true) []) c := fun c ends => ⟨[], 0, .refl ends, .nil⟩
  induction limit with
  | zero => exact fun c => .pure (hnil c)
  | succ limit ih =>
    intro c
    unfold members
    refine .peek ?_
    split
    · exact .pure (hnil c)
    · exact .pure (hnil c)
    · refine .get (.bind (gives_member c) fun m c₁ _ => .get ?_)
      split
      · next hstuck =>
        refine .advance (.bind (ih _) fun ms c₂ _ => .pure fun _ hm ends => ?_)
        exact absurd hstuck (left_ne hm (fun _ _ h => h.ne_nil) ends)
      · refine .bind (ih c₁) fun ms c₂ _ => .pure fun hms hm ends => ?_
        obtain ⟨ts, n, hpassed, hm⟩ := hm ends
        obtain ⟨us, k, hpassed', hms⟩ := hms hpassed.ends
        exact ⟨_, _, hpassed.trans hpassed', .cons hm hms⟩

theorem gives_classDecl (c : Cursor) : Ensures classDecl c fun d c' => c.Gives (ClassTokens true d) c' := by
  unfold classDecl
  refine .here (.bind (gives_modifiers c) fun ms c₁ _ => .peek ?_)
  split
  · next htoken =>
    refine .advance (.bind (ensures_identifier_token _) fun name c₂ _ => ?_)
    refine .bind (ensures_expect .lbrace c₂) fun _ c₃ _ => .get ?_
    refine .bind (gives_members c₃) fun members c₄ _ => ?_
    refine .bind (ensures_expect .rbrace c₄) fun _ c₅ _ => .behind (.pure ?_)
    obtain ⟨name, span⟩ := name
    rintro ⟨rfl, hr⟩ hmembers ⟨rfl, hl⟩ ⟨rfl, hname, hspan⟩ hms ends
    obtain rfl : span = c₁.advance.here := hspan
    obtain ⟨ts, _, hpassed, rfl, hms⟩ := hms ends
    have hk := hpassed.ends.pass htoken (by simp)
    have hname := hk.ends.pass hname (by simp)
    have hl := hname.ends.pass hl (by simp)
    obtain ⟨us, n, hpassed', hmembers⟩ := hmembers hl.ends
    have hr := hpassed'.concat (hpassed'.ends.pass hr (by simp))
    have hall := hpassed.trans (hk.cons (hname.cons (hl.cons hr)))
    rw [Nat.zero_max] at hall
    refine ⟨_, _, hall, ?_⟩
    rw [hall.span (by simp)]
    exact .mk (k := ⟨.keyword .«class», c₁.here⟩) (t := ⟨.identifier name, c₁.advance.here⟩)
      (l := ⟨.lbrace, c₁.advance.advance.here⟩) (r := ⟨.rbrace, c₄.here⟩) hms rfl rfl rfl hmembers rfl
  · exact .report (.pure trivial)

/-- Classes are read up to the end of the file, if the bound is large enough. -/
theorem gives_classes {limit : Nat} : ∀ c : Cursor, Ensures (classes limit) c fun ds c' =>
    (c.left ≤ limit → c.Ends → c'.token = .endOfFile) ∧ c.Gives (Sequence (ClassTokens true) ds) c' := by
  induction limit with
  | zero =>
    refine fun c => .pure ⟨fun hleft ends => ?_, fun ends => ⟨[], 0, .refl ends, .nil⟩⟩
    obtain ⟨front, u, hahead, -⟩ := ends
    have hlength := c.left_eq
    rw [hahead, List.length_append, List.length_singleton] at hlength
    omega
  | succ limit ih =>
    intro c
    unfold classes
    refine .peek ?_
    split
    · next htoken => exact .pure ⟨fun _ _ => htoken, fun ends => ⟨[], 0, .refl ends, .nil⟩⟩
    · refine .get (.bind (gives_classDecl c) fun d c₁ on => .get ?_)
      have hle : c₁.left ≤ c.left := by
        rw [c.left_eq, c₁.left_eq]
        exact on.ahead.length_le
      split
      · next hstuck =>
        refine .advance (.bind (ih _) fun ds c₂ _ => .pure fun _ hd => ?_)
        have hmoves := left_ne hd fun _ _ h => h.ne_nil
        exact ⟨fun _ ends => absurd hstuck (hmoves ends), fun ends => absurd hstuck (hmoves ends)⟩
      · next hmoved =>
        refine .bind (ih c₁) fun ds c₂ _ => .pure fun hds hd => ⟨fun hleft ends => ?_, fun ends => ?_⟩
        · obtain ⟨ts, n, hpassed, -⟩ := hd ends
          exact hds.1 (by omega) hpassed.ends
        · obtain ⟨ts, n, hpassed, hd⟩ := hd ends
          obtain ⟨us, k, hpassed', hds⟩ := hds.2 hpassed.ends
          exact ⟨_, _, hpassed.trans hpassed', .cons hd hds⟩

end Grammar

end JavaFold
