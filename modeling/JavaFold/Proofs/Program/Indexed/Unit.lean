import JavaFold.Proofs.Program.Indexed.Stmt

/-!
# Programs by index

Reading a whole program by index, without a bound on loops or recursion, has a result for all tokens of which the last
one is the end of the file (`CompilationUnit.readByIndex_of_getLast?`), as those of every text are: no index is out of
range, no difference is negative, and at most 48 functions are called for each token. The result is that of `ofTokens?`:
a program, or what is wrong with the tokens, and that is never nothing.
-/

namespace JavaFold

variable {tokens : TokenList} {m : Nat} {c : Cursor}

/-- Each modifier takes a token. -/
theorem agrees_modifiersAfter : ∀ {limit : Nat} {seen : List Modifier} {c : Cursor}, c.left ≤ limit →
    Agrees tokens (tokens.modifiersAfter seen) (Parser.modifiersAfter limit seen) m c
      fun m' c' => m' = m ∧ c'.left ≤ c.left ∧ c'.depth = c.depth := by
  intro limit
  induction limit with
  | zero => exact fun hlimit => .among fun hc => absurd hc.ends.left_pos (by omega)
  | succ limit ih =>
    intro seen c hlimit
    rw [TokenList.modifiersAfter, Parser.modifiersAfter]
    refine .peek ?_
    cases hmodifier : Modifier.ofToken? c.token with
    | none => exact .pure ⟨rfl, Nat.le_refl _, rfl⟩
    | some modifier =>
      have hne : c.token ≠ .endOfFile := fun he => by simp [he, Modifier.ofToken?] at hmodifier
      refine .noteIf (Agrees.run_report _) rfl fun c₁ hs => .advance (hs.token ▸ hne) fun hleft hdepth => ?_
      have hsame := hs.left
      refine (ih (by omega)).imp fun m' c' h => ⟨h.1, by omega, ?_⟩
      rw [h.2.2, hdepth, hs.depth]

theorem agrees_modifiers : Agrees tokens tokens.modifiers Parser.modifiers m c (c.Within 1 47 m) := by
  rw [TokenList.modifiers, Parser.modifiers]
  refine .called (.lookAhead ((agrees_modifiersAfter (Nat.le_refl _)).imp fun m' c' h => ?_))
  obtain ⟨rfl, hleft, hdepth⟩ := h
  exact ⟨by omega, by omega⟩

/-- Each parameter but the last one has a comma after it. -/
theorem agrees_params : ∀ {limit m : Nat} {c : Cursor}, c.left ≤ limit →
    Agrees tokens tokens.params (Parser.params limit) m c (c.Within 1 45 m) := by
  intro limit
  induction limit with
  | zero => exact fun hlimit => .among fun hc => absurd hc.ends.left_pos (by omega)
  | succ limit ih =>
    intro m c hlimit
    rw [TokenList.params, Parser.params]
    refine .peek ?_
    have hnone : Agrees tokens (pure [] : IndexedParser (List Param)) (pure [] : Parser _) m c (c.Within 1 45 m) :=
      .pure ⟨Nat.le_refl _, by omega⟩
    have hsome : Agrees tokens
        (do
          let ty ← tokens.ty
          let name ← tokens.identifier
          let param : Param := ⟨ty.value, name.value⟩
          if ← tokens.eat .comma then
            return param :: (← tokens.params)
          return [param])
        (do
          let ty ← Parser.ty
          let name ← Parser.identifier
          let param : Param := ⟨ty.value, name.value⟩
          if ← Parser.eat .comma then
            return param :: (← Parser.params limit)
          return [param]) m c (c.Within 1 45 m) := by
      refine .bind agrees_ty fun ty m₁ c₁ h₁ => .bind agrees_identifier fun name m₂ c₂ h₂ => ?_
      obtain ⟨hd₁, hm₁⟩ := h₁
      obtain ⟨rfl, ⟨hleft₂, hdepth₂⟩, -⟩ := h₂
      refine .eat (by simp) (fun c₃ htoken hleft₃ hdepth₃ => ?_) fun hno => ?_
      · refine .bind (ih (by omega)) fun rest m₄ c₄ h₄ => .pure ?_
        obtain ⟨hd₄, hm₄⟩ := h₄
        exact ⟨by omega, by omega⟩
      · exact .pure ⟨by omega, by omega⟩
    cases c.token with
    | rparen | endOfFile => exact hnone
    | _ => exact hsome

theorem agrees_member : Agrees tokens tokens.member Parser.member m c (c.Within 3 30 m) := by
  rw [TokenList.member, Parser.member]
  refine .called (.here (.bind agrees_modifiers fun modifiers m₁ c₁ h₁ => .bind agrees_ty fun ty m₂ c₂ h₂ => ?_))
  refine .bind agrees_identifier fun name m₃ c₃ h₃ => ?_
  obtain ⟨rfl, hname, -⟩ := h₃
  have htyped : c.Within 2 45 (m + 1) m₃ c₂ := h₁.trans h₂ (by omega) (by omega)
  have hnamed : c.Within 2 45 (m + 1) m₃ c₃ := htyped.trans hname.within (by omega) (by omega)
  refine .eat (by simp) (fun c₄ htoken hleft₄ hdepth₄ => ?_) fun hno => ?_
  · rw [if_pos rfl, if_pos rfl]
    refine .called (.lookAhead (.bind (agrees_params (Nat.le_refl _)) fun params m₅ c₅ h₅ => ?_))
    refine .expect (by simp) fun c₆ hs => .bind agrees_block fun body m₇ c₇ h₇ => .behind (.pure ?_)
    have hparams : c₄.Within 1 45 (m₃ + 1) m₅ c₆ := h₅.trans hs.within (by omega) (by omega)
    have hrest : c₄.Within 2 18 (m₃ + 1) m₇ c₇ := hparams.trans h₇ (by omega) (by omega)
    obtain ⟨hd, hm⟩ := hnamed
    obtain ⟨hd', hm'⟩ := hrest
    exact ⟨by omega, by omega⟩
  · rw [if_neg Bool.false_ne_true, if_neg Bool.false_ne_true]
    refine .noteIf (fun _ => rfl) rfl fun c₄ hs₄ => .bind agrees_initializer fun init m₅ c₅ h₅ => ?_
    refine .expect (by simp) fun c₆ hs₆ => .behind (.pure ?_)
    have hinit : c₃.Within 0 40 m₃ m₅ c₅ := hs₄.within.trans h₅ (by omega) (by omega)
    have hrest : c₃.Within 0 40 m₃ m₅ c₆ := hinit.trans hs₆.within (by omega) (by omega)
    obtain ⟨hd, hm⟩ := hnamed.trans hrest (r := 38) (by omega) (by omega)
    exact ⟨by omega, by omega⟩

/-- Members, each of which takes a token or has one skipped. -/
theorem agrees_members : ∀ {limit m : Nat} {c : Cursor}, c.left ≤ limit →
    Agrees tokens tokens.members (Parser.members limit) m c (c.Within 0 30 m) := by
  intro limit
  induction limit with
  | zero => exact fun hlimit => .among fun hc => absurd hc.ends.left_pos (by omega)
  | succ limit ih =>
    intro m c hlimit
    rw [TokenList.members, Parser.members]
    refine .peek ?_
    generalize ht : c.token = t
    have hstop : Agrees tokens (pure [] : IndexedParser (List Member)) (pure [] : Parser _) m c (c.Within 0 30 m) :=
      .pure ⟨Nat.le_refl _, by omega⟩
    cases t with
    | rbrace | endOfFile => exact hstop
    | _ => exact .parts (by simp [ht]) agrees_member (by omega) fun _ _ hless => ih (by omega)

theorem agrees_classDecl : Agrees tokens tokens.classDecl Parser.classDecl m c (c.Within 2 28 m) := by
  rw [TokenList.classDecl, Parser.classDecl]
  refine .called (.here (.bind agrees_modifiers fun modifiers m₁ c₁ h₁ => .peek ?_))
  obtain ⟨hd₁, hm₁⟩ := h₁
  have hrefused : ∀ found (decl : ClassDecl), Agrees tokens
      (do tokens.report (.expectedClass found); return decl)
      (do Parser.report (.expectedClass found); return decl) m₁ c₁ (c.Within 2 28 m) := by
    refine fun found decl => .report fun c₂ hs => .pure ?_
    have hsame := hs.left
    have hsdepth := hs.depth
    exact ⟨by omega, by omega⟩
  generalize ht : c₁.token = t
  cases t with
  | keyword word =>
    cases word with
    | «class» =>
      refine .advance (by simp [ht]) fun hleft₂ hdepth₂ => .bind agrees_identifier fun name m₃ c₃ h₃ => ?_
      obtain ⟨rfl, hname, -⟩ := h₃
      refine .expect (by simp) fun c₄ hs₄ => .lookAhead ?_
      refine .bind (agrees_members (Nat.le_refl _)) fun members m₅ c₅ h₅ => ?_
      refine .expect (by simp) fun c₆ hs₆ => .behind (.pure ?_)
      have hheader : c₁.advance.Within 0 48 m₃ m₃ c₄ := hname.within.trans hs₄.within (by omega) (by omega)
      have hbody : c₄.Within 0 30 m₃ m₅ c₆ := h₅.trans hs₆.within (by omega) (by omega)
      obtain ⟨hd, hm⟩ := hheader.trans hbody (r := 30) (by omega) (by omega)
      exact ⟨by omega, by omega⟩
    | _ => exact hrefused _ _
  | _ => exact hrefused _ _

/-- Classes, each of which takes a token or has one skipped. -/
theorem agrees_classes : ∀ {limit m : Nat} {c : Cursor}, c.left ≤ limit →
    Agrees tokens tokens.classes (Parser.classes limit) m c (c.Within 0 28 m) := by
  intro limit
  induction limit with
  | zero => exact fun hlimit => .among fun hc => absurd hc.ends.left_pos (by omega)
  | succ limit ih =>
    intro m c hlimit
    rw [TokenList.classes, Parser.classes]
    refine .peek ?_
    generalize ht : c.token = t
    cases t with
    | endOfFile => exact .pure ⟨Nat.le_refl _, by omega⟩
    | _ => exact .parts (by simp [ht]) agrees_classDecl (by omega) fun _ _ hless => ih (by omega)

theorem agrees_file (hc : c.left ≤ tokens.length) : Agrees tokens tokens.file
    (do return ⟨← Parser.classes tokens.length⟩) m c (c.Within 1 27 m) := by
  rw [TokenList.file]
  refine .called (.bind (agrees_classes hc) fun classes m₁ c₁ h => .pure ?_)
  obtain ⟨hd, hm⟩ := h
  exact ⟨hd, by omega⟩

namespace CompilationUnit

/-- What is wrong with tokens is never nothing. -/
theorem ne_nil_of_ofTokens? {problems : List Diagnostic} (h : ofTokens? tokens = .error problems) : problems ≠ [] := by
  unfold ofTokens? at h
  split at h
  next classes cursor hrun =>
  split at h
  · cases h
  · next hproblems =>
    cases h
    simpa [List.isEmpty_iff] using hproblems

/-- Reading the tokens by index ends, with the result of `ofTokens?`, before one of the tokens and after no more than 48
calls for each of them. This result is a program, or a list of problems that is not empty. -/
def ReadByIndex (tokens : TokenList) : Prop :=
  (∃ c, byIndex? tokens = some (ofTokens? tokens, c) ∧ c.position < tokens.length ∧
    c.calls ≤ 48 * tokens.length) ∧
  ((∃ unit, ofTokens? tokens = .ok unit) ∨ ∃ problems, problems ≠ [] ∧ ofTokens? tokens = .error problems)

theorem readByIndex_of_getLast? (hend : tokens.getLast?.map (·.value) = some .endOfFile) : ReadByIndex tokens := by
  refine ⟨?_, ?_⟩
  · obtain ⟨last, hlast, hvalue⟩ := Option.map_eq_some_iff.mp hend
    obtain ⟨front, heq⟩ := List.getLast?_eq_some_iff.mp hlast
    have hstart : (Cursor.ofTokens tokens).Among tokens := ⟨⟨front, last, heq, hvalue⟩, [], rfl, rfl⟩
    have hindexed : (Cursor.ofTokens tokens).indexed tokens 0 = .start := by
      simp [Cursor.indexed, Cursor.ofTokens, IndexedCursor.start]
    obtain ⟨m, hrun, hamong, hwithin⟩ := agrees_file (m := 0) hstart.left_le hstart
    have hread : (do return (⟨← Parser.classes tokens.length⟩ : CompilationUnit) : Parser _).run (.ofTokens tokens) =
        (⟨((Parser.classes tokens.length).run (.ofTokens tokens)).1⟩,
          ((Parser.classes tokens.length).run (.ofTokens tokens)).2) := rfl
    rw [hread] at hrun hamong hwithin
    generalize hend : ((Parser.classes tokens.length).run (.ofTokens tokens)).2 = c at hrun hamong hwithin
    refine ⟨c.indexed tokens m, ?_, ?_, ?_⟩
    · rw [byIndex?, ← hindexed, hrun, ofTokens?, ← hend]
      rfl
    · have hpos := hamong.ends.left_pos
      have hle := hamong.left_le
      exact Nat.sub_lt hamong.length_pos hpos
    · have hcalls : m ≤ 48 * tokens.length := by
        have hpos := hstart.length_pos
        have hleft : (Cursor.ofTokens tokens).left = tokens.length := rfl
        have hcost := hwithin.calls
        rw [hleft] at hcost
        omega
      exact hcalls
  · cases h : ofTokens? tokens with
    | ok unit => exact .inl ⟨unit, rfl⟩
    | error problems => exact .inr ⟨problems, ne_nil_of_ofTokens? h, rfl⟩

/-- The last token of a text is the end of the file, whatever is wrong with the text. -/
theorem getLast?_ofPieces (pieces : List Piece) (place : Place) :
    (Lexed.ofPieces place pieces).tokens.getLast?.map (·.value) = some .endOfFile := by
  induction pieces generalizing place with
  | nil => rfl
  | cons piece pieces ih =>
    obtain ⟨last, hlast, hvalue⟩ := Option.map_eq_some_iff.mp (ih (place.after piece))
    simp only [Lexed.ofPieces, List.getLast?_append, hlast, Option.some_or, Option.map_some, hvalue]

/-- Tokens of which the last one is the end of the file are read by index without a bound, and so are those of every
text. -/
theorem readByIndex_total :
    (∀ tokens : List (Spanned Token), tokens.getLast?.map (·.value) = some .endOfFile → ReadByIndex tokens) ∧
      ∀ source, ReadByIndex (Lexed.ofSource source).tokens :=
  ⟨fun _ => readByIndex_of_getLast?, fun _ => readByIndex_of_getLast? (getLast?_ofPieces _ _)⟩

/-- A parenthesis where a member should be is skipped, and the class is refused. -/
theorem readByIndex_total_refused :
    let tokens : List (Spanned Token) := [⟨.keyword .«class», ⟨0, 5⟩⟩, ⟨.identifier "A", ⟨6, 7⟩⟩, ⟨.lbrace, ⟨8, 9⟩⟩,
      ⟨.rparen, ⟨9, 10⟩⟩, ⟨.rbrace, ⟨10, 11⟩⟩, ⟨.endOfFile, ⟨11, 11⟩⟩]
    tokens.getLast?.map (·.value) = some .endOfFile ∧ ReadByIndex tokens ∧
      (CompilationUnit.ofTokens? tokens).isOk = false := by
  intro tokens
  have hend : tokens.getLast?.map (·.value) = some .endOfFile := rfl
  exact ⟨hend, readByIndex_total.1 tokens hend, by decide +kernel⟩

end CompilationUnit

end JavaFold
