import JavaFold.Proofs.Token.Cursor
import JavaFold.Token.Indexed

/-!
# An index and the tokens ahead

A cursor with the tokens ahead is the same place as an index into all tokens (`Cursor.indexed`), if what is ahead is
the end of these tokens and the last of them is the end of the file (`Cursor.Among`). `Agrees` states that reading by
index has a result, the same one as reading from the cursor, and that the two places are the same again; what it says
besides is about the number of calls and the cursor afterwards. `Agrees.bind` puts two readings together.
-/

namespace JavaFold

namespace Cursor

/-- The place of a cursor as an index. -/
def indexed (tokens : TokenList) (calls : Nat) (c : Cursor) : IndexedCursor :=
  ⟨tokens.length - c.left, c.depth, c.problems, calls⟩

/-- A cursor that stands before one of these tokens, and has passed those before it. -/
structure Among (tokens : TokenList) (c : Cursor) : Prop where
  ends : c.Ends
  split : ∃ passed, tokens = passed ++ c.ahead ∧ c.passed = passed.getLast?.map (·.span)

/-- The same tokens are ahead, at the same depth. -/
structure Same (c c' : Cursor) : Prop where
  ahead : c'.ahead = c.ahead
  depth : c'.depth = c.depth

variable {tokens : TokenList} {c c' : Cursor}

theorem Same.refl (c : Cursor) : c.Same c := ⟨rfl, rfl⟩

theorem Same.left (h : c.Same c') : c'.left = c.left := by rw [c'.left_eq, c.left_eq, h.ahead]

theorem Same.token (h : c.Same c') : c'.token = c.token := by rw [Cursor.token, Cursor.token, h.ahead]

theorem same_note (c : Cursor) (p : Problem) (s : Span) : c.Same (c.note p s) := ⟨rfl, rfl⟩

theorem Ends.ahead_eq (h : c.Ends) : ∃ rest, c.ahead = ⟨c.token, c.here⟩ :: rest := by
  obtain ⟨front, u, hahead, -⟩ := h
  cases front <;> simp [hahead, token, here]

theorem Ends.left_pos (h : c.Ends) : 0 < c.left := by
  obtain ⟨rest, hahead⟩ := h.ahead_eq
  simp [c.left_eq, hahead]

theorem Ends.left_advance (h : c.Ends) (ht : c.token ≠ .endOfFile) : c.advance.left + 1 = c.left := by
  rw [c.advance.left_eq, c.left_eq, (h.ahead rfl ht).1, List.length_cons]

namespace Among

theorem left_le (h : c.Among tokens) : c.left ≤ tokens.length := by
  obtain ⟨passed, heq, -⟩ := h.split
  rw [heq, List.length_append, c.left_eq]
  omega

/-- The tokens ahead are those from the index on. -/
theorem drop_eq (h : c.Among tokens) : tokens.drop (tokens.length - c.left) = c.ahead := by
  obtain ⟨passed, heq, -⟩ := h.split
  rw [heq, List.length_append, c.left_eq, Nat.add_sub_cancel_right, List.drop_left]

theorem getElem?_add (h : c.Among tokens) (offset : Nat) :
    tokens[tokens.length - c.left + offset]? = c.ahead[offset]? := by
  rw [← h.drop_eq, List.getElem?_drop]

theorem current (h : c.Among tokens) : tokens[tokens.length - c.left]? = some ⟨c.token, c.here⟩ := by
  obtain ⟨rest, hahead⟩ := h.ends.ahead_eq
  have hget := h.getElem?_add 0
  rwa [hahead, Nat.add_zero] at hget

theorem length_pos (h : c.Among tokens) : 0 < tokens.length := Nat.lt_of_lt_of_le h.ends.left_pos h.left_le

theorem advance (h : c.Among tokens) (ht : c.token ≠ .endOfFile) : c.advance.Among tokens := by
  obtain ⟨passed, heq, -⟩ := h.split
  obtain ⟨hahead, hpassed, -, hends⟩ := h.ends.ahead rfl ht
  refine ⟨hends, passed ++ [⟨c.token, c.here⟩], ?_, ?_⟩
  · rw [List.append_assoc, List.singleton_append, ← hahead, heq]
  · simp [hpassed]

theorem same (h : c.Among tokens) (hs : c.Same c') (hpassed : c'.passed = c.passed) : c'.Among tokens := by
  obtain ⟨passed, heq, hp⟩ := h.split
  refine ⟨?_, passed, by rw [hs.ahead, heq], by rw [hpassed, hp]⟩
  rw [Cursor.Ends, hs.ahead]
  exact h.ends

/-- The token some places ahead, which is the end of the file if there are not so many. -/
theorem getElem?_min (h : c.Among tokens) (offset : Nat) :
    ∃ t, tokens[min (tokens.length - c.left + offset) (tokens.length - 1)]? = some t ∧
      t.value = ((c.ahead.drop offset).head?.map (·.value)).getD .endOfFile := by
  have hle := h.left_le
  have hpos := h.ends.left_pos
  by_cases hoffset : offset < c.left
  · have hin : offset < c.ahead.length := by rwa [← c.left_eq]
    refine ⟨c.ahead[offset], ?_, ?_⟩
    · rw [Nat.min_eq_left (by omega), h.getElem?_add, List.getElem?_eq_getElem hin]
    · rw [List.head?_drop, List.getElem?_eq_getElem hin]
      rfl
  · obtain ⟨front, u, hahead, hu⟩ := h.ends
    have hlast : c.ahead[c.left - 1]? = some u := by
      rw [c.left_eq, hahead]
      simp
    refine ⟨u, ?_, ?_⟩
    · rw [Nat.min_eq_right (by omega), show tokens.length - 1 = tokens.length - c.left + (c.left - 1) by omega,
        h.getElem?_add, hlast]
    · rw [List.drop_eq_nil_of_le (by rw [← c.left_eq]; omega), hu]
      rfl

/-- Two places among the same tokens with as many tokens ahead are the same. -/
theorem ahead_eq_of_left (h : c.Among tokens) (h' : c'.Among tokens) (hleft : c'.left = c.left) :
    c'.ahead = c.ahead := by
  rw [← h.drop_eq, ← h'.drop_eq, hleft]

/-- The span of the token just passed, found by its index. -/
theorem behind_eq (h : c.Among tokens) (hpos : 0 < tokens.length - c.left) :
    ∃ t, tokens[tokens.length - c.left - 1]? = some t ∧ t.span = c.behind := by
  obtain ⟨passed, heq, hp⟩ := h.split
  have hlength : tokens.length - c.left = passed.length := by
    rw [heq, List.length_append, c.left_eq, Nat.add_sub_cancel_right]
  rw [hlength] at hpos ⊢
  obtain ⟨t, ht⟩ := List.getLast?_isSome.mpr (List.length_pos_iff.mp hpos) |> Option.isSome_iff_exists.mp
  refine ⟨t, ?_, ?_⟩
  · rw [heq, List.getElem?_append_left (Nat.sub_lt hpos Nat.one_pos), ← List.getLast?_eq_getElem?, ht]
  · rw [behind, hp, ht]
    rfl

theorem passed_eq_none (h : c.Among tokens) (hpos : ¬0 < tokens.length - c.left) : c.passed = none := by
  obtain ⟨passed, heq, hp⟩ := h.split
  have hlength : tokens.length - c.left = passed.length := by
    rw [heq, List.length_append, c.left_eq, Nat.add_sub_cancel_right]
  rw [hlength, Nat.not_lt, Nat.le_zero, List.length_eq_zero_iff] at hpos
  rw [hp, hpos]
  rfl

end Among

end Cursor

/-! ## Two readings that agree -/

/-- Reading by index has a result and is the same as reading from the cursor, and `Q` is true of the number of calls and
the cursor afterwards. -/
def Agrees {α : Type} (tokens : TokenList) (x : IndexedParser α) (y : Parser α) (m : Nat) (c : Cursor)
    (Q : Nat → Cursor → Prop) : Prop :=
  c.Among tokens → ∃ m', x.run (c.indexed tokens m) = some ((y.run c).1, (y.run c).2.indexed tokens m') ∧
    (y.run c).2.Among tokens ∧ Q m' (y.run c).2

namespace Agrees

variable {α β : Type} {tokens : TokenList} {x : IndexedParser α} {y : Parser α} {m : Nat} {c : Cursor}
  {P Q R : Nat → Cursor → Prop}

theorem pure {a : α} (h : Q m c) : Agrees tokens (Pure.pure a) (Pure.pure a) m c Q := fun hc => ⟨m, rfl, hc, h⟩

theorem bind {f : α → IndexedParser β} {g : α → Parser β} (hx : Agrees tokens x y m c P)
    (hf : ∀ a m' c', P m' c' → Agrees tokens (f a) (g a) m' c' Q) : Agrees tokens (x >>= f) (y >>= g) m c Q := by
  intro hc
  obtain ⟨m', hrun, hc', hp⟩ := hx hc
  obtain ⟨m'', hrun', hc'', hq⟩ := hf _ m' _ hp hc'
  refine ⟨m'', ?_, hc'', hq⟩
  rw [StateT.run_bind, hrun]
  exact hrun'

theorem imp (hx : Agrees tokens x y m c P) (h : ∀ m' c', P m' c' → Q m' c') : Agrees tokens x y m c Q := by
  intro hc
  obtain ⟨m', hrun, hc', hp⟩ := hx hc
  exact ⟨m', hrun, hc', h _ _ hp⟩

/-- What is known of the place may be used. -/
theorem among (h : c.Among tokens → Agrees tokens x y m c Q) : Agrees tokens x y m c Q := fun hc => h hc hc

theorem called (h : Agrees tokens x y (m + 1) c Q) :
    Agrees tokens (IndexedParser.called >>= fun _ => x) y m c Q := fun hc => h hc

/-- Two readings go to the same place without a call, and reading goes on there. -/
theorem move {γ : Type} {f : α → IndexedParser β} {y : Parser γ} {g : γ → Parser β} {a : α} {d : γ} {e : Cursor}
    (hx : c.Among tokens → x.run (c.indexed tokens m) = some (a, e.indexed tokens m)) (hy : y.run c = (d, e))
    (he : c.Among tokens → e.Among tokens) (h : Agrees tokens (f a) (g d) m e Q) :
    Agrees tokens (x >>= f) (y >>= g) m c Q := by
  intro hc
  obtain ⟨m', hrun, hend, hq⟩ := h (he hc)
  have hrest : (y >>= g).run c = (g d).run e := by
    rw [StateT.run_bind, hy]
    rfl
  rw [hrest]
  refine ⟨m', ?_, hend, hq⟩
  rw [StateT.run_bind, hx hc]
  exact hrun

/-- Only reading by index looks at something. -/
theorem look {f : α → IndexedParser β} {y : Parser β} {a : α}
    (hx : c.Among tokens → x.run (c.indexed tokens m) = some (a, c.indexed tokens m))
    (h : Agrees tokens (f a) y m c Q) : Agrees tokens (x >>= f) y m c Q := by
  rw [← pure_bind () fun _ => y]
  exact move hx rfl (fun hc => hc) h

/-- Only reading from the cursor looks at something. -/
theorem lookAhead {f : Cursor → Parser β} {x : IndexedParser β} (h : Agrees tokens x (f c) m c Q) :
    Agrees tokens x (get >>= f) m c Q := by
  rw [← pure_bind () fun _ => x]
  exact move (fun _ => rfl) rfl (fun hc => hc) h

/-! ### Looking at the tokens -/

theorem run_tokenAt {i : Nat} {t : Spanned Token} (h : tokens[i]? = some t) :
    (tokens.tokenAt i).run (c.indexed tokens m) = some (t, c.indexed tokens m) := by
  rw [TokenList.tokenAt, h]
  rfl

theorem run_difference {a b : Nat} (h : b ≤ a) (s : IndexedCursor) :
    (IndexedParser.difference a b).run s = some (a - b, s) := by
  rw [IndexedParser.difference, if_pos h]
  rfl

theorem run_lastIndex (hc : c.Among tokens) :
    tokens.lastIndex.run (c.indexed tokens m) = some (tokens.length - 1, c.indexed tokens m) :=
  run_difference hc.length_pos _

theorem run_current (hc : c.Among tokens) :
    tokens.current.run (c.indexed tokens m) = some (⟨c.token, c.here⟩, c.indexed tokens m) :=
  run_tokenAt hc.current

theorem run_peek (hc : c.Among tokens) :
    tokens.peek.run (c.indexed tokens m) = some (c.token, c.indexed tokens m) := by
  rw [TokenList.peek, StateT.run_bind, run_current hc]
  rfl

theorem run_here (hc : c.Among tokens) :
    tokens.here.run (c.indexed tokens m) = some (c.here, c.indexed tokens m) := by
  rw [TokenList.here, StateT.run_bind, run_current hc]
  rfl

/-- The token some places ahead, or the end of the file. -/
def tokenFrom (ahead : List (Spanned Token)) : Token := (ahead.head?.map (·.value)).getD .endOfFile

theorem run_peekAt (hc : c.Among tokens) (offset : Nat) : (tokens.peekAt offset).run (c.indexed tokens m) =
    some (tokenFrom (c.ahead.drop offset), c.indexed tokens m) := by
  obtain ⟨t, ht, hvalue⟩ := hc.getElem?_min offset
  have hstart : (tokens.peekAt offset).run (c.indexed tokens m) =
      (tokens.lastIndex.run (c.indexed tokens m)).bind fun r =>
        ((tokens.tokenAt (min (tokens.length - c.left + offset) r.1)).run r.2).bind fun r =>
          some (r.1.value, r.2) := rfl
  rw [hstart, run_lastIndex hc, Option.bind_some, run_tokenAt ht, Option.bind_some, hvalue]
  rfl

theorem run_behind (hc : c.Among tokens) :
    tokens.behind.run (c.indexed tokens m) = some (c.behind, c.indexed tokens m) := by
  have hstart : tokens.behind.run (c.indexed tokens m) = (if 0 < tokens.length - c.left then do
      let index ← IndexedParser.difference (tokens.length - c.left) 1
      return (← tokens.tokenAt index).span
    else tokens.here : IndexedParser Span).run (c.indexed tokens m) := rfl
  rw [hstart]
  split
  · next hpos =>
    obtain ⟨t, ht, hspan⟩ := hc.behind_eq hpos
    rw [StateT.run_bind, run_difference hpos, Option.bind_eq_bind, Option.bind_some, StateT.run_bind,
      run_tokenAt ht, ← hspan]
    rfl
  · next hpos =>
    rw [run_here hc, Cursor.behind, hc.passed_eq_none hpos]
    rfl

theorem peek {f : Token → IndexedParser β} {g : Token → Parser β} (h : Agrees tokens (f c.token) (g c.token) m c Q) :
    Agrees tokens (tokens.peek >>= f) (Parser.peek >>= g) m c Q :=
  move run_peek rfl (fun hc => hc) h

theorem here {f : Span → IndexedParser β} {g : Span → Parser β} (h : Agrees tokens (f c.here) (g c.here) m c Q) :
    Agrees tokens (tokens.here >>= f) (Parser.here >>= g) m c Q :=
  move run_here rfl (fun hc => hc) h

theorem behind {f : Span → IndexedParser β} {g : Span → Parser β}
    (h : Agrees tokens (f c.behind) (g c.behind) m c Q) :
    Agrees tokens (tokens.behind >>= f) (Parser.behind >>= g) m c Q :=
  move run_behind rfl (fun hc => hc) h

/-! ### Moving and noting problems -/

theorem run_advance (hc : c.Among tokens) (ht : c.token ≠ .endOfFile) :
    tokens.advance.run (c.indexed tokens m) = some ((), c.advance.indexed tokens m) := by
  have hleft := hc.ends.left_advance ht
  have hle := hc.left_le
  have hpos := (hc.advance ht).ends.left_pos
  have hstart : tokens.advance.run (c.indexed tokens m) =
      (tokens.current.run (c.indexed tokens m)).bind fun r => (tokens.lastIndex.run r.2).bind fun r =>
        (if r.2.position < r.1 then modify fun c => { c with position := c.position + 1 } else Pure.pure () :
          IndexedParser Unit).run r.2 := rfl
  have hin : (c.indexed tokens m).position < tokens.length - 1 := by
    dsimp only [Cursor.indexed]
    omega
  have hdepth : c.advance.depth = c.depth := (hc.ends.ahead rfl ht).2.2.1
  have hproblems : c.advance.problems = c.problems := by
    unfold Cursor.advance
    split <;> rfl
  have hposition : tokens.length - c.advance.left = tokens.length - c.left + 1 := by omega
  have hnext : c.advance.indexed tokens m =
      { c.indexed tokens m with position := (c.indexed tokens m).position + 1 } := by
    simp only [Cursor.indexed, hdepth, hproblems, hposition]
  rw [hstart, run_current hc, Option.bind_some, run_lastIndex hc, Option.bind_some, hnext]
  dsimp only
  rw [if_pos hin]
  rfl

/-- One token is passed. -/
theorem advance {f : Unit → IndexedParser β} {g : Unit → Parser β} (ht : c.token ≠ .endOfFile)
    (h : c.advance.left + 1 = c.left → c.advance.depth = c.depth → Agrees tokens (f ()) (g ()) m c.advance Q) :
    Agrees tokens (tokens.advance >>= f) (Parser.advance >>= g) m c Q := by
  exact .among fun hc => move (run_advance · ht) rfl (·.advance ht)
    (h (hc.ends.left_advance ht) (hc.ends.ahead rfl ht).2.2.1)

theorem run_report (p : Problem) (hc : c.Among tokens) : (tokens.report p).run (c.indexed tokens m) =
    some ((), (c.note p c.here).indexed tokens m) := by
  rw [TokenList.report, StateT.run_bind, run_here hc]
  rfl

/-- A problem is noted. -/
theorem note {f : Unit → IndexedParser β} {g : Unit → Parser β} {x : IndexedParser Unit} {y : Parser Unit}
    {p : Problem} {s : Span}
    (hx : c.Among tokens → x.run (c.indexed tokens m) = some ((), (c.note p s).indexed tokens m))
    (hy : y.run c = ((), c.note p s)) (h : ∀ c', c.Same c' → Agrees tokens (f ()) (g ()) m c' Q) :
    Agrees tokens (x >>= f) (y >>= g) m c Q := by
  exact move hx hy (·.same (c.same_note p s) rfl) (h _ (c.same_note p s))

theorem report {f : Unit → IndexedParser β} {g : Unit → Parser β} {p : Problem}
    (h : ∀ c', c.Same c' → Agrees tokens (f ()) (g ()) m c' Q) :
    Agrees tokens (tokens.report p >>= f) (Parser.report p >>= g) m c Q := note (run_report p) rfl h

theorem reportAt {f : Unit → IndexedParser β} {g : Unit → Parser β} {p : Problem} {s : Span}
    (h : ∀ c', c.Same c' → Agrees tokens (f ()) (g ()) m c' Q) :
    Agrees tokens (IndexedParser.reportAt p s >>= f) (Parser.reportAt p s >>= g) m c Q := note (fun _ => rfl) rfl h

/-- A problem is noted unless a condition holds, and reading goes on in any case. -/
theorem noteUnless {b : Prop} [Decidable b] {f : Unit → IndexedParser β} {g : Unit → Parser β} {x : IndexedParser Unit}
    {y : Parser Unit} {p : Problem} {s : Span}
    (hx : c.Among tokens → x.run (c.indexed tokens m) = some ((), (c.note p s).indexed tokens m))
    (hy : y.run c = ((), c.note p s)) (h : ∀ c', c.Same c' → Agrees tokens (f ()) (g ()) m c' Q) :
    Agrees tokens (if b then f () else x >>= f) (if b then g () else y >>= g) m c Q := by
  split
  · exact h c (.refl c)
  · exact note hx hy h

/-- A problem is noted if a condition holds, and reading goes on in any case. -/
theorem noteIf {b : Prop} [Decidable b] {f : Unit → IndexedParser β} {g : Unit → Parser β} {x : IndexedParser Unit}
    {y : Parser Unit} {p : Problem} {s : Span}
    (hx : c.Among tokens → x.run (c.indexed tokens m) = some ((), (c.note p s).indexed tokens m))
    (hy : y.run c = ((), c.note p s)) (h : ∀ c', c.Same c' → Agrees tokens (f ()) (g ()) m c' Q) :
    Agrees tokens (if b then x >>= f else f ()) (if b then y >>= g else g ()) m c Q := by
  split
  · exact note hx hy h
  · exact h c (.refl c)

end Agrees

/-! ## Reading a token -/

namespace Cursor

/-- At most one token has been passed, at the same depth. -/
structure Steps (c c' : Cursor) : Prop where
  left : c'.left = c.left ∨ c'.left + 1 = c.left
  depth : c'.depth = c.depth

end Cursor

section

variable {α β : Type} {tokens : TokenList} {m : Nat} {c : Cursor} {t : Token} {Q : Nat → Cursor → Prop}

/-- The next token is passed if it is `t`. -/
theorem Agrees.eat {f : Bool → IndexedParser β} {g : Bool → Parser β} (ht : t ≠ .endOfFile)
    (hyes : ∀ c', c.token = t → c'.left + 1 = c.left → c'.depth = c.depth → Agrees tokens (f true) (g true) m c' Q)
    (hno : c.token ≠ t → Agrees tokens (f false) (g false) m c Q) :
    Agrees tokens (tokens.eat t >>= f) (Parser.eat t >>= g) m c Q := by
  rw [TokenList.eat, Parser.eat, bind_assoc, bind_assoc]
  refine .peek ?_
  by_cases h : c.token = t
  · rw [if_pos h, if_pos h, bind_assoc, bind_assoc]
    refine .advance (h ▸ ht) fun hleft hdepth => ?_
    rw [pure_bind, pure_bind]
    exact hyes _ h hleft hdepth
  · rw [if_neg h, if_neg h, pure_bind, pure_bind]
    exact hno h

theorem agrees_expect (ht : t ≠ .endOfFile) : Agrees tokens (tokens.expect t) (Parser.expect t) m c
    fun m' c' => m' = m ∧ c.Steps c' := by
  unfold TokenList.expect Parser.expect
  refine .eat ht (fun c' _ hleft hdepth => .pure ⟨rfl, .inr hleft, hdepth⟩) fun _ => .peek ?_
  rw [← bind_pure (tokens.report _), ← bind_pure (Parser.report _)]
  exact .report fun c' hs => .pure ⟨rfl, .inl hs.left, hs.depth⟩

theorem run_eat (hc : c.Among tokens) (h : c.token = t) (ht : t ≠ .endOfFile) :
    (tokens.eat t).run (c.indexed tokens m) = some (true, c.advance.indexed tokens m) := by
  rw [TokenList.eat, StateT.run_bind, Agrees.run_peek hc]
  simp only [Option.bind_eq_bind, Option.bind_some]
  rw [if_pos h, StateT.run_bind, Agrees.run_advance hc (h ▸ ht)]
  rfl

theorem run_expect (hc : c.Among tokens) (h : c.token = t) (ht : t ≠ .endOfFile) :
    (tokens.expect t).run (c.indexed tokens m) = some ((), c.advance.indexed tokens m) := by
  rw [TokenList.expect, StateT.run_bind, run_eat hc h ht]
  rfl

/-- The next token has to be `t`. -/
theorem Agrees.expect {f : Unit → IndexedParser β} {g : Unit → Parser β} (ht : t ≠ .endOfFile)
    (h : ∀ c', c.Steps c' → Agrees tokens (f ()) (g ()) m c' Q) :
    Agrees tokens (tokens.expect t >>= f) (Parser.expect t >>= g) m c Q :=
  .bind (agrees_expect ht) fun _ _ c' hp => hp.1 ▸ h c' hp.2

theorem agrees_identifier : Agrees tokens tokens.identifier Parser.identifier m c
    fun m' c' => m' = m ∧ c.Steps c' ∧ ((∃ name, c.token = .identifier name) → c'.left + 1 = c.left) := by
  unfold TokenList.identifier Parser.identifier
  refine .peek ?_
  generalize ht : c.token = t
  cases t with
  | identifier name =>
    refine .here (.advance (by simp [ht]) fun hleft hdepth => .pure ⟨rfl, ⟨.inr hleft, hdepth⟩, fun _ => hleft⟩)
  | _ =>
    refine .report fun c' hs => .here (.pure ⟨rfl, ⟨.inl hs.left, hs.depth⟩, ?_⟩)
    rintro ⟨name, hname⟩
    cases hname

theorem run_identifier {name : String} (hc : c.Among tokens) (ht : c.token = .identifier name) :
    tokens.identifier.run (c.indexed tokens m) = some (⟨name, c.here⟩, c.advance.indexed tokens m) := by
  rw [TokenList.identifier, StateT.run_bind, Agrees.run_peek hc, Option.bind_eq_bind, Option.bind_some, ht]
  dsimp only
  rw [StateT.run_bind, Agrees.run_here hc, Option.bind_eq_bind, Option.bind_some, StateT.run_bind,
    Agrees.run_advance hc (by simp [ht])]
  rfl

/-- Each further part of a name takes a dot and a name, so the tokens ahead bound their number. -/
theorem agrees_nameParts : ∀ {limit : Nat} {name : Spanned String} {c : Cursor}, c.left ≤ limit →
    Agrees tokens (tokens.nameParts name) (Parser.nameParts limit name) m c
      fun m' c' => m' = m ∧ c'.left ≤ c.left ∧ c'.depth = c.depth := by
  intro limit
  induction limit with
  | zero => exact fun hlimit => .among fun hc => absurd hc.ends.left_pos (by omega)
  | succ limit ih =>
    intro name c hlimit
    rw [TokenList.nameParts, Parser.nameParts]
    refine .among fun hc => .look Agrees.run_peek (.look (Agrees.run_peekAt · 1) (.lookAhead ?_))
    have hstop : Agrees tokens (pure name : IndexedParser _) (pure name : Parser _) m c
        fun m' c' => m' = m ∧ c'.left ≤ c.left ∧ c'.depth = c.depth := .pure ⟨rfl, Nat.le_refl _, rfl⟩
    obtain ⟨rest, hahead⟩ := hc.ends.ahead_eq
    rw [hahead, List.drop_one, List.tail_cons]
    generalize ht : c.token = t at hahead
    match rest with
    | [] => cases t <;> exact hstop
    | ⟨u, span⟩ :: rest =>
      cases t with
      | dot =>
        cases u with
        | identifier part =>
          have hne : c.token ≠ .endOfFile := by simp [ht]
          have hnext : c.advance.ahead = ⟨.identifier part, span⟩ :: rest := by
            have hpassed := (hc.ends.ahead ht (by simp)).1
            rw [hahead] at hpassed
            exact (List.cons.inj hpassed).2.symm
          have htoken : c.advance.token = .identifier part := by rw [Cursor.token, hnext]
          have hhere : c.advance.here = span := by rw [Cursor.here, hnext]
          have hne' : c.advance.token ≠ .endOfFile := by simp [htoken]
          refine .advance hne fun hleft hdepth => .move (run_identifier · htoken) rfl (·.advance hne') ?_
          have hc' := (hc.advance hne).ends
          have hleft' := hc'.left_advance hne'
          rw [hhere]
          refine (ih (by omega)).imp fun m' c' h => ⟨h.1, by omega, ?_⟩
          rw [h.2.2, (hc'.ahead rfl hne').2.2.1, hdepth]
        | _ => exact hstop
      | _ => exact hstop

theorem agrees_dottedName : Agrees tokens tokens.dottedName Parser.dottedName m c
    fun m' c' => m' = m + 1 ∧ c'.left ≤ c.left ∧ c'.depth = c.depth ∧
      ((∃ name, c.token = .identifier name) → c'.left < c.left) := by
  unfold TokenList.dottedName Parser.dottedName
  refine .called (.bind agrees_identifier fun first m' c' h => .lookAhead ?_)
  obtain ⟨rfl, ⟨hleft, hdepth⟩, hname⟩ := h
  refine (agrees_nameParts (Nat.le_refl _)).imp fun m'' c'' h => ⟨h.1, by omega, h.2.2.trans hdepth, fun hn => ?_⟩
  have := hname hn
  omega

/-! ## Nesting -/

theorem skipToEnd_of_endOfFile (hc : c.Ends) (ht : c.token = .endOfFile) : c.skipToEnd = c := by
  obtain ⟨rest, hahead⟩ := hc.ahead_eq
  rw [ht] at hahead
  generalize c.here = span at hahead
  obtain ⟨ahead, left, hleft, passed, depth, problems⟩ := c
  dsimp only at hahead hleft
  subst hahead hleft
  simp [Cursor.skipToEnd]

theorem skipToEnd_advance (hc : c.Ends) (ht : c.token ≠ .endOfFile) : c.skipToEnd = c.advance.skipToEnd := by
  obtain ⟨hahead, hpassed, hdepth, -⟩ := hc.ahead rfl ht
  have hproblems : c.advance.problems = c.problems := by
    unfold Cursor.advance
    split <;> rfl
  have hvalue : (c.token != .endOfFile) = true := by simpa using ht
  simp only [Cursor.skipToEnd, hahead, hpassed, hdepth, hproblems, List.dropWhile_cons, List.takeWhile_cons, hvalue,
    if_true, List.getLast?_cons]
  cases (List.takeWhile (fun t => t.value != Token.endOfFile) c.advance.ahead).getLast? <;> rfl

/-- What is done at the end of the file: the rest of the text is skipped, if the nesting gets too deep. -/
theorem run_skipToEnd (hc : c.Among tokens) :
    tokens.skipToEnd.run (c.indexed tokens m) = some ((), c.skipToEnd.indexed tokens m) ∧
      c.skipToEnd.Among tokens ∧ c.skipToEnd.left ≤ c.left ∧ c.skipToEnd.depth = c.depth := by
  induction hn : c.left using Nat.strongRecOn generalizing c with
  | _ n ih =>
    rw [TokenList.skipToEnd, StateT.run_bind, Agrees.run_peek hc, Option.bind_eq_bind, Option.bind_some]
    dsimp only
    by_cases ht : c.token = .endOfFile
    · rw [ht, skipToEnd_of_endOfFile hc.ends ht]
      exact ⟨rfl, hc, Nat.le_of_eq hn, rfl⟩
    · have hleft := hc.ends.left_advance ht
      obtain ⟨hrun, hamong, hle, hdepth⟩ := ih c.advance.left (by omega) (hc.advance ht) rfl
      rw [skipToEnd_advance hc.ends ht]
      refine ⟨?_, hamong, by omega, hdepth.trans (hc.ends.ahead rfl ht).2.2.1⟩
      split
      · next heq => exact absurd heq ht
      · rw [StateT.run_bind, Agrees.run_advance hc ht]
        exact hrun

/-- One more level of nesting is counted, and the rest of the text is skipped if that is too deep. -/
theorem Agrees.enterNesting {f : Bool → IndexedParser β} {g : Bool → Parser β}
    (hin : ∀ c', c'.left = c.left → c'.depth = c.depth + 1 → Agrees tokens (f true) (g true) m c' Q)
    (hout : ∀ c', c'.left ≤ c.left → c'.depth = c.depth + 1 → Agrees tokens (f false) (g false) m c' Q) :
    Agrees tokens (tokens.enterNesting >>= f) (Parser.enterNesting >>= g) m c Q := by
  rw [TokenList.enterNesting, Parser.enterNesting]
  simp only [bind_assoc]
  let deeper : Cursor := { c with depth := c.depth + 1 }
  refine .move (e := deeper) (fun _ => rfl) rfl (fun hc => ⟨hc.ends, hc.split⟩) ?_
  refine .move (a := deeper.indexed tokens m) (d := deeper) (fun _ => rfl) rfl (fun hc => hc) ?_
  by_cases h : c.depth + 1 ≤ Problem.nestingLimit
  · have hindexed : (deeper.indexed tokens m).depth ≤ Problem.nestingLimit := h
    have hcursor : deeper.depth ≤ Problem.nestingLimit := h
    rw [if_pos hindexed, if_pos hcursor, pure_bind, pure_bind]
    exact hin deeper rfl rfl
  · have hindexed : ¬(deeper.indexed tokens m).depth ≤ Problem.nestingLimit := h
    have hcursor : ¬deeper.depth ≤ Problem.nestingLimit := h
    rw [if_neg hindexed, if_neg hcursor]
    simp only [bind_assoc, pure_bind]
    refine .report fun c' hs => .among fun hc => ?_
    obtain ⟨-, -, hle, hdepth⟩ := run_skipToEnd (m := m) hc
    refine .move (fun hc => (run_skipToEnd hc).1) rfl (fun hc => (run_skipToEnd (m := m) hc).2.1) ?_
    exact hout _ (Nat.le_trans hle (Nat.le_of_eq hs.left)) (hdepth.trans hs.depth)

/-- A level of nesting is left, which has been entered. -/
theorem Agrees.leaveNesting {f : Unit → IndexedParser β} {g : Unit → Parser β} (hpos : 0 < c.depth)
    (h : ∀ c', c'.left = c.left → c'.depth + 1 = c.depth → Agrees tokens (f ()) (g ()) m c' Q) :
    Agrees tokens (IndexedParser.leaveNesting >>= f) (Parser.leaveNesting >>= g) m c Q := by
  let higher : Cursor := { c with depth := c.depth - 1 }
  refine .move (e := higher) (fun _ => ?_) rfl (fun hc => ⟨hc.ends, hc.split⟩) (h higher rfl (Nat.sub_add_cancel hpos))
  have hstart : IndexedParser.leaveNesting.run (c.indexed tokens m) =
      ((IndexedParser.difference c.depth 1).run (c.indexed tokens m)).bind fun r =>
        some ((), { r.2 with depth := r.1 }) := rfl
  rw [hstart, Agrees.run_difference hpos]
  rfl

/-! ## Loops that skip a token where nothing is taken -/

/-- A part is read from before a token, and where it has taken none, this token is skipped. -/
theorem Agrees.progress {x : IndexedParser α} {y : Parser α} {f : α → IndexedParser β} {g : α → Parser β}
    {P : Nat → Cursor → Prop} (ht : c.token ≠ .endOfFile) (hx : Agrees tokens x y m c P)
    (hleft : ∀ m' c', P m' c' → c'.left ≤ c.left)
    (hf : ∀ a m' c' c'', P m' c' → c''.depth = c'.depth →
      c'.left = c.left ∧ c''.left + 1 = c.left ∨ c'.left < c.left ∧ c''.left = c'.left →
      Agrees tokens (f a) (g a) m' c'' Q) :
    Agrees tokens
      (do
        let before := (← get).position
        let a ← x
        if (← get).position = before then
          tokens.advance
        f a)
      (do
        let before := (← get).left
        let a ← y
        if (← get).left = before then
          Parser.advance
        g a) m c Q := by
  refine .among fun hc => .move (a := c.indexed tokens m) (d := c) (fun _ => rfl) rfl (fun hc => hc) ?_
  refine .bind hx fun a m' c' hp => .among fun hc' => ?_
  refine .move (a := c'.indexed tokens m') (d := c') (fun _ => rfl) rfl (fun hc => hc) ?_
  have hle := hleft m' c' hp
  have hlength := hc.left_le
  by_cases hsame : c'.left = c.left
  · have hposition : (c'.indexed tokens m').position = (c.indexed tokens m).position := by
      simp only [Cursor.indexed, hsame]
    have htoken : c'.token = c.token := by rw [Cursor.token, Cursor.token, hc.ahead_eq_of_left hc' hsame]
    rw [if_pos hposition, if_pos hsame]
    refine .advance (htoken ▸ ht) fun hadvance hdepth => hf a m' c' _ hp hdepth (.inl ⟨hsame, ?_⟩)
    omega
  · have hposition : (c'.indexed tokens m').position ≠ (c.indexed tokens m).position := by
      simp only [Cursor.indexed]
      omega
    rw [if_neg hposition, if_neg hsame]
    exact hf a m' c' c' hp rfl (.inr ⟨by omega, rfl⟩)

end

/-! ## What reading costs -/

/-- Reading from one cursor to the other has made at most `a` calls if it has taken no token. Each token that it has
taken pays for 48 calls, and of these at least `s` are left. The depth is not less than before. -/
structure Cursor.Within (c : Cursor) (a s m m' : Nat) (c' : Cursor) : Prop where
  depth : c.depth ≤ c'.depth
  calls : c'.left = c.left ∧ m' ≤ m + a ∨ c'.left < c.left ∧ m' + s + 48 * c'.left ≤ m + 48 * c.left

namespace Cursor

variable {a s m m' : Nat} {c c' : Cursor}

theorem Within.left_le (h : c.Within a s m m' c') : c'.left ≤ c.left := by
  have := h.calls
  omega

/-- Two parts that are read one after the other cost what both cost. The calls that one of them leaves unpaid, if it has
taken no token, are paid by what is left of the tokens that the other one has taken. -/
theorem Within.trans {a' s' r m'' : Nat} {c'' : Cursor} (h : c.Within a s m m' c') (h' : c'.Within a' s' m' m'' c'')
    (hfirst : a + r ≤ s') (hsecond : a' + r ≤ s) : c.Within (a + a') r m m'' c'' := by
  obtain ⟨hd, hm⟩ := h
  obtain ⟨hd', hm'⟩ := h'
  exact ⟨by omega, by omega⟩

/-- Passing a token costs nothing and pays for 48 calls. -/
theorem Steps.within (h : c.Steps c') : c.Within 0 48 m m c' := by
  obtain ⟨hleft, hdepth⟩ := h
  exact ⟨by omega, by omega⟩

theorem Same.within (h : c.Same c') : c.Within 0 48 m m c' :=
  ⟨Nat.le_of_eq h.depth.symm, .inl ⟨h.left, Nat.le_refl _⟩⟩

end Cursor

/-- A part is read from before a token, a token is skipped if it has taken none, and more parts follow: a token has been
taken then, and it pays for the call that has taken none. -/
theorem Agrees.parts {α : Type} {tokens : TokenList} {a s m : Nat} {c : Cursor} {x : IndexedParser α}
    {y : Parser α} {more : IndexedParser (List α)} {more' : Parser (List α)} (ht : c.token ≠ .endOfFile)
    (hx : Agrees tokens x y m c (c.Within a s m)) (hpaid : a + s ≤ 48)
    (hmore : ∀ m' c', c'.left < c.left → Agrees tokens more more' m' c' (c'.Within 0 s m')) :
    Agrees tokens
      (do
        let before := (← get).position
        let part ← x
        if (← get).position = before then
          tokens.advance
        return part :: (← more))
      (do
        let before := (← get).left
        let part ← y
        if (← get).left = before then
          Parser.advance
        return part :: (← more')) m c (c.Within 0 s m) := by
  refine .progress ht hx (fun _ _ h => h.left_le) fun part m₁ c₁ c₂ h₁ hdepth₂ hleft₂ => ?_
  obtain ⟨hd₁, hm₁⟩ := h₁
  refine .bind (hmore m₁ c₂ (by omega)) fun rest m₃ c₃ h₃ => .pure ?_
  obtain ⟨hd₃, hm₃⟩ := h₃
  exact ⟨by omega, by omega⟩

end JavaFold
