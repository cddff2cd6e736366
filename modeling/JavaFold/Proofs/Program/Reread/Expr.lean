import JavaFold.Proofs.Program.Grammar.Expr
import JavaFold.Proofs.Program.Map
import JavaFold.Proofs.Program.Spacing

/-!
# Expressions read again

The tokens that an expression is written with are read as this expression, but for its spans (`Expr.bare`),
and but for the minus sign in front of a number, which is read together with it (`Expr.signed`). How deep the
tokens nest is `Expr.nesting`: parentheses that were put in nest as those of a source text do.
-/

namespace JavaFold

open Segment (token tokens parens)

namespace Expr

/-- The nesting of something in parentheses if `needed`. -/
def parenNesting (needed : Bool) (n : Nat) : Nat := if needed then n + 1 else n

mutual

/-- By how many levels the tokens of an expression nest. -/
def nesting : Expr → Nat
  | literal _ _ | name _ _ => 0
  | binary _ op l r =>
    max (parenNesting (l.level < op.precedence) (nesting l))
      (parenNesting (r.level < op.precedence + 1) (nesting r))
  | unary _ op e =>
    match negated? op e with
    | some _ => 0
    | none => parenNesting (op.clashesWith (parenthesized (e.level < unaryLevel) e.text))
        (parenNesting (e.level < unaryLevel) (nesting e)) + 1
  | postStep _ _ e => nesting e
  | assign _ _ t v => max (nesting t) (nesting v)
  | call _ _ args => nestingAll args

/-- By how many levels the tokens of arguments nest. -/
def nestingAll : List Expr → Nat
  | [] => 0
  | e :: es => max (nesting e + 1) (nestingAll es)

end

/-- A variable is written without parentheses wherever it stands. -/
theorem isPath_of_isName {e : Expr} (he : e.Legal) (hname : e.isName = true) :
    ∃ n, IsPath n ∧ ∀ m ≤ postLevel, parens (e.level < m) e.layout = (Token.ofPath n).map token := by
  cases e with
  | name span n =>
    refine ⟨n, he, fun m hm => ?_⟩
    have hlevel : ¬(name span n).level < m := by
      rw [level]
      unfold postLevel at hm
      omega
    rw [parens, if_neg (by simpa using hlevel), layout]
  | _ => cases hname

end Expr

/-- The tokens of a name. -/
theorem Token.ofWords_map (word : String) (words : List String) :
    ofWords ((word :: words).map String.toList) =
      identifier word :: words.flatMap fun w => [dot, identifier w] := by
  induction words generalizing word with
  | nil => rw [List.map_singleton, ofWords, String.ofList_toList, List.flatMap_nil]
  | cons w words ih =>
    rw [List.map_cons, List.map_cons, ofWords_cons_cons, String.ofList_toList, ← List.map_cons, ih]
    rfl

namespace Segment

theorem tokens_append (as bs : List Segment) : tokens (as ++ bs) = tokens as ++ tokens bs := by
  induction as with
  | nil => rfl
  | cons s as ih => cases s <;> simp only [List.cons_append, tokens, ih]

theorem tokens_map (ts : List Token) : tokens (ts.map token) = ts := by
  induction ts with
  | nil => rfl
  | cons t ts ih => rw [List.map_cons, tokens, ih]

theorem tokens_parens (needed : Bool) (ss : List Segment) :
    tokens (parens needed ss) = if needed then .lparen :: (tokens ss ++ [.rparen]) else tokens ss := by
  cases needed with
  | false => rfl
  | true =>
    rw [parens, if_pos rfl, tokens, tokens_append]
    rfl

end Segment

namespace Parser

open JavaFold.Expr (bare signed nesting parenNesting negated? unaryLevel postLevel)

variable {ts : List (Spanned Token)} {need : Nat} {e : Expr}

/-! ## Levels -/

/-- The tokens are read as an expression of a level, where one of this level may stand. -/
def ReadsAt (level : Nat) (ts : List (Spanned Token)) (need : Nat) (e : Expr) : Prop :=
  if level = 0 then ReadsAssignment ts need e
  else if level < unaryLevel then ReadsBinary level ts need e
  else ReadsUnary ts need e

theorem ReadsUnary.at (h : ReadsUnary ts need e) (hts : ts ≠ []) (level : Nat) : ReadsAt level ts need e := by
  unfold ReadsAt
  split
  · exact ReadsBinary.assignment (h.binary hts 0)
  · split
    · exact h.binary hts level
    · exact h

theorem ReadsAt.lower {p q : Nat} (h : ReadsAt q ts need e) (hp : p ≤ q) (hts : ts ≠ []) :
    ReadsAt p ts need e := by
  unfold ReadsAt at h
  split at h
  · next hq =>
    obtain rfl : p = 0 := by omega
    exact h
  · split at h
    · next hq =>
      unfold ReadsAt
      split
      · exact ReadsBinary.assignment (h.weaken (Nat.zero_le q))
      · rw [if_pos (Nat.lt_of_le_of_lt hp hq)]
        exact h.weaken hp
    · exact h.at hts p

theorem ReadsAt.expr {level : Nat} (h : ReadsAt level ts need e) (hts : ts ≠ []) :
    ReadsExpr ts (need + 1) e := ReadsAssignment.expr (h.lower (Nat.zero_le _) hts)

/-! ## Written expressions -/

/-- Whatever their spans, the tokens of the segments are read as the expression. -/
def Rereads (level : Nat) (ss : List Segment) (need : Nat) (e : Expr) : Prop :=
  ∀ ts : List (Spanned Token), ts.map (·.value) = tokens ss →
    ∃ e', ReadsAt level ts need e' ∧ e'.bare = e.signed.bare

theorem ne_nil_of_starts {ss : List Segment} (hss : Segment.Starts ss) (hts : ts.map (·.value) = tokens ss) :
    ts ≠ [] := by
  obtain ⟨u, more, rfl, -⟩ := hss
  rintro rfl
  cases hts

theorem Rereads.parens {p q : Nat} {ss : List Segment} (h : Rereads q ss need e) (hss : Segment.Starts ss)
    {b : Bool} (hp : b = false → p ≤ q) : Rereads p (Segment.parens b ss) (parenNesting b need) e := by
  intro ts hts
  rw [Segment.tokens_parens] at hts
  cases b with
  | false =>
    obtain ⟨e', he', hbare⟩ := h ts hts
    exact ⟨e', he'.lower (hp rfl) (ne_nil_of_starts hss hts), hbare⟩
  | true =>
    obtain ⟨l, ts, rfl, hl, hinner⟩ := List.map_eq_cons_iff.mp hts
    obtain ⟨us, rs, rfl, hus, hrs⟩ := List.map_eq_append_iff.mp hinner
    obtain ⟨r, rfl, hr⟩ := List.map_eq_singleton_iff.mp hrs
    obtain ⟨e', he', hbare⟩ := h us hus
    have hparens := ReadsExpr.parens (he'.expr (ne_nil_of_starts hss hus)) hl hr
    have hstart : StartsPrimary (l :: (us ++ [r])) := ⟨l, _, rfl, by rw [hl]; rfl⟩
    exact ⟨e', (hparens.unary hstart).at (List.cons_ne_nil _ _) p, hbare⟩

theorem exists_readsPath {name : String} (h : IsPath name) (hts : ts.map (·.value) = Token.ofPath name) :
    ∃ span, ReadsPath ts ⟨name, span⟩ ∧ ∃ t us word, ts = t :: us ∧ t.value = .identifier word := by
  obtain ⟨word, words, -, rfl, hpath⟩ := Token.exists_words h
  rw [hpath, Token.ofWords_map] at hts
  obtain ⟨span, hread⟩ := readsPath hts
  obtain ⟨t, us, rfl, ht, -⟩ := List.map_eq_cons_iff.mp hts
  exact ⟨span, hread, t, us, word, rfl, ht⟩

theorem rereads_name {level : Nat} (span : Span) {name : String} (h : IsPath name) :
    Rereads level ((Token.ofPath name).map token) 0 (.name span name) := by
  intro ts hts
  rw [Segment.tokens_map] at hts
  obtain ⟨s, hread, t, us, word, hts, ht⟩ := exists_readsPath h hts
  have hprimary := hread.primary hts ht
  refine ⟨.name s name, (hprimary.unary ⟨t, us, hts, by rw [ht]; rfl⟩).at ?_ level, rfl⟩
  rw [hts]
  exact List.cons_ne_nil _ _

theorem rereads_literal (span : Span) (v : Literal) :
    Rereads (Expr.level (.literal span v)) (v.tokens.map token) 0 (.literal span v) := by
  intro ts hts
  rw [Segment.tokens_map] at hts
  cases v with
  | int n =>
    have hlow := Int32.le_toInt n
    have hhigh := Int32.toInt_lt n
    rw [Literal.tokens] at hts
    split at hts
    · next hneg =>
      obtain ⟨t, ts, rfl, ht, hts'⟩ := List.map_eq_cons_iff.mp hts
      obtain ⟨v, rfl, hv⟩ := List.map_eq_singleton_iff.mp hts'
      have hread := readsUnary_negative ht hv (by unfold Literal.intLimit; omega)
      refine ⟨_, hread.at (List.cons_ne_nil _ _) _, ?_⟩
      have hvalue : Int32.ofInt (-(n.toInt.natAbs : Int)) = n := by
        rw [show (-(n.toInt.natAbs : Int)) = n.toInt by omega, Int32.ofInt_toInt]
      rw [hvalue]
      rfl
    · next hpos =>
      obtain ⟨v, rfl, hv⟩ := List.map_eq_singleton_iff.mp hts
      have hread := readsPrimary_integer hv (by unfold Literal.intLimit; omega)
      refine ⟨_, (hread.unary ⟨v, [], rfl, by rw [hv]; rfl⟩).at (List.cons_ne_nil _ _) _, ?_⟩
      have hvalue : Int32.ofInt (n.toInt.natAbs : Int) = n := by
        rw [show (n.toInt.natAbs : Int) = n.toInt by omega, Int32.ofInt_toInt]
      rw [hvalue]
      rfl
  | bool b =>
    obtain ⟨t, rfl, ht⟩ := List.map_eq_singleton_iff.mp hts
    have hread : ReadsPrimary [t] 0 (.literal t.span (.bool b)) := by
      refine readsPrimary_literal (.inl ?_)
      rw [ht]
      cases b <;> simp
    exact ⟨_, (hread.unary ⟨t, [], rfl, by rw [ht]; rfl⟩).at (List.cons_ne_nil _ _) _, rfl⟩
  | str s =>
    obtain ⟨t, rfl, ht⟩ := List.map_eq_singleton_iff.mp hts
    have hread : ReadsPrimary [t] 0 (.literal t.span (.str s)) := readsPrimary_literal (.inr ⟨s, ht, rfl⟩)
    exact ⟨_, (hread.unary ⟨t, [], rfl, by rw [ht]; rfl⟩).at (List.cons_ne_nil _ _) _, rfl⟩
  | null =>
    obtain ⟨t, rfl, ht⟩ := List.map_eq_singleton_iff.mp hts
    have hread : ReadsPrimary [t] 0 (.literal t.span .null) := by
      refine readsPrimary_literal (.inl ?_)
      rw [ht]
      simp
    exact ⟨_, (hread.unary ⟨t, [], rfl, by rw [ht]; rfl⟩).at (List.cons_ne_nil _ _) _, rfl⟩

theorem ReadsAt.binary {p : Nat} (h : ReadsAt p ts need e) (hp : 0 < p) (hts : ts ≠ []) :
    ReadsBinary p ts need e := by
  unfold ReadsAt at h
  rw [if_neg (Nat.ne_of_gt hp)] at h
  split at h
  · exact h
  · exact h.binary hts p

theorem startsExpr_of_starts {ss : List Segment} (hss : Segment.Starts ss)
    (hts : ts.map (·.value) = tokens ss) : StartsExpr ts := by
  obtain ⟨u, more, rfl, hu, -⟩ := hss
  obtain ⟨t, us, rfl, rfl, -⟩ := List.map_eq_cons_iff.mp hts
  refine ⟨t, us, rfl, fun h => ?_, fun h => ?_⟩ <;>
  · rw [h] at hu
    cases hu

theorem precedence_bounds (op : BinaryOp) : 0 < op.precedence ∧ op.precedence < unaryLevel := by
  cases op <;> decide

theorem ReadsBinary.at_operator {op : BinaryOp} (h : ReadsBinary op.precedence ts need e) :
    ReadsAt op.precedence ts need e := by
  obtain ⟨hpos, hlt⟩ := precedence_bounds op
  rw [ReadsAt, if_neg (Nat.ne_of_gt hpos), if_pos hlt]
  exact h

/-- The text of a number without a sign does not start with a sign. -/
theorem clashesWith_number {n : Int32} (h : ¬n < 0) (op : UnaryOp) :
    op.clashesWith (Literal.intText n) = false := by
  have hdigits : ∀ c ∈ (Literal.intText n).toList, c.isDigit = true := by
    rw [Int32.lt_iff_toInt_lt] at h
    obtain ⟨k, hk⟩ := Int.eq_ofNat_of_zero_le (Int.not_lt.mp h)
    intro c hc
    rw [Literal.intText, hk] at hc
    exact Nat.isDigit_of_mem_toDigits (by decide) (by decide) (Nat.toList_repr ▸ hc)
  unfold UnaryOp.clashesWith
  split
  · rfl
  · next c hc =>
    refine beq_eq_false_iff_ne.mpr fun hhead => ?_
    have hdigit := hdigits c (List.mem_of_mem_head? hhead)
    cases op with
    | neg => cases hc; exact absurd hdigit (by decide)
    | not => cases hc
    | bitNot => cases hc
    | step op => cases op <;> (cases hc; exact absurd hdigit (by decide))

/-- Only a number is read together with a minus sign in front of it. -/
theorem negative?_eq_none {op : UnaryOp} (he : e.Legal) (hneg : negated? op e = none) (b : Bool) {c : Bool}
    (hlevel : c = false → unaryLevel ≤ e.level) :
    ∀ u ∈ (tokens (Segment.parens b (Segment.parens c e.layout))).head?,
      negative? op u = none := by
  intro u hu
  have hpath : ∀ {name : String} {ss : List Segment}, IsPath name →
      u ∈ (tokens ((Token.ofPath name).map token ++ ss)).head? → negative? op u = none := by
    intro name ss hname hu
    obtain ⟨word, words, -, -, hpath⟩ := Token.exists_words hname
    rw [hpath, Token.ofWords_map] at hu
    cases hu
    cases op <;> rfl
  cases op with
  | neg =>
    rw [Segment.tokens_parens, Segment.tokens_parens] at hu
    cases b with
    | true => cases hu; rfl
    | false =>
      cases c with
      | true => cases hu; rfl
      | false =>
        have hlevel := hlevel rfl
        simp only [Bool.false_eq_true, if_false] at hu
        cases e with
        | literal s v =>
          cases v with
          | int n =>
            rw [negated?] at hneg
            split at hneg
            · next hn =>
              have hn : n.toInt < 0 := Int32.lt_iff_toInt_lt.mp hn
              rw [Expr.layout, Segment.tokens_map, Literal.tokens, if_pos hn] at hu
              cases hu
              rfl
            · cases hneg
          | bool b => cases hu; rfl
          | str s => cases hu; rfl
          | null => cases hu; rfl
        | name s n => exact @hpath n [] he (by rwa [List.append_nil])
        | binary s op l r => exact absurd hlevel (Nat.not_le.mpr (precedence_bounds op).2)
        | unary s op e =>
          rw [Expr.layout] at hu
          cases hu
          cases op <;> rfl
        | postStep s op e =>
          obtain ⟨n, hn, heq⟩ := Expr.isPath_of_isName he.1 he.2
          rw [Expr.layout, heq postLevel (Nat.le_refl _)] at hu
          exact hpath hn hu
        | assign s op t v => exact absurd hlevel (Nat.not_le.mpr (Nat.zero_lt_succ _))
        | call s path args =>
          rw [Expr.layout] at hu
          exact hpath he.1 hu
  | _ => cases u <;> rfl

/-- A minus sign in front of a number is read together with it. -/
theorem rereads_negated {s s' : Span} {n : Int32} (h : ¬n < 0) :
    Rereads unaryLevel (Expr.unary s .neg (.literal s' (.int n))).layout 0
      (.unary s .neg (.literal s' (.int n))) := by
  have hlevel : (Expr.literal s' (.int n)).level = 13 := if_neg h
  have hsigned : (Expr.unary s .neg (.literal s' (.int n))).signed = .literal s (.int (-n)) := by
    rw [Expr.signed, negated?, if_neg h]
  have hint : ¬n.toInt < 0 := fun hn => h (Int32.lt_iff_toInt_lt.mpr hn)
  have hhigh := Int32.toInt_lt n
  intro ts hts
  rw [Expr.layout, hlevel] at hts
  change _ = tokens (_ :: Segment.parens (UnaryOp.clashesWith .neg (Literal.intText n)) _) at hts
  rw [clashesWith_number h] at hts
  obtain ⟨t, us, rfl, ht, hus⟩ := List.map_eq_cons_iff.mp hts
  have hus : us.map (·.value) = tokens ((Literal.int n).tokens.map token) := hus
  rw [Segment.tokens_map, Literal.tokens, if_neg hint] at hus
  obtain ⟨v, rfl, hv⟩ := List.map_eq_singleton_iff.mp hus
  have hread := readsUnary_negative ht hv (by unfold Literal.intLimit; omega)
  refine ⟨_, hread.at (List.cons_ne_nil _ _) _, ?_⟩
  have hvalue : Int32.ofInt (-(n.toInt.natAbs : Int)) = -n := by
    rw [show (n.toInt.natAbs : Int) = n.toInt by omega, Int32.ofInt_neg, Int32.ofInt_toInt]
  rw [hvalue, hsigned]
  rfl

mutual

/-- A written expression is read again. -/
theorem rereads_expr : ∀ {e : Expr}, e.Legal → Rereads e.level e.layout e.nesting e
  | .literal s v, _ => rereads_literal s v
  | .name s n, h => rereads_name s h
  | .binary s op l r, h => by
    intro ts hts
    rw [Expr.layout, Segment.tokens_append] at hts
    obtain ⟨ls, rs, rfl, hls, hrs⟩ := List.map_eq_append_iff.mp hts
    obtain ⟨t, rs, rfl, ht, hrs⟩ := List.map_eq_cons_iff.mp hrs
    have hpos := (precedence_bounds op).1
    obtain ⟨l', hl', hlbare⟩ := (rereads_expr h.1).parens (Expr.starts_layout h.1.spelled)
      (p := op.precedence) (fun hn => by simpa using hn) ls hls
    obtain ⟨r', hr', hrbare⟩ := (rereads_expr h.2).parens (Expr.starts_layout h.2.spelled)
      (p := op.precedence + 1) (fun hn => by simpa using hn) rs hrs
    have hread := (hl'.binary hpos (ne_nil_of_starts ((Expr.starts_layout h.1.spelled).parens _) hls)).operator ht
      (hr'.binary (Nat.succ_pos _) (ne_nil_of_starts ((Expr.starts_layout h.2.spelled).parens _) hrs))
    exact ⟨_, hread.at_operator, congrArg₂ (Expr.binary .dummy op) hlbare hrbare⟩
  | .unary s op e, h => by
    have he : e.Legal := by
      cases op with
      | step op => exact h.1
      | _ => exact h
    cases hneg : negated? op e with
    | some n =>
      rw [Expr.nesting, hneg]
      unfold negated? at hneg
      split at hneg
      · split at hneg
        · cases hneg
        · next hk => exact rereads_negated hk
      · cases hneg
    | none =>
      intro ts hts
      rw [Expr.layout] at hts
      obtain ⟨t, us, rfl, ht, hus⟩ := List.map_eq_cons_iff.mp hts
      have hop : unaryOp? t.value = some op := by
        rw [ht]
        cases op <;> rfl
      have hstarts := (Expr.starts_layout he.spelled).parens (e.level < unaryLevel)
      have hinner := (rereads_expr he).parens (Expr.starts_layout he.spelled) (p := unaryLevel)
        (b := e.level < unaryLevel) fun hn => by simpa using hn
      obtain ⟨e', he', hbare⟩ := hinner.parens hstarts (p := unaryLevel)
        (b := op.clashesWith (parenthesized (e.level < unaryLevel) e.text)) (fun _ => Nat.le_refl _) us hus
      have hread : ReadsUnary us _ e' := he'
      have hname : ∀ s, op = .step s → e'.isName = true := by
        rintro s rfl
        rw [← e'.isName_bare, hbare, Expr.isName_signed h.2, Expr.isName_bare, h.2]
      have hfirst : ∀ u ∈ us.head?, negative? op u.value = none := by
        intro u hu
        have hnone := negative?_eq_none he hneg
          (op.clashesWith (parenthesized (e.level < unaryLevel) e.text)) (c := e.level < unaryLevel)
          fun hn => by simpa using hn
        rw [← hus, List.head?_map, Option.mem_def.mp hu] at hnone
        exact hnone u.value rfl
      rw [Expr.nesting, hneg]
      refine ⟨_, (hread.unary hop hfirst (ne_nil_of_starts (hstarts.parens _) hus) hname).at
        (List.cons_ne_nil _ _) _, ?_⟩
      rw [Expr.signed, hneg]
      exact congrArg (Expr.unary .dummy op) hbare
  | .postStep s op (.name s' n), h => by
    intro ts hts
    rw [Expr.layout, Segment.tokens_append] at hts
    obtain ⟨us, rs, rfl, hus, hrs⟩ := List.map_eq_append_iff.mp hts
    obtain ⟨t, rfl, ht⟩ := List.map_eq_singleton_iff.mp hrs
    have hus : us.map (·.value) = tokens ((Token.ofPath n).map token) := hus
    rw [Segment.tokens_map] at hus
    obtain ⟨span, hread, u, tail, word, hcons, hu⟩ := exists_readsPath h.1 hus
    have hstart : StartsPrimary us := ⟨u, tail, hcons, by rw [hu]; rfl⟩
    exact ⟨_, ((hread.primary hcons hu).postStep hstart rfl ht).at (by simp) _, rfl⟩
  | .assign s op (.name s' n) v, h => by
    obtain ⟨hop, hn, -, hv⟩ := h
    intro ts hts
    rw [Expr.layout, Segment.tokens_append] at hts
    obtain ⟨us, rs, rfl, hus, hrs⟩ := List.map_eq_append_iff.mp hts
    obtain ⟨t, rs, rfl, ht, hrs⟩ := List.map_eq_cons_iff.mp hrs
    have hus : us.map (·.value) = tokens ((Token.ofPath n).map token) := hus
    rw [Segment.tokens_map] at hus
    obtain ⟨span, hread, u, tail, word, hcons, hu⟩ := exists_readsPath hn hus
    have hstart : StartsPrimary us := ⟨u, tail, hcons, by rw [hu]; rfl⟩
    have hop : assignOp? t.value = some op := by
      rw [ht]
      cases op with
      | plain => rfl
      | compound op =>
        have hop : op.hasCompound = true := hop
        simp [AssignOp.token, assignOp?, hop]
    obtain ⟨v', hv', hbare⟩ := rereads_expr hv rs hrs
    have htarget := ((hread.primary hcons hu).unary hstart).binary (by simp [hcons]) 0
    have hvalue := hv'.lower (Nat.zero_le _) (ne_nil_of_starts (Expr.starts_layout hv.spelled) hrs)
    exact ⟨_, htarget.assign rfl hop hvalue, congrArg (Expr.assign .dummy op (.name .dummy n)) hbare⟩
  | .call s path args, h => by
    intro ts hts
    rw [Expr.layout, Segment.tokens_append, Segment.tokens_map, tokens, Segment.tokens_append] at hts
    obtain ⟨us, rs, rfl, hus, hrs⟩ := List.map_eq_append_iff.mp hts
    obtain ⟨l, rs, rfl, hl, hrs⟩ := List.map_eq_cons_iff.mp hrs
    obtain ⟨as, rs, rfl, has, hrs⟩ := List.map_eq_append_iff.mp hrs
    obtain ⟨r, rfl, hr⟩ := List.map_eq_singleton_iff.mp hrs
    obtain ⟨span, hread, u, tail, word, hcons, hu⟩ := exists_readsPath h.1 hus
    obtain ⟨args', hargs, hbare⟩ := rereads_arguments h.2 has
    have hstart : StartsPrimary (us ++ l :: (as ++ [r])) := ⟨u, _, by rw [hcons]; rfl, by rw [hu]; rfl⟩
    exact ⟨_, ((hread.call hcons hu hl hargs hr).unary hstart).at (by simp) _,
      congrArg (Expr.call .dummy (.made path.value)) hbare⟩
  | .postStep _ _ (.literal _ _), h | .postStep _ _ (.binary _ _ _ _), h | .postStep _ _ (.unary _ _ _), h
  | .postStep _ _ (.postStep _ _ _), h | .postStep _ _ (.assign _ _ _ _), h
  | .postStep _ _ (.call _ _ _), h => nomatch h.2
  | .assign _ _ (.literal _ _) _, h | .assign _ _ (.binary _ _ _ _) _, h | .assign _ _ (.unary _ _ _) _, h
  | .assign _ _ (.postStep _ _ _) _, h | .assign _ _ (.assign _ _ _ _) _, h
  | .assign _ _ (.call _ _ _) _, h => nomatch h.2.2.1

/-- Written arguments are read again. -/
theorem rereads_arguments : ∀ {es : List Expr}, Expr.LegalAll es → ∀ {ts : List (Spanned Token)},
    ts.map (·.value) = tokens (Expr.layouts es) →
    ∃ es', ReadsArguments ts (Expr.nestingAll es) es' ∧ Expr.bareAll es' = Expr.bareAll (Expr.signedAll es)
  | [], _, ts, hts => by
    obtain rfl := List.map_eq_nil_iff.mp hts
    exact ⟨[], readsArguments_nil, rfl⟩
  | [e], h, ts, hts => by
    obtain ⟨e', he', hbare⟩ := rereads_expr h.1 ts hts
    have hstarts := Expr.starts_layout h.1.spelled
    have hread := (he'.expr (ne_nil_of_starts hstarts hts)).argument (startsExpr_of_starts hstarts hts)
    rw [← Nat.max_zero (e.nesting + 1)] at hread
    exact ⟨_, hread, congrArg (· :: []) hbare⟩
  | e :: e₂ :: es, h, ts, hts => by
    change _ = tokens (e.layout ++ token .comma :: .gap " " :: Expr.layouts (e₂ :: es)) at hts
    rw [Segment.tokens_append] at hts
    obtain ⟨us, rs, rfl, hus, hrs⟩ := List.map_eq_append_iff.mp hts
    obtain ⟨c, rs, rfl, hc, hrs⟩ := List.map_eq_cons_iff.mp hrs
    obtain ⟨e', he', hbare⟩ := rereads_expr h.1 us hus
    obtain ⟨es', hes', hbares⟩ := rereads_arguments h.2 hrs
    have hstarts := Expr.starts_layout h.1.spelled
    have hread := (he'.expr (ne_nil_of_starts hstarts hus)).arguments (startsExpr_of_starts hstarts hus) hc hes'
    exact ⟨_, hread, congrArg₂ List.cons hbare hbares⟩

end

end Parser

namespace Expr

/-! ## What is written again -/

mutual

/-- Whether there is a minus sign in front of zero. It is gone when the text has been read: the number is
zero then. -/
def negatesZero : Expr → Bool
  | literal _ _ | name _ _ => false
  | binary _ _ l r => negatesZero l || negatesZero r
  | unary _ op e => negated? op e == some 0 || negatesZero e
  | postStep _ _ e => negatesZero e
  | assign _ _ t v => negatesZero t || negatesZero v
  | call _ _ args => negatesZeroAny args

def negatesZeroAny : List Expr → Bool
  | [] => false
  | e :: es => negatesZero e || negatesZeroAny es

end

theorem level_bare (e : Expr) : e.bare.level = e.level := by
  cases e with
  | literal s v => cases v <;> rfl
  | _ => rfl

/-- The layout of an expression determines its text. -/
theorem text_eq_of_layout {e e' : Expr} (h : e.layout = e'.layout) : e.text = e'.text := by
  have hwrite : (pure e.text : Writer String) = pure e'.text := by
    rw [← writeAll_layout, ← writeAll_layout, h]
  exact congrArg (fun w : Writer String => (w.run []).1) hwrite

mutual

theorem layout_bare : ∀ e : Expr, e.bare.layout = e.layout
  | literal _ _ | name _ _ => rfl
  | binary _ op l r => by
    simp only [bare, layout, level_bare, layout_bare l, layout_bare r]
  | unary _ op e => by
    simp only [bare, layout, level_bare, layout_bare e, text_eq_of_layout (layout_bare e)]
  | postStep _ op e => by
    simp only [bare, layout, level_bare, layout_bare e]
  | assign _ op t v => by
    simp only [bare, layout, level_bare, layout_bare t, layout_bare v]
  | call _ path args => by
    simp only [bare, layout, layouts_bare args, Spanned.made]

theorem layouts_bare : ∀ es : List Expr, layouts (bareAll es) = layouts es
  | [] => rfl
  | [e] => layout_bare e
  | e :: e₂ :: es => by
    have hes := layouts_bare (e₂ :: es)
    simp only [bareAll] at hes
    simp only [bareAll, layouts, layout_bare e, hes]

end

theorem toInt_neg {n : Int32} (h : ¬n < 0) : (-n).toInt = -n.toInt := by
  have hint : ¬n.toInt < 0 := fun hn => h (Int32.lt_iff_toInt_lt.mpr hn)
  have hhigh := Int32.toInt_lt n
  rw [Int32.toInt_neg, Int.bmod_eq_of_le] <;> omega

theorem neg_lt_zero {n : Int32} (h : ¬n < 0) (hzero : -n ≠ 0) : -n < 0 := by
  have hint : ¬n.toInt < 0 := fun hn => h (Int32.lt_iff_toInt_lt.mpr hn)
  have hne : (-n).toInt ≠ 0 := fun heq => hzero (Int32.toInt_inj.mp heq)
  rw [toInt_neg h] at hne
  rw [Int32.lt_iff_toInt_lt, toInt_neg h]
  change -n.toInt < 0
  omega

theorem level_signed {e : Expr} (h : e.negatesZero = false) : e.signed.level = e.level := by
  cases e with
  | unary s op e =>
    rw [negatesZero, Bool.or_eq_false_iff] at h
    rw [signed]
    cases hneg : negated? op e with
    | none => rfl
    | some n =>
      obtain ⟨s', k, rfl, rfl, hk, rfl⟩ := negated?_eq_some hneg
      rw [hneg] at h
      exact if_pos (neg_lt_zero hk fun hzero => by simp [hzero] at h)
  | _ => rfl

/-- A number with a minus sign in front of it is written as the negative number is. -/
theorem layout_negated {s s' : Span} {n : Int32} (h : ¬n < 0) (hzero : -n ≠ 0) :
    (unary s .neg (literal s' (.int n))).layout = (literal s (.int (-n))).layout := by
  have hlevel : (literal s' (.int n)).level = 13 := if_neg h
  have hint : ¬n.toInt < 0 := fun hn => h (Int32.lt_iff_toInt_lt.mpr hn)
  have hneg : (-n).toInt < 0 := Int32.lt_iff_toInt_lt.mp (neg_lt_zero h hzero)
  have hclash := Parser.clashesWith_number h .neg
  rw [layout, layout, hlevel]
  change _ :: parens (UnaryOp.clashesWith .neg (Literal.intText n)) _ = _
  rw [hclash, Literal.tokens, if_pos hneg, toInt_neg h, Int.natAbs_neg]
  change token _ :: (literal s' (.int n)).layout = _
  rw [layout, Literal.tokens, if_neg hint]
  rfl

mutual

/-- Unless there is a minus sign in front of zero, a text is written again as it was. -/
theorem layout_signed : ∀ {e : Expr}, e.negatesZero = false → e.signed.layout = e.layout
  | literal _ _, _ | name _ _, _ => rfl
  | binary _ op l r, h => by
    rw [negatesZero, Bool.or_eq_false_iff] at h
    simp only [signed, layout, level_signed h.1, level_signed h.2, layout_signed h.1, layout_signed h.2]
  | unary s op e, h => by
    rw [negatesZero, Bool.or_eq_false_iff] at h
    rw [signed]
    cases hneg : negated? op e with
    | none =>
      have he := layout_signed h.2
      simp only [layout, level_signed h.2, he, text_eq_of_layout he]
    | some n =>
      obtain ⟨s', k, rfl, rfl, hk, rfl⟩ := negated?_eq_some hneg
      rw [hneg] at h
      exact (layout_negated hk fun hzero => by simp [hzero] at h).symm
  | postStep _ op e, h => by
    rw [negatesZero] at h
    simp only [signed, layout, level_signed h, layout_signed h]
  | assign _ op t v, h => by
    rw [negatesZero, Bool.or_eq_false_iff] at h
    simp only [signed, layout, level_signed h.1, layout_signed h.1, layout_signed h.2]
  | call _ path args, h => by
    simp only [signed, layout, @layouts_signed args h]

theorem layouts_signed : ∀ {es : List Expr}, negatesZeroAny es = false →
    layouts (signedAll es) = layouts es
  | [], _ => rfl
  | [e], h => by
    rw [negatesZeroAny, Bool.or_eq_false_iff] at h
    exact layout_signed h.1
  | e :: e₂ :: es, h => by
    rw [negatesZeroAny, Bool.or_eq_false_iff] at h
    have hes := layouts_signed h.2
    simp only [signedAll] at hes
    simp only [signedAll, layouts, layout_signed h.1, hes]

end

/-- What was read from the text of an expression is written as it was. -/
theorem layout_reread {e e' : Expr} (h : e'.bare = e.signed.bare) (hzero : e.negatesZero = false) :
    e'.layout = e.layout := by
  rw [← layout_bare e', h, layout_bare, layout_signed hzero]

end Expr

end JavaFold
