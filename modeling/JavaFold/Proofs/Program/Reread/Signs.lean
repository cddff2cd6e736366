import JavaFold.Proofs.Program.Reread.Unit

/-!
# Signs that are lost

A program is printed with the minus signs of its expressions and no others (`CompilationUnit.minuses_layout`). What
was read from the text of a program has no more of them, and fewer if there was a minus sign in front of zero
(`CompilationUnit.minuses_reread`).
-/

namespace JavaFold

open Segment (token tokens gap opening ending parens)
open Writer (Position)

namespace Segment

/-- The number of minus signs. -/
def minuses (ss : List Segment) : Nat := (tokens ss).count (.operator .sub)

@[simp] theorem minuses_nil : minuses [] = 0 := rfl

@[simp] theorem minuses_gap (text : String) (ss : List Segment) : minuses (gap text :: ss) = minuses ss := rfl

@[simp] theorem minuses_opening (indent : String) (start : Nat) (ss : List Segment) :
    minuses (opening indent start :: ss) = minuses ss := rfl

@[simp] theorem minuses_ending (stop : Nat) (ss : List Segment) : minuses (ending stop :: ss) = minuses ss := by
  have hne : Token.semicolon ≠ .operator .sub := nofun
  exact List.count_cons_of_ne hne

@[simp] theorem minuses_remaining (ss : List Segment) : minuses (remaining :: ss) = minuses ss := rfl

@[simp] theorem minuses_token (t : Token) (ss : List Segment) :
    minuses (token t :: ss) = minuses ss + if t = .operator .sub then 1 else 0 := by
  rw [minuses, tokens, List.count_cons]
  simp only [beq_iff_eq, minuses]

@[simp] theorem minuses_append (ss ss' : List Segment) : minuses (ss ++ ss') = minuses ss + minuses ss' := by
  rw [minuses, tokens_append, List.count_append, minuses, minuses]

@[simp] theorem minuses_parens (needed : Bool) (ss : List Segment) : minuses (parens needed ss) = minuses ss := by
  cases needed with
  | false => rfl
  | true => simp [parens]

/-- Only operators are minus signs. -/
theorem minuses_tokens {ts : List Token} (h : ∀ t ∈ ts, t ≠ .operator .sub) : minuses (ts.map token) = 0 := by
  rw [minuses, tokens_map]
  exact List.count_eq_zero_of_not_mem fun hmem => h _ hmem rfl

end Segment

open Segment (minuses minuses_tokens minuses_nil minuses_append minuses_gap minuses_parens minuses_token)

/-! ## Expressions -/

namespace Token

theorem ne_sub_ofWords : ∀ ws : List (List Char), ∀ t ∈ ofWords ws, t ≠ .operator .sub
  | [] => nofun
  | [_] => List.forall_mem_cons.mpr ⟨nofun, nofun⟩
  | _ :: w :: ws => List.forall_mem_cons.mpr ⟨nofun, List.forall_mem_cons.mpr ⟨nofun, ne_sub_ofWords (w :: ws)⟩⟩

@[simp] theorem minuses_ofPath (path : String) : minuses ((ofPath path).map token) = 0 :=
  minuses_tokens (ne_sub_ofWords _)

end Token

@[simp] theorem Ty.minuses_tokens (ty : Ty) : minuses (ty.tokens.map token) = 0 := by
  cases ty with
  | named name => exact Token.minuses_ofPath name
  | _ => rfl

namespace Expr

theorem minuses_number (s : Span) (n : Int32) : minuses (literal s (.int n)).layout = if n < 0 then 1 else 0 := by
  rw [layout, Literal.tokens]
  have hint : n < 0 ↔ n.toInt < 0 := Int32.lt_iff_toInt_lt
  by_cases h : n < 0
  · rw [if_pos (hint.mp h), if_pos h]
    rfl
  · rw [if_neg fun hn => h (hint.mpr hn), if_neg h]
    rfl

theorem toNat_or_le (a b : Bool) : (a || b).toNat ≤ a.toNat + b.toNat := by
  cases a <;> cases b <;> decide

mutual

/-- A minus sign in front of a number is a sign of the number, unless the number is zero. -/
theorem minuses_signed : ∀ e : Expr, minuses e.signed.layout + e.negatesZero.toNat ≤ minuses e.layout
  | literal _ _ | name _ _ => Nat.le_refl _
  | binary _ op l r => by
    have hl := minuses_signed l
    have hr := minuses_signed r
    have hor := toNat_or_le l.negatesZero r.negatesZero
    simp only [signed, negatesZero, layout, minuses_append, minuses_parens, minuses_gap, minuses_token]
    omega
  | unary s op e => by
    have he := minuses_signed e
    rw [signed, negatesZero]
    cases hneg : negated? op e with
    | none =>
      have hnone : ((none : Option Int32) == some 0) = false := rfl
      simp only [layout, minuses_token, minuses_parens, hnone, Bool.false_or]
      omega
    | some n =>
      obtain ⟨s', k, rfl, rfl, hk, rfl⟩ := negated?_eq_some hneg
      change minuses (literal s (.int (-k))).layout + (some (-k) == some 0 || false).toNat ≤ _
      rw [minuses_number, layout, minuses_token, minuses_parens, minuses_parens, minuses_number, if_neg hk]
      by_cases hzero : -k = 0
      · rw [hzero]
        decide
      · have hsome : (some (-k) == some 0) = false := by simp [hzero]
        rw [if_pos (neg_lt_zero hk hzero), hsome]
        decide
  | postStep _ _ e => by
    have he := minuses_signed e
    simp only [signed, negatesZero, layout, minuses_append, minuses_parens, minuses_token, minuses_nil]
    omega
  | assign _ op t v => by
    have ht := minuses_signed t
    have hv := minuses_signed v
    have hor := toNat_or_le t.negatesZero v.negatesZero
    simp only [signed, negatesZero, layout, minuses_append, minuses_parens, minuses_gap, minuses_token]
    omega
  | call _ _ args => by
    have hargs := minuses_signedAll args
    simp only [signed, negatesZero, layout, minuses_append, minuses_token]
    omega

theorem minuses_signedAll : ∀ es : List Expr,
    minuses (layouts (signedAll es)) + (negatesZeroAny es).toNat ≤ minuses (layouts es)
  | [] => Nat.le_refl _
  | [e] => by
    simpa only [signedAll, layouts, negatesZeroAny, Bool.or_false] using minuses_signed e
  | e :: e₂ :: es => by
    have he := minuses_signed e
    have hes := minuses_signedAll (e₂ :: es)
    have hor := toNat_or_le e.negatesZero (negatesZeroAny (e₂ :: es))
    simp only [signedAll] at hes
    simp only [negatesZeroAny, signedAll, layouts, minuses_append, minuses_token, minuses_gap] at hes hor ⊢
    omega

end

/-- The minus signs of expressions. -/
def minusesAll (es : List Expr) : Nat := (es.map fun e => minuses e.layout).sum

@[simp] theorem minusesAll_nil : minusesAll [] = 0 := rfl

@[simp] theorem minusesAll_cons (e : Expr) (es : List Expr) :
    minusesAll (e :: es) = minuses e.layout + minusesAll es := by
  rw [minusesAll, List.map_cons, List.sum_cons, minusesAll]

@[simp] theorem minusesAll_append (es es' : List Expr) : minusesAll (es ++ es') = minusesAll es + minusesAll es' := by
  rw [minusesAll, List.map_append, List.sum_append, minusesAll, minusesAll]

theorem minusesAll_bare (es : List Expr) : minusesAll (es.map bare) = minusesAll es := by
  rw [minusesAll, List.map_map]
  exact congrArg List.sum (List.map_congr_left fun e _ => congrArg minuses e.layout_bare)

theorem minusesAll_signed : ∀ es : List Expr,
    minusesAll (es.map signed) + (es.any negatesZero).toNat ≤ minusesAll es
  | [] => Nat.le_refl _
  | e :: es => by
    have he := minuses_signed e
    have hes := minusesAll_signed es
    have hor := toNat_or_le e.negatesZero (es.any negatesZero)
    simp only [List.map_cons, minusesAll_cons, List.any_cons]
    omega

theorem minuses_wrapped (indent line : String) (e : Expr) : minuses (e.wrapped indent line) = minuses e.layout := by
  rw [minuses, tokens_wrapped, minuses]

theorem minuses_headerLayout (e : Option Expr) : minuses (headerLayout e) = minusesAll e.toList := by
  cases e <;> rfl

end Expr

/-! ## Expressions of a program -/

namespace Stmt

mutual

/-- The expressions of a statement that are not in other expressions, in order. -/
def exprs : Stmt → List Expr
  | block _ ss => exprsAll ss
  | expr _ e => [e]
  | localVar _ _ _ e | ret _ e => e.toList
  | ifElse _ c t none => c :: exprs t
  | ifElse _ c t (some e) => c :: (exprs t ++ exprs e)
  | whileLoop _ c b => c :: exprs b
  | forLoop _ none c u b => c.toList ++ (u.toList ++ exprs b)
  | forLoop _ (some i) c u b => exprs i ++ (c.toList ++ (u.toList ++ exprs b))
  | brk _ | cont _ | empty _ => []

def exprsAll : List Stmt → List Expr
  | [] => []
  | s :: ss => exprs s ++ exprsAll ss

end

theorem toList_map (f : Expr → Expr) (e : Option Expr) : (e.map f).toList = e.toList.map f := by
  cases e <;> rfl

theorem any_toList (e : Option Expr) : e.toList.any Expr.negatesZero = Expr.optNegatesZero e := by
  cases e with
  | none => rfl
  | some e => exact Bool.or_false _

section

variable (f : Expr → Expr) (g h : Span → Span)

mutual

theorem exprs_map : ∀ s : Stmt, (s.map f g h).exprs = s.exprs.map f
  | block _ ss => exprsAll_map ss
  | expr _ _ => rfl
  | localVar _ _ _ e | ret _ e => toList_map f e
  | ifElse _ _ t none => congrArg (_ :: ·) (exprs_map t)
  | ifElse _ _ t (some e) => by simp only [map, exprs, exprs_map t, exprs_map e, List.map_cons, List.map_append]
  | whileLoop _ _ b => congrArg (_ :: ·) (exprs_map b)
  | forLoop _ none _ _ b => by simp only [map, exprs, toList_map, exprs_map b, List.map_append]
  | forLoop _ (some i) _ _ b => by
    simp only [map, exprs, toList_map, exprs_map i, exprs_map b, List.map_append]
  | brk _ | cont _ | empty _ => rfl

theorem exprsAll_map : ∀ ss : List Stmt, exprsAll (mapAll f g h ss) = (exprsAll ss).map f
  | [] => rfl
  | s :: ss => by rw [mapAll, exprsAll, exprs_map s, exprsAll_map ss, exprsAll, List.map_append]

end

end

mutual

theorem any_exprs : ∀ s : Stmt, s.exprs.any Expr.negatesZero = s.negatesZero
  | block _ ss => any_exprsAll ss
  | expr _ _ => Bool.or_false _
  | localVar _ _ _ e | ret _ e => any_toList e
  | ifElse _ _ t none => congrArg (_ || ·) (any_exprs t)
  | ifElse _ _ t (some e) => by
    simp only [exprs, negatesZero, List.any_cons, List.any_append, any_exprs t, any_exprs e]
  | whileLoop _ _ b => congrArg (_ || ·) (any_exprs b)
  | forLoop _ none _ _ b => by simp only [exprs, negatesZero, List.any_append, any_toList, any_exprs b]
  | forLoop _ (some i) _ _ b => by
    simp only [exprs, negatesZero, List.any_append, any_toList, any_exprs i, any_exprs b]
  | brk _ | cont _ | empty _ => rfl

theorem any_exprsAll : ∀ ss : List Stmt, (exprsAll ss).any Expr.negatesZero = negatesZeroAny ss
  | [] => rfl
  | s :: ss => by rw [exprsAll, List.any_append, any_exprs s, any_exprsAll ss, negatesZeroAny]

end

end Stmt

/-! ## What is printed -/

open JavaFold.Expr (minusesAll minusesAll_nil minusesAll_cons minusesAll_append minuses_wrapped minuses_headerLayout)

theorem minuses_declLayout (ty : Ty) (name : String) : minuses (declLayout ty name) = 0 := by
  simp [declLayout]

theorem minuses_initLayout (indent line : String) (e : Option Expr) :
    minuses (initLayout indent line e) = minusesAll e.toList := by
  cases e with
  | none => rfl
  | some e => simp [initLayout, minuses_wrapped]

namespace Stmt

theorem minuses_openingAt (position : Position) (indent : String) (start : Nat) :
    minuses (openingAt position indent start) = 0 := by
  cases position <;> rfl

theorem minuses_endLayout (body : Stmt) : minuses (endLayout body) = 0 := by
  unfold endLayout
  split <;> rfl

theorem minuses_simpleLayout (indent line : String) {s : Stmt} (h : s.isSimple = true) :
    minuses (s.simpleLayout indent line) = minusesAll s.exprs := by
  cases s with
  | localVar span ty name e =>
    simp only [simpleLayout, minuses_append, minuses_declLayout, minuses_initLayout, exprs, Nat.zero_add]
  | expr span e => simp [simpleLayout, minuses_wrapped, exprs]
  | _ => cases h

mutual

/-- A statement is printed with the minus signs of its expressions. -/
theorem minuses_layout : ∀ (position : Position) (indent : String) {s : Stmt}, s.Legal →
    minuses (s.layout position indent) = minusesAll s.exprs
  | position, indent, block span ss, h => by
    have hss : minuses (layouts (indent ++ Writer.tab) ss) = minusesAll (exprsAll ss) := minuses_layouts _ h
    cases position <;> simp [layout, hss, exprs]
  | position, indent, expr span e, _ => by
    simp [layout, minuses_openingAt, minuses_wrapped, exprs]
  | position, indent, localVar span ty name e, _ => by
    have hs := fun inner => minuses_simpleLayout inner inner (s := localVar span ty name e) rfl
    simp [layout, minuses_openingAt, hs]
  | position, indent, ifElse span c t none, h => by
    have ht := fun inner => minuses_layout .body inner h.2.1
    cases position <;> simp [layout, minuses_openingAt, minuses_endLayout, ht, exprs]
  | position, indent, ifElse span c t (some e), h => by
    have ht := fun inner => minuses_layout .body inner h.2.1
    have he := fun inner => minuses_layout .afterElse inner h.2.2.2.2.1
    cases position <;> simp [layout, minuses_openingAt, minuses_endLayout, ht, he, exprs]
  | position, indent, whileLoop span c b, h => by
    have hb := fun inner => minuses_layout .body inner h.2.1
    simp [layout, minuses_openingAt, minuses_endLayout, hb, exprs]
  | position, indent, forLoop span none c u b, h => by
    have hb := fun inner => minuses_layout .body inner h.2.2.1
    simp [layout, minuses_openingAt, minuses_endLayout, minuses_headerLayout, hb, exprs]
  | position, indent, forLoop span (some i) c u b, h => by
    have hb := fun inner => minuses_layout .body inner h.2.2.2.2.1
    simp [layout, minuses_openingAt, minuses_endLayout, minuses_headerLayout, minuses_simpleLayout, h.2.1, hb, exprs]
  | position, indent, ret span none, _ => by simp [layout, minuses_openingAt, exprs]
  | position, indent, ret span (some e), _ => by simp [layout, minuses_openingAt, minuses_wrapped, exprs]
  | position, indent, brk span, _ | position, indent, cont span, _ | position, indent, empty span, _ => by
    simp [layout, minuses_openingAt, exprs]

theorem minuses_layouts : ∀ (indent : String) {ss : List Stmt}, LegalAll ss →
    minuses (layouts indent ss) = minusesAll (exprsAll ss)
  | _, [], _ => rfl
  | indent, s :: ss, h => by
    rw [layouts, minuses_append, minuses_layout _ _ h.1, minuses_layouts _ h.2, exprsAll, minusesAll_append]

end

end Stmt

theorem Modifier.minuses_layouts (ms : List Modifier) : minuses (layouts ms) = 0 := by
  rw [minuses, tokens_layouts]
  exact List.count_eq_zero_of_not_mem (by simp)

theorem Param.minuses_layouts : ∀ ps : List Param, minuses (layouts ps) = 0
  | [] => rfl
  | [p] => minuses_declLayout p.ty p.name
  | p :: p₂ :: ps => by simp [layouts, minuses_declLayout, minuses_layouts (p₂ :: ps)]

namespace Member

def exprs : Member → List Expr
  | field _ d => d.init.toList
  | method _ d => Stmt.exprsAll d.body.stmts

theorem exprs_map (f : Expr → Expr) (g h : Span → Span) (m : Member) : (m.map f g h).exprs = m.exprs.map f := by
  cases m with
  | field s d => exact Stmt.toList_map f d.init
  | method s d => exact Stmt.exprsAll_map f g h d.body.stmts

theorem any_exprs (m : Member) : m.exprs.any Expr.negatesZero = m.negatesZero := by
  cases m with
  | field s d => exact Stmt.any_toList d.init
  | method s d => exact Stmt.any_exprsAll d.body.stmts

theorem minuses_layout (indent : String) {m : Member} (h : m.Legal) :
    minuses (m.layout indent) = minusesAll m.exprs := by
  cases m with
  | field s d =>
    simp [layout, Modifier.minuses_layouts, minuses_declLayout, minuses_initLayout, exprs]
  | method s d =>
    have hbody := fun inner => Stmt.minuses_layouts inner (MethodDecl.Legal.body h)
    simp [layout, Modifier.minuses_layouts, minuses_declLayout, Param.minuses_layouts, hbody, exprs]

theorem minuses_layouts (indent : String) : ∀ {ms : List Member}, (∀ m ∈ ms, m.Legal) →
    minuses (layouts indent ms) = minusesAll (ms.flatMap exprs)
  | [], _ => rfl
  | m :: ms, h => by
    have ⟨hm, hms⟩ := List.forall_mem_cons.mp h
    have hafter : minuses (layoutsAfter indent m ms) = minuses (layouts indent ms) :=
      congrArg (List.count _) (tokens_layoutsAfter indent m ms)
    rw [layouts, minuses_append, hafter, minuses_layout indent hm, minuses_layouts indent hms, List.flatMap_cons,
      minusesAll_append]

end Member

namespace ClassDecl

def exprs (c : ClassDecl) : List Expr := c.members.flatMap Member.exprs

theorem exprs_map (f : Expr → Expr) (g h : Span → Span) (c : ClassDecl) : (c.map f g h).exprs = c.exprs.map f := by
  rw [exprs, exprs, map, List.flatMap_map, List.map_flatMap]
  exact congrArg (c.members.flatMap ·) (funext fun m => m.exprs_map f g h)

theorem any_exprs (c : ClassDecl) : c.exprs.any Expr.negatesZero = c.negatesZero := by
  rw [exprs, List.any_flatMap, negatesZero]
  exact congrArg c.members.any (funext Member.any_exprs)

theorem minuses_layout {c : ClassDecl} (h : c.Legal) : minuses c.layout = minusesAll c.exprs := by
  simp [layout, Modifier.minuses_layouts, Member.minuses_layouts _ h.members, exprs]

theorem minuses_layouts : ∀ {cs : List ClassDecl}, (∀ c ∈ cs, c.Legal) →
    minuses (layouts cs) = minusesAll (cs.flatMap exprs)
  | [], _ => rfl
  | c :: cs, h => by
    have ⟨hc, hcs⟩ := List.forall_mem_cons.mp h
    rw [minuses, tokens_layouts_cons, List.count_append, ← minuses, ← minuses, minuses_layout hc, minuses_layouts hcs,
      List.flatMap_cons, minusesAll_append]

end ClassDecl

namespace CompilationUnit

/-- The expressions of a program that are not in other expressions, in order. -/
def exprs (unit : CompilationUnit) : List Expr := unit.classes.flatMap ClassDecl.exprs

theorem exprs_map (f : Expr → Expr) (g h : Span → Span) (unit : CompilationUnit) :
    (unit.map f g h).exprs = unit.exprs.map f := by
  rw [exprs, exprs, map, List.flatMap_map, List.map_flatMap]
  exact congrArg (unit.classes.flatMap ·) (funext fun c => c.exprs_map f g h)

theorem any_exprs (unit : CompilationUnit) : unit.exprs.any Expr.negatesZero = unit.negatesZero := by
  rw [exprs, List.any_flatMap, negatesZero]
  exact congrArg unit.classes.any (funext ClassDecl.any_exprs)

/-- A program is printed with the minus signs of its expressions. -/
theorem minuses_layout {unit : CompilationUnit} (h : unit.Legal) :
    minuses unit.layout = minusesAll unit.exprs := by
  rw [layout, minuses_append, ClassDecl.minuses_layouts h]
  rfl

/-- What is read from a text has the minus signs of the text, but for those in front of zeros. -/
theorem minuses_reread {unit again : CompilationUnit} (h : unit.Legal) (hagain : again.Legal)
    (hbare : again.bare = unit.signed.bare) :
    minuses again.layout + unit.negatesZero.toNat ≤ minuses unit.layout := by
  have hexprs : again.exprs.map Expr.bare = (unit.exprs.map Expr.signed).map Expr.bare := by
    rw [← exprs_map Expr.signed id id, ← exprs_map Expr.bare (fun _ => .dummy) fun _ => .dummy,
      ← exprs_map Expr.bare (fun _ => .dummy) fun _ => .dummy]
    exact congrArg exprs hbare
  have hsame : minusesAll again.exprs = minusesAll (unit.exprs.map Expr.signed) := by
    rw [← Expr.minusesAll_bare, hexprs, Expr.minusesAll_bare]
  have hfewer := Expr.minusesAll_signed unit.exprs
  rwa [any_exprs, ← hsame, ← minuses_layout h, ← minuses_layout hagain] at hfewer

end CompilationUnit

end JavaFold
