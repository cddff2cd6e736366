import JavaFold.Proofs.Program.Grammar.Accepted
import JavaFold.Tree.Program

/-!
# How deep a program is

The reading functions refuse tokens that nest more than `Problem.nestingLimit` levels. Between two of these levels an
expression can grow by one operator of each precedence and a few constructs more, at most fourteen in all
(`ExprTokens.depth_le`), but operators of one precedence that stand one after the other do not nest, and neither do
assignments of assignments: each of them makes the program deeper by a step that the limit does not see. So what bounds
the depth of a program is the limit together with the steps of that kind on a way down (`CompilationUnit.chained`), and
with those alone it is as great as one likes (`CompilationUnit.depth_exceeds`).
-/

namespace JavaFold

namespace OrderedTree

variable {α : Type}

mutual

/-- The number of labels on the longest way down. -/
def depth : OrderedTree α → Nat
  | node _ ts => depthAll ts + 1

def depthAll : List (OrderedTree α) → Nat
  | [] => 0
  | t :: ts => max (depth t) (depthAll ts)

end

/-- Whether a part below another one makes an expression longer that does not nest: an operand of an operator of the
same precedence, or an assignment that is assigned. -/
def continues : NodeKind → NodeKind → Bool
  | .expr (.binary op), .expr (.binary op') => op.precedence == op'.precedence
  | .expr (.assign _), .expr (.assign _) => true
  | _, _ => false

mutual

/-- The greatest number of steps on a way down to a part that continues the one above it. -/
def chained : OrderedTree Part → Nat
  | node p ts => chainedBelow p.kind ts

def chainedBelow (k : NodeKind) : List (OrderedTree Part) → Nat
  | [] => 0
  | t :: ts => max (chained t + (continues k t.label.kind).toNat) (chainedBelow k ts)

end

theorem depthAll_le {N : Nat} : ∀ {ts : List (OrderedTree α)}, (∀ t ∈ ts, t.depth ≤ N) → depthAll ts ≤ N
  | [], _ => Nat.zero_le _
  | t :: ts, h => by
    have ⟨ht, hts⟩ := List.forall_mem_cons.mp h
    exact Nat.max_le.mpr ⟨ht, depthAll_le hts⟩

theorem chained_le_chainedBelow (k : NodeKind) : ∀ {ts : List (OrderedTree Part)}, ∀ t ∈ ts,
    t.chained + (continues k t.label.kind).toNat ≤ chainedBelow k ts
  | u :: ts, t, ht => by
    rw [chainedBelow]
    rcases List.mem_cons.mp ht with rfl | ht
    · exact Nat.le_max_left _ _
    · exact (chained_le_chainedBelow k t ht).trans (Nat.le_max_right _ _)

/-- A bound for all parts below a part, up to chained steps, is one for the part itself. -/
theorem depth_le_of_below {N : Nat} {p : Part} {ts : List (OrderedTree Part)}
    (h : ∀ t ∈ ts, t.depth ≤ N + t.chained + (continues p.kind t.label.kind).toNat) :
    (node p ts).depth ≤ N + 1 + (node p ts).chained := by
  have hall : depthAll ts ≤ N + chainedBelow p.kind ts := depthAll_le fun t ht => by
    have hbound := h t ht
    have hchain := chained_le_chainedBelow p.kind t ht
    omega
  rw [depth, chained]
  omega

end OrderedTree

open OrderedTree

namespace Grammar

variable {loose : Bool} {ts : List (Spanned Token)} {n : Nat}

/-- Whether the expression is an operator of the precedence that a level asks for, or an assignment at the loosest
level. -/
def tops (level : Nat) : Expr → Bool
  | .binary _ op _ _ => op.precedence == level
  | .assign _ _ _ _ => level == 0
  | _ => false

/-- The depth of what nests by `n` levels, up to chained steps. Below the levels of the operators in front of and behind
an operand, an expression that does not top its level has one operator less. -/
def ExprPart.Shallow (n : Nat) : ExprPart → Prop
  | .expr level e => e.parts.depth ≤ 14 * n + (14 - level) + e.parts.chained ∧
    (level ≤ 10 → tops level e = false → e.parts.depth ≤ 14 * n + (13 - level) + e.parts.chained)
  | .args es => ∀ e ∈ es, e.parts.depth ≤ 14 * n + e.parts.chained

theorem continues_of_tops {op : BinaryOp} {e : Expr} (h : tops op.precedence e = true) :
    continues (.expr (.binary op)) e.parts.label.kind = true := by
  cases e with
  | binary _ op' _ _ =>
    rw [tops, beq_iff_eq] at h
    exact beq_iff_eq.mpr h.symm
  | assign =>
    cases op <;> cases h
  | _ => cases h

theorem continues_of_tops_zero {op : AssignOp} {e : Expr} (h : tops 0 e = true) :
    continues (.expr (.assign op)) e.parts.label.kind = true := by
  cases e with
  | binary _ op' _ _ => cases op' <;> cases h
  | assign => rfl
  | _ => cases h

theorem precedence_le (op : BinaryOp) : 1 ≤ op.precedence ∧ op.precedence ≤ 10 := by
  cases op <;> decide

theorem mem_partsAll {es : List Expr} {t : OrderedTree Part} : t ∈ Expr.partsAll es ↔ ∃ e ∈ es, t = e.parts := by
  induction es with
  | nil => simp [Expr.partsAll]
  | cons e es ih => simp [Expr.partsAll, ih]

theorem mem_optParts {e : Option Expr} {t : OrderedTree Part} : t ∈ Expr.optParts e ↔ ∃ e' ∈ e, t = e'.parts := by
  cases e <;> simp [Expr.optParts]

/-- An expression is not deeper than fourteen times the levels by which its tokens nest, up to chained steps and to
what its own level allows. -/
theorem ExprTokens.shallow {part : ExprPart} (h : ExprTokens loose part ts n) : part.Shallow n := by
  induction h with
  | integer | word | string | name =>
    refine ⟨?_, fun hlevel => absurd hlevel (by decide)⟩
    rw [Expr.parts, OrderedTree.depth, depthAll]
    omega
  | @call path ts us n args l r _ _ _ _ ih =>
    refine ⟨?_, fun hlevel => absurd hlevel (by decide)⟩
    rw [Expr.parts]
    refine (depth_le_of_below (N := 14 * n) fun t ht => ?_).trans (by omega)
    obtain ⟨e, he, rfl⟩ := mem_partsAll.mp ht
    exact (ih e he).trans (Nat.le_add_right _ _)
  | parens _ _ _ ih =>
    refine ⟨?_, fun hlevel => absurd hlevel (by decide)⟩
    have hinner := ih.1
    omega
  | @postStep ts n e t op _ _ _ ih =>
    refine ⟨?_, fun hlevel => absurd hlevel (by decide)⟩
    rw [Expr.parts]
    refine (depth_le_of_below (N := 14 * n + 1) fun t ht => ?_).trans (by omega)
    rw [List.mem_singleton.mp ht]
    exact ih.1.trans (Nat.le_add_right _ _)
  | negative =>
    refine ⟨?_, fun hlevel => absurd hlevel (by decide)⟩
    rw [Expr.parts, OrderedTree.depth, depthAll]
    omega
  | @unary ts n e t op _ _ _ _ ih =>
    refine ⟨?_, fun hlevel => absurd hlevel (by decide)⟩
    rw [Expr.parts]
    refine (depth_le_of_below (N := 14 * n + 3) fun t ht => ?_).trans (by omega)
    rw [List.mem_singleton.mp ht]
    exact ih.1.trans (Nat.le_add_right _ _)
  | @binary ts us n m lhs rhs t op _ _ _ ihl ihr =>
    obtain ⟨hpos, hle⟩ := precedence_le op
    refine ⟨?_, fun _ htops => by simp [tops] at htops⟩
    rw [Expr.parts]
    refine (depth_le_of_below (N := 14 * max n m + (13 - op.precedence)) fun t ht => ?_).trans (by omega)
    rcases List.mem_pair.mp ht with rfl | rfl
    · -- a left operand that tops the level is the chained step
      cases htops : tops op.precedence lhs with
      | true =>
        have hbound := ihl.1
        rw [continues_of_tops htops, Bool.toNat_true]
        omega
      | false =>
        have hbound := ihl.2 hle htops
        omega
    · have hbound := ihr.1
      omega
  | @assign ts us n m target value t op _ _ _ _ _ ihl ihr =>
    refine ⟨?_, fun _ htops => by simp [tops] at htops⟩
    rw [Expr.parts]
    refine (depth_le_of_below (N := 14 * max n m + 13) fun t ht => ?_).trans (by omega)
    rcases List.mem_pair.mp ht with rfl | rfl
    · have hbound := ihl.1
      omega
    · cases htops : tops 0 value with
      | true =>
        have hbound := ihr.1
        rw [continues_of_tops_zero htops, Bool.toNat_true]
        omega
      | false =>
        have hbound := ihr.2 (Nat.zero_le _) htops
        omega
  | loosen _ ih =>
    have hbound := ih.1
    exact ⟨by omega, fun _ _ => by omega⟩
  | nil => exact fun e he => absurd he List.not_mem_nil
  | last _ ih =>
    intro e he
    rw [List.mem_singleton.mp he]
    have hbound := ih.1
    omega
  | more _ _ _ _ ih ihs =>
    refine List.forall_mem_cons.mpr ⟨?_, fun e he => ?_⟩
    · have hbound := ih.1
      omega
    · have hbound := ihs e he
      omega

theorem OptionalTokens.shallow {e : Option Expr} (h : OptionalTokens loose e ts n) :
    ∀ t ∈ Expr.optParts e, t.depth ≤ 14 * n + t.chained := by
  cases h with
  | none => exact fun t ht => absurd ht List.not_mem_nil
  | some h =>
    intro t ht
    obtain ⟨e, he, rfl⟩ := mem_optParts.mp ht
    cases he
    have hbound := h.shallow.1
    omega

theorem InitTokens.shallow {init : Option Expr} (h : InitTokens loose init ts n) :
    ∀ t ∈ Expr.optParts init, t.depth ≤ 14 * n + t.chained := by
  cases h with
  | none => exact fun t ht => absurd ht List.not_mem_nil
  | some _ h => exact OptionalTokens.shallow (.some h)

theorem DeclTokens.shallow {ty : Spanned Ty} {name : Spanned String} {init : Option Expr}
    (h : DeclTokens loose ty name init ts n) : ∀ t ∈ Expr.optParts init, t.depth ≤ 14 * n + t.chained := by
  cases h with
  | mk _ _ _ hinit => exact hinit.shallow

/-- What stands below a statement. -/
theorem depth_stmt_le {k : StmtKind} {span : Span} {ps : List (OrderedTree Part)}
    (h : ∀ t ∈ ps, t.depth ≤ 14 * n + t.chained) :
    (node ⟨.stmt k, span⟩ ps).depth ≤ 14 * n + 1 + (node (⟨.stmt k, span⟩ : Part) ps).chained :=
  depth_le_of_below fun t ht => (h t ht).trans (Nat.le_add_right _ _)

theorem ForInitTokens.shallow {init : Option Stmt} (h : ForInitTokens loose init ts n) :
    ∀ s ∈ init, s.parts.depth ≤ 14 * n + 1 + s.parts.chained := by
  cases h with
  | none => exact nofun
  | localVar h =>
    rintro s ⟨⟩
    rw [Stmt.parts]
    exact depth_stmt_le h.shallow
  | expr h =>
    rintro s ⟨⟩
    rw [Stmt.parts]
    exact depth_stmt_le (OptionalTokens.shallow (.some h))

/-- The depth of statements that nest by `n` levels, up to chained steps. The first part of a `for` does not nest in
it. -/
def StmtPart.Shallow (n : Nat) : StmtPart → Prop
  | .stmt s => s.parts.depth ≤ 14 * n + 2 + s.parts.chained
  | .stmts ss => ∀ s ∈ ss, s.parts.depth ≤ 14 * n + 2 + s.parts.chained

theorem mem_stmtsPartsAll {ss : List Stmt} {t : OrderedTree Part} : t ∈ Stmt.partsAll ss ↔ ∃ s ∈ ss, t = s.parts := by
  induction ss with
  | nil => simp [Stmt.partsAll]
  | cons s ss ih => simp [Stmt.partsAll, ih]

theorem depth_stmts_le {ss : List Stmt} (h : StmtPart.Shallow n (.stmts ss)) :
    ∀ t ∈ Stmt.partsAll ss, t.depth ≤ 14 * (n + 1) + t.chained := fun t ht => by
  obtain ⟨s, hs, rfl⟩ := mem_stmtsPartsAll.mp ht
  have hbound := h s hs
  omega

theorem StmtPart.Shallow.of_below {s : Stmt} {k : StmtKind} {span : Span} {ps : List (OrderedTree Part)}
    (hs : s.parts = node ⟨.stmt k, span⟩ ps) (h : ∀ t ∈ ps, t.depth ≤ 14 * n + 1 + t.chained) :
    StmtPart.Shallow n (.stmt s) := by
  rw [StmtPart.Shallow, hs]
  exact depth_le_of_below fun t ht => (h t ht).trans (Nat.le_add_right _ _)

theorem StmtTokens.shallow {part : StmtPart} (h : StmtTokens loose part ts n) : part.Shallow n := by
  induction h with
  | block _ _ _ ih => exact .of_below rfl fun t ht => (depth_stmts_le ih t ht).trans (by omega)
  | expr h =>
    refine .of_below rfl fun t ht => ?_
    have hbound := h.shallow.1
    rw [List.mem_singleton.mp ht]
    omega
  | localVar h => exact .of_below rfl fun t ht => (h.shallow t ht).trans (by omega)
  | ifElse _ _ hcond _ _ _ ih =>
    refine .of_below rfl fun t ht => ?_
    have hc := hcond.shallow.1
    rw [StmtPart.Shallow] at ih
    rcases List.mem_pair.mp ht with rfl | rfl <;> omega
  | ifElse_else _ _ hcond _ _ _ _ _ _ _ ih ih' =>
    refine .of_below rfl fun t ht => ?_
    have hc := hcond.shallow.1
    rw [StmtPart.Shallow] at ih ih'
    simp only [List.mem_cons, List.not_mem_nil, or_false] at ht
    rcases ht with rfl | rfl | rfl <;> omega
  | whileLoop _ _ hcond _ _ _ ih =>
    refine .of_below rfl fun t ht => ?_
    have hc := hcond.shallow.1
    rw [StmtPart.Shallow] at ih
    rcases List.mem_pair.mp ht with rfl | rfl <;> omega
  | @forLoop init cond update body is cs vs ts a b c n k l m m' r _ _ hinit _ hcond _ hupdate _ _ _ ih =>
    have hbelow : ∀ t ∈ Expr.optParts cond ++ Expr.optParts update ++ [body.parts],
        t.depth ≤ 14 * max a (max b (max c (n + 1))) + 1 + t.chained := fun t ht => by
      rw [StmtPart.Shallow] at ih
      rcases List.mem_append.mp ht with ht | ht
      · rcases List.mem_append.mp ht with ht | ht
        · have hbound := hcond.shallow t ht
          omega
        · have hbound := hupdate.shallow t ht
          omega
      · rw [List.mem_singleton.mp ht]
        omega
    cases init with
    | none => exact .of_below (by rw [Stmt.parts]) hbelow
    | some s =>
      refine .of_below (by rw [Stmt.parts]) (List.forall_mem_cons.mpr ⟨?_, hbelow⟩)
      have hbound := hinit.shallow s rfl
      omega
  | ret _ h => exact .of_below rfl fun t ht => (h.shallow t ht).trans (by omega)
  | brk | cont | empty => exact .of_below rfl fun t ht => absurd ht List.not_mem_nil
  | nil => exact fun s hs => absurd hs List.not_mem_nil
  | cons _ _ ih ihs =>
    rw [StmtPart.Shallow] at ih
    refine List.forall_mem_cons.mpr ⟨by omega, fun s hs => ?_⟩
    have hbound := ihs s hs
    omega

theorem MemberTokens.shallow {m : Member} (h : MemberTokens loose m ts n) :
    ∀ t ∈ m.parts.children, t.depth ≤ 14 * n + 1 + t.chained := by
  cases h with
  | field _ _ _ _ hinit => exact fun t ht => (hinit.shallow t ht).trans (by omega)
  | method _ _ _ _ _ _ _ hss =>
    intro t ht
    rw [List.mem_singleton.mp ht]
    exact depth_stmt_le (depth_stmts_le hss.shallow)

theorem Sequence.forall {α : Type} {P : α → List (Spanned Token) → Nat → Prop} {as : List α}
    (h : Sequence P as ts n) : ∀ a ∈ as, ∃ us m, P a us m ∧ m ≤ n := by
  induction h with
  | nil => exact fun a ha => absurd ha List.not_mem_nil
  | cons h _ ih =>
    refine List.forall_mem_cons.mpr ⟨⟨_, _, h, Nat.le_max_left _ _⟩, fun a ha => ?_⟩
    obtain ⟨us, m, hP, hm⟩ := ih a ha
    exact ⟨us, m, hP, hm.trans (Nat.le_max_right _ _)⟩

/-- What binds more tightly than it has to. -/
theorem loosen_by {level : Nat} {e : Expr} : ∀ k : Nat, ExprTokens loose (.expr (level + k) e) ts n →
    ExprTokens loose (.expr level e) ts n
  | 0, h => h
  | k + 1, h => loosen_by k h.loosen

end Grammar

namespace CompilationUnit

open Grammar
open Problem (nestingLimit)

variable {unit : CompilationUnit} {tokens : List (Spanned Token)}

/-- The statements and expressions that stand directly in the members of classes. -/
def bodies (unit : CompilationUnit) : List (OrderedTree Part) :=
  unit.classes.flatMap fun c => c.members.flatMap fun m => m.parts.children

/-- The number of statements and expressions on the longest way down. -/
def depth (unit : CompilationUnit) : Nat := depthAll unit.bodies

/-- The greatest number of chained steps on a way down. -/
def chained (unit : CompilationUnit) : Nat := chainedBelow .unit unit.bodies

theorem Derives.depth_le {loose : Bool} {ts : List (Spanned Token)} {need : Nat} (h : unit.Derives loose ts need) :
    unit.depth ≤ 14 * need + 1 + unit.chained := by
  refine depthAll_le fun t ht => ?_
  have hchain : t.chained + (continues .unit t.label.kind).toNat ≤ unit.chained := chained_le_chainedBelow .unit t ht
  obtain ⟨c, hc, hmem⟩ := List.mem_flatMap.mp ht
  obtain ⟨m, hm, hbelow⟩ := List.mem_flatMap.mp hmem
  obtain ⟨_, n, ⟨_, _, _, _, hmembers, _⟩, hn⟩ := Sequence.forall h c hc
  obtain ⟨_, k, hmember, hk⟩ := hmembers.forall m hm
  have hbound := hmember.shallow t hbelow
  omega

/-- The depth of a program that is read from tokens is bounded by the nesting limit and by the chained steps on a way
down. It is at most sixteen times the limit as long as there are less than twice as many such steps as the limit. -/
theorem depth_le_of_ofTokens? (hend : tokens.getLast?.map (·.value) = some .endOfFile)
    (h : ofTokens? tokens = .ok unit) : unit.depth ≤ 14 * nestingLimit + 1 + unit.chained ∧
      (unit.chained < 2 * nestingLimit → unit.depth ≤ 16 * nestingLimit) := by
  obtain ⟨need, hneed, hunit⟩ := (ofTokens?_iff_writtenBy hend).mp h
  have hbound := hunit.depth_le
  exact ⟨by omega, fun _ => by omega⟩

/-! ## Chains -/

/-- Tokens that have been given no places. -/
def unplacedTokens (tokens : List Token) : List (Spanned Token) := tokens.map (⟨·, .dummy⟩)

/-- The tokens of a class with one field that has the value `value`. -/
def fieldTokens (value : List Token) : List (Spanned Token) :=
  unplacedTokens ([.keyword .«class», .identifier "A", .lbrace, .keyword .int, .identifier "x", .assign] ++ value ++
    [.semicolon, .rbrace, .endOfFile])

/-- A sum of ones with `n` plus signs. -/
def sumTokens : Nat → List Token
  | 0 => [.integer 1]
  | n + 1 => sumTokens n ++ [.operator .add, .integer 1]

/-- A one that is assigned `n` times. -/
def assignTokens : Nat → List Token
  | 0 => [.integer 1]
  | n + 1 => .identifier "x" :: .assign :: assignTokens n

def one : Expr := .literal .dummy (.int (.ofInt 1))

/-- The expression that `sumTokens` writes. -/
def sumExpr : Nat → Expr
  | 0 => one
  | n + 1 => .binary ((sumExpr n).span.merge one.span) .add (sumExpr n) one

/-- The expression that `assignTokens` writes. -/
def assignExpr : Nat → Expr
  | 0 => one
  | n + 1 => .assign (Span.dummy.merge (assignExpr n).span) .plain (.name .dummy "x") (assignExpr n)

theorem depth_sumExpr : ∀ n : Nat, (sumExpr n).parts.depth = n + 1
  | 0 => rfl
  | n + 1 => by
    rw [sumExpr, Expr.parts, OrderedTree.depth, depthAll, depthAll, depth_sumExpr n, depthAll]
    exact congrArg (· + 1) (Nat.max_eq_left (Nat.le_add_left 1 n))

theorem depth_assignExpr : ∀ n : Nat, (assignExpr n).parts.depth = n + 1
  | 0 => rfl
  | n + 1 => by
    rw [assignExpr, Expr.parts, OrderedTree.depth, depthAll, depthAll, depth_assignExpr n, depthAll]
    exact congrArg (· + 1) (Nat.max_eq_right (Nat.le_add_left 1 n))

theorem derives_one (loose : Bool) : ExprTokens loose (.expr 13 one) (unplacedTokens [.integer 1]) 0 :=
  .integer (t := ⟨.integer 1, .dummy⟩) rfl (by decide)

theorem derives_sum (loose : Bool) : ∀ n : Nat,
    ExprTokens loose (.expr BinaryOp.add.precedence (sumExpr n)) (unplacedTokens (sumTokens n)) 0
  | 0 => loosen_by 4 (derives_one loose)
  | n + 1 => by
    rw [sumTokens, unplacedTokens, List.map_append]
    exact .binary (t := ⟨.operator .add, .dummy⟩) (derives_sum loose n) rfl
      (loosen_by 3 (derives_one loose))

theorem derives_assign (loose : Bool) : ∀ n : Nat,
    ExprTokens loose (.expr 0 (assignExpr n)) (unplacedTokens (assignTokens n)) 0
  | 0 => loosen_by 13 (derives_one loose)
  | n + 1 => by
    have hpath : PathTokens ⟨"x", .dummy⟩ (unplacedTokens [.identifier "x"]) :=
      .word (t := ⟨.identifier "x", .dummy⟩) rfl
    rw [assignExpr]
    exact .assign (t := ⟨.assign, .dummy⟩) (loosen_by 12 (.name hpath)) rfl trivial rfl (derives_assign loose n)

/-- A field with a value that does not nest too deep is read. -/
theorem ofTokens?_fieldTokens {value : List Token} {e : Expr} {n : Nat}
    (h : ExprTokens true (.expr 0 e) (unplacedTokens value) n) (hn : n < nestingLimit) :
    ∃ unit, ofTokens? (fieldTokens value) = .ok unit ∧ unit.depth = e.parts.depth := by
  have hms : ModifierTokens [] [] := ⟨rfl, .nil⟩
  have hty : TyTokens ⟨.int, .dummy⟩ (unplacedTokens [.keyword .int]) :=
    .word (t := ⟨.keyword .int, .dummy⟩) rfl List.mem_cons_self
  have hinit : InitTokens true (some e) (⟨.assign, .dummy⟩ :: unplacedTokens value) (n + 1) := .some rfl h
  have hmember := MemberTokens.field (t := ⟨.identifier "x", .dummy⟩) (r := ⟨.semicolon, .dummy⟩) hms hty (by simp) rfl
    hinit rfl
  have hclass := ClassTokens.mk (k := ⟨.keyword .«class», .dummy⟩) (t := ⟨.identifier "A", .dummy⟩)
    (l := ⟨.lbrace, .dummy⟩) (r := ⟨.rbrace, .dummy⟩) hms rfl rfl rfl (.cons hmember .nil) rfl
  have hunit : Derives true ⟨_⟩ _ _ := Sequence.cons hclass .nil
  have hread := hunit.ofTokens? (by omega) (u := ⟨.endOfFile, .dummy⟩) rfl []
  refine ⟨_, Eq.trans (congrArg ofTokens? ?_) hread, Nat.max_zero _⟩
  simp [fieldTokens, unplacedTokens]

/-- A sum with enough plus signs is deeper than any bound, and so is an assignment of enough assignments. Neither nests
at all. -/
theorem depth_exceeds (bound : Nat) :
    (∃ unit, ofTokens? (fieldTokens (sumTokens bound)) = .ok unit ∧ bound < unit.depth) ∧
      ∃ unit, ofTokens? (fieldTokens (assignTokens bound)) = .ok unit ∧ bound < unit.depth := by
  constructor
  · obtain ⟨unit, hunit, hdepth⟩ := ofTokens?_fieldTokens (loosen_by 9 (derives_sum true bound)) (by decide)
    exact ⟨unit, hunit, by rw [hdepth, depth_sumExpr]; omega⟩
  · obtain ⟨unit, hunit, hdepth⟩ := ofTokens?_fieldTokens (derives_assign true bound) (by decide)
    exact ⟨unit, hunit, by rw [hdepth, depth_assignExpr]; omega⟩

theorem getLast?_fieldTokens (value : List Token) :
    (fieldTokens value).getLast?.map (·.value) = some .endOfFile := by
  rw [fieldTokens, unplacedTokens, List.map_append, List.getLast?_append]
  rfl

/-- The nesting limit alone does not bound the depth of a program. -/
theorem depth_exceeds_limit :
    (fieldTokens (assignTokens (16 * nestingLimit))).getLast?.map (·.value) = some .endOfFile ∧
      (∃ unit, ofTokens? (fieldTokens (assignTokens (16 * nestingLimit))) = .ok unit ∧ 16 * nestingLimit < unit.depth) ∧
      (fieldTokens (sumTokens (16 * nestingLimit))).getLast?.map (·.value) = some .endOfFile ∧
      ∃ unit, ofTokens? (fieldTokens (sumTokens (16 * nestingLimit))) = .ok unit ∧ 16 * nestingLimit < unit.depth :=
  have ⟨hsum, hassign⟩ := depth_exceeds (16 * nestingLimit)
  ⟨getLast?_fieldTokens _, hassign, getLast?_fieldTokens _, hsum⟩

/-- A short sum of products. -/
theorem depth_le_of_ofTokens?_product : ∃ unit,
    ofTokens? (Lexed.ofSource "class A \x7b int x = 1 + 2 * (3 + 4) + 5; \x7d").tokens = .ok unit ∧
      unit.chained < 2 * nestingLimit ∧ unit.depth ≤ 16 * nestingLimit := by
  generalize htokens : (Lexed.ofSource "class A \x7b int x = 1 + 2 * (3 + 4) + 5; \x7d").tokens = tokens
  have hend : tokens.getLast?.map (·.value) = some .endOfFile := by
    rw [← htokens]
    decide +kernel
  have hchained : ((ofTokens? tokens).toOption.map fun unit => decide (unit.chained < 2 * nestingLimit)) =
      some true := by
    rw [← htokens]
    decide +kernel
  obtain ⟨unit, hparsed, hchained⟩ := Option.map_eq_some_iff.mp hchained
  have hparse := eq_ok_of_toOption hparsed
  have hchained := of_decide_eq_true hchained
  exact ⟨unit, hparse, hchained, (depth_le_of_ofTokens? hend hparse).2 hchained⟩

end CompilationUnit

end JavaFold
