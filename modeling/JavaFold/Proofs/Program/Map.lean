import JavaFold.Program.Unit.Printer
import JavaFold.Proofs.Program.Legal

/-!
# Programs that differ in their expressions and spans

Programs that are read from different texts differ in their spans (`CompilationUnit.bare`), and a minus sign in
front of a number is read together with it (`CompilationUnit.signed`). Both, and what a tree keeps of a program,
are programs with other expressions and spans at the same places (`CompilationUnit.map`).
-/

namespace JavaFold

open Writer (isBlock isMethod)

namespace Expr

mutual

/-- The expression without its spans. -/
def bare : Expr → Expr
  | literal _ v => literal .dummy v
  | name _ n => name .dummy n
  | binary _ op l r => binary .dummy op (bare l) (bare r)
  | unary _ op e => unary .dummy op (bare e)
  | postStep _ op e => postStep .dummy op (bare e)
  | assign _ op t v => assign .dummy op (bare t) (bare v)
  | call _ path args => call .dummy (.made path.value) (bareAll args)

def bareAll : List Expr → List Expr
  | [] => []
  | e :: es => bare e :: bareAll es

end

/-- The number that a minus sign and a number after it are read as. -/
def negated? : UnaryOp → Expr → Option Int32
  | .neg, literal _ (.int n) => if n < 0 then none else some (-n)
  | _, _ => none

mutual

/-- The expression with each minus sign in front of a number read together with it. -/
def signed : Expr → Expr
  | literal s v => literal s v
  | name s n => name s n
  | binary s op l r => binary s op (signed l) (signed r)
  | unary s op e =>
    match negated? op e with
    | some n => literal s (.int n)
    | none => unary s op (signed e)
  | postStep s op e => postStep s op (signed e)
  | assign s op t v => assign s op (signed t) (signed v)
  | call s path args => call s path (signedAll args)

def signedAll : List Expr → List Expr
  | [] => []
  | e :: es => signed e :: signedAll es

end

/-- The number after a minus sign, with its sign. -/
theorem negated?_eq_some {op : UnaryOp} {e : Expr} {n : Int32} (h : negated? op e = some n) :
    ∃ s k, op = .neg ∧ e = literal s (.int k) ∧ ¬k < 0 ∧ n = -k := by
  unfold negated? at h
  split at h
  · split at h
    · cases h
    · next s k hk => exact ⟨s, k, rfl, rfl, hk, (Option.some.inj h).symm⟩
  · cases h

theorem isName_bare (e : Expr) : e.bare.isName = e.isName := by
  cases e <;> rfl

theorem isName_signed {e : Expr} (h : e.isName = true) : e.signed = e := by
  cases e with
  | name s n => rfl
  | _ => cases h

end Expr

namespace Stmt

mutual

/-- The statement with other expressions, spans, and spans of names and types. -/
def map (f : Expr → Expr) (g h : Span → Span) : Stmt → Stmt
  | block s ss => block (g s) (mapAll f g h ss)
  | expr s e => expr (g s) (f e)
  | localVar s ty name init => localVar (g s) ⟨ty.value, h ty.span⟩ ⟨name.value, h name.span⟩ (init.map f)
  | ifElse s c t none => ifElse (g s) (f c) (map f g h t) none
  | ifElse s c t (some e) => ifElse (g s) (f c) (map f g h t) (some (map f g h e))
  | whileLoop s c b => whileLoop (g s) (f c) (map f g h b)
  | forLoop s none c u b => forLoop (g s) none (c.map f) (u.map f) (map f g h b)
  | forLoop s (some i) c u b => forLoop (g s) (some (map f g h i)) (c.map f) (u.map f) (map f g h b)
  | ret s e => ret (g s) (e.map f)
  | brk s => brk (g s)
  | cont s => cont (g s)
  | empty s => empty (g s)

def mapAll (f : Expr → Expr) (g h : Span → Span) : List Stmt → List Stmt
  | [] => []
  | s :: ss => map f g h s :: mapAll f g h ss

end

/-- The statement without its spans. -/
def bare (s : Stmt) : Stmt := s.map Expr.bare (fun _ => .dummy) fun _ => .dummy

def bareAll (ss : List Stmt) : List Stmt := mapAll Expr.bare (fun _ => .dummy) (fun _ => .dummy) ss

/-- The statement with each minus sign in front of a number read together with it. -/
def signed (s : Stmt) : Stmt := s.map Expr.signed id id

def signedAll (ss : List Stmt) : List Stmt := mapAll Expr.signed id id ss

section

variable (f f' : Expr → Expr) (g h g' h' : Span → Span)

theorem isBlock_map (s : Stmt) : isBlock (s.map f g h) = isBlock s := by
  cases s with
  | ifElse span c t e => cases e <;> rfl
  | forLoop span init c u b => cases init <;> rfl
  | _ => rfl

theorem takesElse_map : ∀ s : Stmt, (s.map f g h).takesElse = s.takesElse
  | ifElse _ _ _ (some e) => takesElse_map e
  | whileLoop _ _ b | forLoop _ none _ _ b | forLoop _ (some _) _ _ b => takesElse_map b
  | ifElse _ _ _ none | block _ _ | expr _ _ | localVar _ _ _ _ | ret _ _ | brk _ | cont _ | empty _ => rfl

mutual

theorem map_map : ∀ s : Stmt, (s.map f g h).map f' g' h' = s.map (f' ∘ f) (g' ∘ g) (h' ∘ h)
  | block _ ss => by rw [map, map, map, mapAll_mapAll ss]; rfl
  | expr _ _ => rfl
  | localVar _ _ _ _ => by simp only [map, Option.map_map, Function.comp_apply]
  | ifElse _ _ t none => by simp only [map, map_map t, Function.comp_apply]
  | ifElse _ _ t (some e) => by simp only [map, map_map t, map_map e, Function.comp_apply]
  | whileLoop _ _ b => by simp only [map, map_map b, Function.comp_apply]
  | forLoop _ none _ _ b => by simp only [map, map_map b, Option.map_map, Function.comp_apply]
  | forLoop _ (some i) _ _ b => by
    simp only [map, map_map i, map_map b, Option.map_map, Function.comp_apply]
  | ret _ _ => by simp only [map, Option.map_map, Function.comp_apply]
  | brk _ | cont _ | empty _ => rfl

theorem mapAll_mapAll : ∀ ss : List Stmt,
    mapAll f' g' h' (mapAll f g h ss) = mapAll (f' ∘ f) (g' ∘ g) (h' ∘ h) ss
  | [] => rfl
  | s :: ss => by rw [mapAll, mapAll, mapAll, map_map s, mapAll_mapAll ss]

end

end

end Stmt

namespace Member

/-- The member with other expressions, spans, and spans of names and types. -/
def map (f : Expr → Expr) (g h : Span → Span) : Member → Member
  | field s d => field (g s)
    ⟨d.modifiers, ⟨d.ty.value, h d.ty.span⟩, ⟨d.name.value, h d.name.span⟩, d.init.map f⟩
  | method s d => method (g s) ⟨d.modifiers, ⟨d.ret.value, h d.ret.span⟩, ⟨d.name.value, h d.name.span⟩,
    d.params, ⟨g d.body.span, Stmt.mapAll f g h d.body.stmts⟩⟩

/-- The member without its spans. -/
def bare (m : Member) : Member := m.map Expr.bare (fun _ => .dummy) fun _ => .dummy

/-- The member with each minus sign in front of a number read together with it. -/
def signed (m : Member) : Member := m.map Expr.signed id id

section

variable (f f' : Expr → Expr) (g h g' h' : Span → Span)

theorem isMethod_map (m : Member) : isMethod (m.map f g h) = isMethod m := by
  cases m <;> rfl

theorem map_map (m : Member) : (m.map f g h).map f' g' h' = m.map (f' ∘ f) (g' ∘ g) (h' ∘ h) := by
  cases m with
  | field s d => simp only [map, Option.map_map, Function.comp_apply]
  | method s d => simp only [map, Stmt.mapAll_mapAll, Function.comp_apply]

end

end Member

namespace ClassDecl

/-- The class with other expressions, spans, and spans of names and types. -/
def map (f : Expr → Expr) (g h : Span → Span) (c : ClassDecl) : ClassDecl :=
  ⟨g c.span, c.modifiers, ⟨c.name.value, h c.name.span⟩, c.members.map (Member.map f g h)⟩

def bare (c : ClassDecl) : ClassDecl := c.map Expr.bare (fun _ => .dummy) fun _ => .dummy

def signed (c : ClassDecl) : ClassDecl := c.map Expr.signed id id

theorem map_map (f f' : Expr → Expr) (g h g' h' : Span → Span) (c : ClassDecl) :
    (c.map f g h).map f' g' h' = c.map (f' ∘ f) (g' ∘ g) (h' ∘ h) := by
  simp only [map, List.map_map, Function.comp_apply]
  exact congrArg _ (List.map_congr_left fun m _ => m.map_map f f' g h g' h')

end ClassDecl

namespace CompilationUnit

/-- The program with other expressions, spans, and spans of names and types. -/
def map (f : Expr → Expr) (g h : Span → Span) (unit : CompilationUnit) : CompilationUnit :=
  ⟨unit.classes.map (ClassDecl.map f g h)⟩

/-- The program without its spans. -/
def bare (unit : CompilationUnit) : CompilationUnit := unit.map Expr.bare (fun _ => .dummy) fun _ => .dummy

/-- The program with each minus sign in front of a number read together with it. -/
def signed (unit : CompilationUnit) : CompilationUnit := unit.map Expr.signed id id

theorem map_map (f f' : Expr → Expr) (g h g' h' : Span → Span) (unit : CompilationUnit) :
    (unit.map f g h).map f' g' h' = unit.map (f' ∘ f) (g' ∘ g) (h' ∘ h) := by
  simp only [map, List.map_map]
  exact congrArg _ (List.map_congr_left fun c _ => c.map_map f f' g h g' h')

end CompilationUnit

end JavaFold
