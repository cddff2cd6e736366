import JavaFold.Program.Basic
import JavaFold.Token.Piece

/-!
# Programs that can be written

What is true of every program that was read from a source text, beyond its being a tree: names are made
of words, only names are written to, a declaration has a block around it, and an `else` belongs to the
nearest `if`. `Parsed.lean` proves that reading gives nothing else.
-/

namespace JavaFold

/-- A byte as a character. -/
theorem Ascii.toNat_ofNat (b : UInt8) : (Char.ofNat b.toNat).toNat = b.toNat := by
  have h := b.toNat_lt
  have valid : b.toNat.isValidChar := Or.inl (by omega)
  rw [Char.ofNat, dif_pos valid]
  rfl

/-- A word that is not reserved. -/
def IsWord (name : String) : Prop :=
  ∃ b run, Ascii.startsWord b = true ∧ (∀ c ∈ run, Ascii.continuesWord c = true) ∧
    name = Ascii.text (b :: run) ∧ Keyword.ofText? name = none

/-- A word with further ones after it, and dots between them. -/
def dotted (word : String) (words : List String) : String :=
  words.foldl (fun name next => name ++ "." ++ next) word

/-- Words with dots between them. -/
def IsPath (name : String) : Prop :=
  ∃ word words, IsWord word ∧ (∀ x ∈ words, IsWord x) ∧ name = dotted word words

theorem IsWord.isPath {name : String} (h : IsWord name) : IsPath name := by
  exact ⟨name, [], h, by simp, rfl⟩

theorem IsPath.append {name word : String} (h : IsPath name) (hw : IsWord word) :
    IsPath (name ++ "." ++ word) := by
  obtain ⟨first, words, hfirst, hwords, rfl⟩ := h
  refine ⟨first, words ++ [word], hfirst, ?_, by simp [dotted]⟩
  intro x hx
  rcases List.mem_append.mp hx with hx | hx
  · exact hwords x hx
  · exact List.mem_singleton.mp hx ▸ hw

namespace Ty

/-- The name of a type is made of words. -/
def Legal : Ty → Prop
  | named name => IsPath name
  | int | boolean | void => True

end Ty

/-- Only eleven operators have a compound form. -/
def AssignOp.Legal : AssignOp → Prop
  | plain => True
  | compound op => op.hasCompound = true

namespace Expr

mutual

/-- Names are made of words, and only names are written to. -/
def Legal : Expr → Prop
  | literal _ _ => True
  | name _ n => IsPath n
  | binary _ _ l r => Legal l ∧ Legal r
  | unary _ (.step _) e => Legal e ∧ e.isName = true
  | unary _ _ e => Legal e
  | postStep _ _ e => Legal e ∧ e.isName = true
  | assign _ op t v => op.Legal ∧ Legal t ∧ t.isName = true ∧ Legal v
  | call _ path args => IsPath path.value ∧ LegalAll args

def LegalAll : List Expr → Prop
  | [] => True
  | e :: es => Legal e ∧ LegalAll es

end

/-- An expression that may be missing. -/
def LegalOpt (e : Option Expr) : Prop := ∀ x ∈ e, Legal x

end Expr

namespace Stmt

/-- Whether a statement declares a variable. -/
def isDeclaration : Stmt → Bool
  | localVar _ _ _ _ => true
  | _ => false

/-- Whether a statement can be the first part of a `for`. -/
def isSimple : Stmt → Bool
  | localVar _ _ _ _ | expr _ _ => true
  | _ => false

/-- Whether an `else` after the statement would belong to an `if` in it. -/
def takesElse : Stmt → Bool
  | ifElse _ _ _ none => true
  | ifElse _ _ _ (some e) => takesElse e
  | whileLoop _ _ b => takesElse b
  | forLoop _ _ _ _ b => takesElse b
  | _ => false

mutual

/-- A declaration has a block or a `for` around it, and an `else` belongs to the nearest `if`. -/
def Legal : Stmt → Prop
  | block _ ss => LegalAll ss
  | expr _ e => e.Legal
  | localVar _ ty name init =>
    ty.value.Legal ∧ ty.value ≠ .void ∧ IsWord name.value ∧ Expr.LegalOpt init
  | ifElse _ c t none => c.Legal ∧ Legal t ∧ t.isDeclaration = false
  | ifElse _ c t (some e) =>
    c.Legal ∧ Legal t ∧ t.isDeclaration = false ∧ t.takesElse = false ∧
      Legal e ∧ e.isDeclaration = false
  | whileLoop _ c b => c.Legal ∧ Legal b ∧ b.isDeclaration = false
  | forLoop _ none c u b =>
    Expr.LegalOpt c ∧ Expr.LegalOpt u ∧ Legal b ∧ b.isDeclaration = false
  | forLoop _ (some i) c u b =>
    Legal i ∧ i.isSimple = true ∧ Expr.LegalOpt c ∧ Expr.LegalOpt u ∧ Legal b ∧
      b.isDeclaration = false
  | ret _ e => Expr.LegalOpt e
  | brk _ | cont _ | empty _ => True

def LegalAll : List Stmt → Prop
  | [] => True
  | s :: ss => Legal s ∧ LegalAll ss

end

end Stmt

/-- A type and a name. -/
structure Param.Legal (p : Param) : Prop where
  ty : p.ty.Legal
  name : IsWord p.name

/-- A field has a type other than `void`. -/
structure FieldDecl.Legal (d : FieldDecl) : Prop where
  modifiers : d.modifiers.Nodup
  ty : d.ty.value.Legal
  nonvoid : d.ty.value ≠ .void
  name : IsWord d.name.value
  init : Expr.LegalOpt d.init

structure MethodDecl.Legal (d : MethodDecl) : Prop where
  modifiers : d.modifiers.Nodup
  ret : d.ret.value.Legal
  name : IsWord d.name.value
  params : ∀ p ∈ d.params, p.Legal
  body : Stmt.LegalAll d.body.stmts

/-- A field or method. -/
def Member.Legal : Member → Prop
  | field _ d => d.Legal
  | method _ d => d.Legal

structure ClassDecl.Legal (c : ClassDecl) : Prop where
  modifiers : c.modifiers.Nodup
  name : IsWord c.name.value
  members : ∀ m ∈ c.members, m.Legal

/-- A program that can be written. -/
def CompilationUnit.Legal (unit : CompilationUnit) : Prop := ∀ c ∈ unit.classes, c.Legal

/-! ## Programs that can be spelled -/

namespace Expr

mutual

/-- Names are made of words. -/
def Spelled : Expr → Prop
  | literal _ _ => True
  | name _ n => IsPath n
  | binary _ _ l r => Spelled l ∧ Spelled r
  | unary _ _ e => Spelled e
  | postStep _ _ e => Spelled e
  | assign _ _ t v => Spelled t ∧ Spelled v
  | call _ path args => IsPath path.value ∧ SpelledAll args

def SpelledAll : List Expr → Prop
  | [] => True
  | e :: es => Spelled e ∧ SpelledAll es

end

/-- An expression that may be missing. -/
def SpelledOpt (e : Option Expr) : Prop := ∀ x ∈ e, Spelled x

mutual

theorem Legal.spelled : ∀ {e : Expr}, e.Legal → e.Spelled
  | literal _ _, _ => trivial
  | name _ _, h => h
  | binary _ _ _ _, h => ⟨h.1.spelled, h.2.spelled⟩
  | unary _ (.step _) _, h => h.1.spelled
  | unary _ .neg e, h => Legal.spelled (e := e) h
  | unary _ .not e, h => Legal.spelled (e := e) h
  | unary _ .bitNot e, h => Legal.spelled (e := e) h
  | postStep _ _ _, h => h.1.spelled
  | assign _ _ _ _, h => ⟨h.2.1.spelled, h.2.2.2.spelled⟩
  | call _ _ _, h => ⟨h.1, LegalAll.spelled h.2⟩

theorem LegalAll.spelled : ∀ {es : List Expr}, LegalAll es → SpelledAll es
  | [], _ => trivial
  | _ :: _, h => ⟨h.1.spelled, LegalAll.spelled h.2⟩

end

theorem LegalOpt.spelled {e : Option Expr} (h : LegalOpt e) : SpelledOpt e := fun x hx => (h x hx).spelled

end Expr

namespace Stmt

mutual

/-- Names are made of words, and the first part of a `for` is a declaration or an expression. -/
def Spelled : Stmt → Prop
  | block _ ss => SpelledAll ss
  | expr _ e => e.Spelled
  | localVar _ ty name init => ty.value.Legal ∧ IsWord name.value ∧ Expr.SpelledOpt init
  | ifElse _ c t none => c.Spelled ∧ Spelled t
  | ifElse _ c t (some e) => c.Spelled ∧ Spelled t ∧ Spelled e
  | whileLoop _ c b => c.Spelled ∧ Spelled b
  | forLoop _ none c u b => Expr.SpelledOpt c ∧ Expr.SpelledOpt u ∧ Spelled b
  | forLoop _ (some i) c u b =>
    Spelled i ∧ i.isSimple = true ∧ Expr.SpelledOpt c ∧ Expr.SpelledOpt u ∧ Spelled b
  | ret _ e => Expr.SpelledOpt e
  | brk _ | cont _ | empty _ => True

def SpelledAll : List Stmt → Prop
  | [] => True
  | s :: ss => Spelled s ∧ SpelledAll ss

end

mutual

theorem Legal.spelled : ∀ {s : Stmt}, s.Legal → s.Spelled
  | block _ _, h => LegalAll.spelled h
  | expr _ e, h => Expr.Legal.spelled (e := e) h
  | localVar _ _ _ _, h => ⟨h.1, h.2.2.1, h.2.2.2.spelled⟩
  | ifElse _ _ _ none, h => ⟨h.1.spelled, h.2.1.spelled⟩
  | ifElse _ _ _ (some _), h => ⟨h.1.spelled, h.2.1.spelled, h.2.2.2.2.1.spelled⟩
  | whileLoop _ _ _, h => ⟨h.1.spelled, h.2.1.spelled⟩
  | forLoop _ none _ _ _, h => ⟨h.1.spelled, h.2.1.spelled, h.2.2.1.spelled⟩
  | forLoop _ (some _) _ _ _, h =>
    ⟨h.1.spelled, h.2.1, h.2.2.1.spelled, h.2.2.2.1.spelled, h.2.2.2.2.1.spelled⟩
  | ret _ e, h => Expr.LegalOpt.spelled (e := e) h
  | brk _, _ | cont _, _ | empty _, _ => trivial

theorem LegalAll.spelled : ∀ {ss : List Stmt}, LegalAll ss → SpelledAll ss
  | [], _ => trivial
  | _ :: _, h => ⟨h.1.spelled, LegalAll.spelled h.2⟩

end

end Stmt

structure FieldDecl.Spelled (d : FieldDecl) : Prop where
  ty : d.ty.value.Legal
  name : IsWord d.name.value
  init : Expr.SpelledOpt d.init

structure MethodDecl.Spelled (d : MethodDecl) : Prop where
  ret : d.ret.value.Legal
  name : IsWord d.name.value
  params : ∀ p ∈ d.params, p.Legal
  body : Stmt.SpelledAll d.body.stmts

/-- A field or method. -/
def Member.Spelled : Member → Prop
  | field _ d => d.Spelled
  | method _ d => d.Spelled

theorem Member.Legal.spelled {m : Member} (h : m.Legal) : m.Spelled := by
  cases m with
  | field _ d => exact ⟨h.ty, h.name, h.init.spelled⟩
  | method _ d => exact ⟨h.ret, h.name, h.params, h.body.spelled⟩

structure ClassDecl.Spelled (c : ClassDecl) : Prop where
  name : IsWord c.name.value
  members : ∀ m ∈ c.members, m.Spelled

theorem ClassDecl.Legal.spelled {c : ClassDecl} (h : c.Legal) : c.Spelled :=
  ⟨h.name, fun m hm => (h.members m hm).spelled⟩

/-- A program whose parts can be written, whether or not it can be read again: all names are made of words,
and the first part of a `for` is a declaration or an expression. -/
def CompilationUnit.Spelled (unit : CompilationUnit) : Prop := ∀ c ∈ unit.classes, c.Spelled

theorem CompilationUnit.Legal.spelled {unit : CompilationUnit} (h : unit.Legal) : unit.Spelled :=
  fun c hc => (h c hc).spelled

end JavaFold
