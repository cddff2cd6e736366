import JavaFold.Pass.Constants.Facts
import JavaFold.Proofs.Program.Legal

/-!
# Declarations

What is declared at each point of a program: the scopes from the innermost on, which statements add variables to, and
after them the fields of the class. `CompilationUnit.sites` lists the expressions of a program with what is declared
where they stand.
-/

namespace JavaFold

open Constants (Scope)

/-- The scopes with a variable that the innermost one declares. -/
def Constants.declaring (name : String) (ty : Ty) : List Scope → List Scope
  | [] => []
  | scope :: scopes => ((name, ty) :: scope) :: scopes

/-- The scope that the parameters of a method make up. -/
def MethodDecl.scope (d : MethodDecl) : Scope := (d.params.map fun p => (p.name, p.ty)).reverse

/-- The name and type of a field. -/
def Member.declaredField? : Member → Option (String × Ty)
  | field _ d => some (d.name.value, d.ty.value)
  | method _ _ => none

/-- The fields of a class, the one declared last first. -/
def ClassDecl.fields (c : ClassDecl) : Scope := (c.members.filterMap Member.declaredField?).reverse

namespace Stmt

/-- The scopes after a statement. -/
def declared : Stmt → List Scope → List Scope
  | localVar _ ty name _, scopes => Constants.declaring name.value ty.value scopes
  | _, scopes => scopes

/-- The scopes after some statements. -/
def declaredAll (ss : List Stmt) (scopes : List Scope) : List Scope :=
  ss.foldl (fun scopes s => s.declared scopes) scopes

/-- A statement that is no declaration declares nothing. -/
theorem declared_eq {s : Stmt} (h : s.isDeclaration = false) (scopes : List Scope) :
    s.declared scopes = scopes := by
  cases s with
  | localVar span ty name init => cases h
  | _ => rfl

/-- A statement declares variables in the innermost scope only. -/
theorem declared_cons (s : Stmt) (scope : Scope) (scopes : List Scope) :
    ∃ scope', s.declared (scope :: scopes) = scope' :: scopes := by
  cases s with
  | localVar span ty name init => exact ⟨_, rfl⟩
  | _ => exact ⟨scope, rfl⟩

theorem declaredAll_cons (ss : List Stmt) : ∀ (scope : Scope) (scopes : List Scope),
    ∃ scope', declaredAll ss (scope :: scopes) = scope' :: scopes := by
  induction ss with
  | nil => exact fun scope scopes => ⟨scope, rfl⟩
  | cons s ss ih =>
    intro scope scopes
    obtain ⟨scope', h⟩ := declared_cons s scope scopes
    have hcons : declaredAll (s :: ss) (scope :: scopes) =
        declaredAll ss (s.declared (scope :: scopes)) := rfl
    rw [hcons, h]
    exact ih scope' scopes

end Stmt

namespace Constants

variable {fields : Scope} {scopes : List Scope} {x name : String} {ty : Ty}

/-- A name stands for the variable that is declared last. -/
theorem declaredType?_declaring_self (h : scopes ≠ []) :
    declaredType? (declaring name ty scopes) fields name = some ty := by
  obtain ⟨scope, scopes, rfl⟩ := List.exists_cons_of_ne_nil h
  simp [declaredType?, declaring]

theorem declaredType?_declaring_ne (h : x ≠ name) :
    declaredType? (declaring name ty scopes) fields x = declaredType? scopes fields x := by
  cases scopes with
  | nil => rfl
  | cons scope scopes => simp [declaredType?, declaring, List.findSome?_cons, List.lookup_cons, beq_false_of_ne h]

/-- Without the innermost scope, a name that it does not declare stands for the same. -/
theorem declaredType?_cons {scope : Scope} (h : scope.any (·.1 == x) = false) :
    declaredType? (scope :: scopes) fields x = declaredType? scopes fields x := by
  have hnone : scope.lookup x = none := List.lookup_eq_none_iff.mpr fun d hd =>
    bne_iff_ne.mpr fun e => List.any_eq_false.mp h d hd (beq_iff_eq.mpr e.symm)
  rw [declaredType?, List.findSome?_cons, hnone]
  rfl

end Constants

/-! ## Where expressions stand -/

/-- An expression of a program, what is declared where it stands, and the type of the local variable that it is the
initial value of, if it is one. -/
structure Site where
  fields : Scope
  scopes : List Scope
  into : Option Ty
  expr : Expr

namespace Site

/-- The type of a name by its innermost declaration. -/
def type? (σ : Site) (x : String) : Option Ty := Constants.declaredType? σ.scopes σ.fields x

/-- The place of an expression that may be missing. -/
def optional (fields : Scope) (scopes : List Scope) (into : Option Ty) (e : Option Expr) : List Site :=
  (e.map (⟨fields, scopes, into, ·⟩)).toList

theorem all_optional_some (p : Site → Bool) (fields : Scope) (scopes : List Scope) (into : Option Ty) (e : Expr) :
    (optional fields scopes into (some e)).all p = p ⟨fields, scopes, into, e⟩ := Bool.and_true _

end Site

section

variable (fields : Scope)

namespace Stmt

mutual

/-- The expressions of a statement. -/
def sites (scopes : List Scope) : Stmt → List Site
  | block _ ss => sitesAll ([] :: scopes) ss
  | expr _ e => [⟨fields, scopes, none, e⟩]
  | localVar _ ty _ init => Site.optional fields scopes (some ty.value) init
  | ifElse _ c t none => ⟨fields, scopes, none, c⟩ :: sites scopes t
  | ifElse _ c t (some e) => ⟨fields, scopes, none, c⟩ :: (sites scopes t ++ sites scopes e)
  | whileLoop _ c b => ⟨fields, scopes, none, c⟩ :: sites scopes b
  | forLoop _ none c u b =>
    Site.optional fields ([] :: scopes) none c ++
      (Site.optional fields ([] :: scopes) none u ++ sites ([] :: scopes) b)
  | forLoop _ (some i) c u b =>
    let inner := i.declared ([] :: scopes)
    sites ([] :: scopes) i ++ (Site.optional fields inner none c ++
      (Site.optional fields inner none u ++ sites inner b))
  | ret _ e => Site.optional fields scopes none e
  | brk _ | cont _ | empty _ => []

def sitesAll (scopes : List Scope) : List Stmt → List Site
  | [] => []
  | s :: ss => sites scopes s ++ sitesAll (s.declared scopes) ss

end

end Stmt

/-- The expressions of a method. -/
def MethodDecl.sites (d : MethodDecl) : List Site := Stmt.sitesAll fields [[], d.scope] d.body.stmts

/-- The expressions of a field or method. -/
def Member.sites : Member → List Site
  | field _ d => Site.optional fields [] none d.init
  | method _ d => d.sites fields

end

/-- The expressions of a class. -/
def ClassDecl.sites (c : ClassDecl) : List Site := c.members.flatMap (Member.sites c.fields)

/-- The expressions of a program. -/
def CompilationUnit.sites (unit : CompilationUnit) : List Site := unit.classes.flatMap ClassDecl.sites

end JavaFold
