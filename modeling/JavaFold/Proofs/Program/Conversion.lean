import JavaFold.Proofs.Program.Execution

/-!
# Runs with conversions

A variable may take another value than the one that it is given: a `long` or a `char` holds a number of its own kind,
whatever the type of the number is. An assignment then has the value that the variable takes. A `Conversion` says which
types of variables do so, none of which is one that literals are held by. In these runs values are literals, and nothing
is on record (`Semantics.converting`); the plain ones among them are those where no type does so (`Semantics.plain`).
-/

namespace JavaFold

open Constants (Scope)

/-- Whether a type is that of strings. -/
def Ty.isString : Ty → Bool
  | named name => name == "String" || name == "java.lang.String"
  | _ => false

/-- Whether literals of a type mean what they say: `int`, `boolean` and the type of strings. -/
def Ty.isPlain : Ty → Bool
  | int | boolean => true
  | ty => ty.isString

theorem Ty.isPlain_of_holds {ty : Ty} {v : Literal} (h : Constants.holds ty v = true) : ty.isPlain = true := by
  cases ty <;> cases v <;> first | rfl | exact h | cases h

/-- Every type other than `int`, `boolean` and that of strings takes values of its own, and so does a type that is
missing. -/
def Conversion.ofOthers (convert : Option Ty → Literal → Literal) : Conversion Literal where
  other ty := !ty.any Ty.isPlain
  convert := convert
  held ty v h := by rw [Option.any_some, Ty.isPlain_of_holds h, Bool.not_true]

/-- Values are literals, and a conversion says what variables take. -/
def Execution.Semantics.converting (cv : Conversion Literal) : Execution.Semantics Literal Unit where
  ofLiteral v := v
  literal v := v
  result _ v log := (v, log)
  compare? _ _ _ := none
  conversion := cv
  record _ _ log := log
  start := ()
  literal_ofLiteral _ := rfl
  result_eq _ _ := rfl

/-- Values are literals, and variables take the values that they are given. -/
def Execution.Semantics.plain : Execution.Semantics Literal Unit := .converting .none

/-! ## Values before they are converted -/

namespace Expr

section

variable (other : String → Bool)

/-- Whether the value of an expression is computed from one that is assigned in it to a variable of the names `other`,
and so may be another value once that variable has taken it. -/
def carries : Expr → Bool
  | binary _ _ l r => carries l || carries r
  | unary _ (.step _) _ => false
  | unary _ _ e => carries e
  | assign _ op t v => if t.name?.any other then op == .plain else carries v
  | _ => false

mutual

/-- Whether no variable apart from those of the names `other` is assigned such a value. -/
def unmixed : Expr → Bool
  | literal _ _ | name _ _ => true
  | binary _ _ l r => unmixed l && unmixed r
  | unary _ _ e | postStep _ _ e => unmixed e
  | assign _ _ t v => unmixed v && (t.name?.any other || !carries other v)
  | call _ _ args => unmixedAll args

def unmixedAll : List Expr → Bool
  | [] => true
  | e :: es => unmixed e && unmixedAll es

end

end

/-- Without variables of that kind no value is one before a conversion. -/
theorem carries_eq_false {other : String → Bool} (h : ∀ x, other x = false) : ∀ e : Expr, e.carries other = false
  | literal _ _ | name _ _ | unary _ (.step _) _ | postStep _ _ _ | call _ _ _ => rfl
  | binary _ _ l r => Bool.or_eq_false_iff.mpr ⟨carries_eq_false h l, carries_eq_false h r⟩
  | unary _ .neg e | unary _ .not e | unary _ .bitNot e => carries_eq_false h e
  | assign _ op t v => by
    have hany : t.name?.any other = false := by cases t.name? <;> simp [h]
    rw [carries, hany, if_neg Bool.false_ne_true, carries_eq_false h v]

mutual

theorem unmixed_eq_true {other : String → Bool} (h : ∀ x, other x = false) : ∀ e : Expr, e.unmixed other = true
  | literal _ _ | name _ _ => rfl
  | binary _ _ l r => Bool.and_eq_true_iff.mpr ⟨unmixed_eq_true h l, unmixed_eq_true h r⟩
  | unary _ _ e | postStep _ _ e => unmixed_eq_true h e
  | assign _ _ t v => by rw [unmixed, unmixed_eq_true h v, carries_eq_false h v, Bool.not_false, Bool.or_true]; rfl
  | call _ _ args => unmixedAll_eq_true h args

theorem unmixedAll_eq_true {other : String → Bool} (h : ∀ x, other x = false) : ∀ es : List Expr,
    unmixedAll other es = true
  | [] => rfl
  | e :: es => Bool.and_eq_true_iff.mpr ⟨unmixed_eq_true h e, unmixedAll_eq_true h es⟩

end

end Expr

variable {V : Type}

/-- Whether no variable of a type that takes the values it is given, gets a value in an expression or from it that is
computed from one assigned to a variable of another type. -/
def Site.unmixed (cv : Conversion V) (σ : Site) : Bool :=
  σ.expr.unmixed (cv.others σ.fields σ.scopes) &&
    σ.into.all fun ty => cv.other (some ty) || !σ.expr.carries (cv.others σ.fields σ.scopes)

/-- Whether this is so in all of a field or method. -/
def Member.unmixed (cv : Conversion V) (fields : Scope) (m : Member) : Bool := (m.sites fields).all (Site.unmixed cv)

/-- This is so everywhere if no type takes values of its own. -/
theorem Site.unmixed_none (σ : Site) : σ.unmixed (.none : Conversion V) = true := by
  have hnone : ∀ x, (Conversion.none : Conversion V).others σ.fields σ.scopes x = false := fun _ => rfl
  rw [unmixed, Expr.unmixed_eq_true hnone, Expr.carries_eq_false hnone]
  cases σ.into <;> rfl

theorem Member.unmixed_none (fields : Scope) (m : Member) : m.unmixed (.none : Conversion V) fields = true :=
  List.all_eq_true.mpr fun σ _ => σ.unmixed_none

end JavaFold
