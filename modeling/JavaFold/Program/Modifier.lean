import JavaFold.Token.Basic

/-!
# Modifiers

The words that may stand in front of a declaration.
-/

namespace JavaFold

/-- A word in front of a declaration. -/
inductive Modifier
  | «public» | «private» | «protected» | «static» | «final»
deriving DecidableEq, Repr, Inhabited

namespace Modifier

/-- The reserved word that spells the modifier. -/
def keyword : Modifier → Keyword
  | «public» => .«public»
  | «private» => .«private»
  | «protected» => .«protected»
  | «static» => .«static»
  | «final» => .«final»

def text (m : Modifier) : String := m.keyword.text

/-- The modifier that a token spells. -/
def ofToken? : Token → Option Modifier
  | .keyword .«public» => some «public»
  | .keyword .«private» => some «private»
  | .keyword .«protected» => some «protected»
  | .keyword .«static» => some «static»
  | .keyword .«final» => some «final»
  | _ => none

theorem ofToken?_keyword (m : Modifier) : ofToken? (.keyword m.keyword) = some m := by
  cases m <;> rfl

theorem eq_keyword_of_ofToken? {t : Token} {m : Modifier} (h : ofToken? t = some m) :
    t = .keyword m.keyword := by
  unfold ofToken? at h
  split at h <;> cases h <;> rfl

end Modifier

end JavaFold
