import JavaFold.Proofs.Tree.WellFormed

/-!
# What names mean

A name stands for the variable or parameter of that name that has been declared before it in the
innermost scope, and otherwise for the field of the class. Blocks, `for` loops, methods and classes are
scopes. `Names.uses` lists the names of a tree with what they stand for, given what names stand for
around it; `Names.scopes` lists the scopes with the variables that are declared in them.
-/

namespace JavaFold

namespace Names

open OrderedTree

/-- What a name can stand for: a member of a class, a parameter of a method, or a variable. -/
inductive Declaration
  | field (owner : NodeId) (index : Nat)
  | param (method : NodeId) (index : Nat)
  | localVar (node : NodeId)
deriving DecidableEq, Repr

/-- The node with the declaration. -/
def Declaration.node : Declaration → NodeId
  | field id _ | param id _ | localVar id => id

/-- A declared name. -/
abbrev Declared := String × Declaration

/-- What each name stands for at a point. -/
abbrev Meaning := String → Option Declaration

/-- Names that are declared stand for that from there on, and for the last of several. -/
def Meaning.declare (m : Meaning) : List Declared → Meaning
  | [] => m
  | d :: ds => declare (fun x => if x = d.1 then some d.2 else m x) ds

/-- Whether what is declared in a node of a kind is not known after it. -/
def isScope : NodeKind → Bool
  | .unit | .classDecl _ _ | .method _ _ _ _ => true
  | .stmt .block | .stmt (.forLoop _ _ _) => true
  | _ => false

/-- What a node declares itself. -/
def declaration : Placed → List Declared
  | ⟨id, .stmt (.localVar _ name), _⟩ => [(name, .localVar id)]
  | _ => []

mutual

/-- The variables that a tree declares in the scope around it. A variable is declared after its
initial value. -/
def declares : OrderedTree Placed → List Declared
  | .node p ss => if isScope p.kind then [] else declaresAll ss ++ declaration p

def declaresAll : List (OrderedTree Placed) → List Declared
  | [] => []
  | s :: ss => declares s ++ declaresAll ss

end

/-- The name of the field that a node declares. -/
def fieldName? : NodeKind → Option String
  | .field _ _ name => some name
  | _ => none

/-- What is declared at the beginning of a node, given the kinds of the nodes below it: the fields of
a class, and the parameters of a method. -/
def entered (p : Placed) (children : List NodeKind) : List Declared :=
  match p.kind with
  | .classDecl _ _ =>
    children.zipIdx.filterMap fun (kind, i) => (fieldName? kind).map (·, .field p.id i)
  | .method _ _ _ params => params.zipIdx.map fun (param, i) => (param.name, .param p.id i)
  | _ => []

mutual

/-- Everything that is declared anywhere in a tree. -/
def declarations : OrderedTree Placed → List Declared
  | .node p ss => declaration p ++ (entered p (ss.map (·.label.kind)) ++ declarationsAll ss)

def declarationsAll : List (OrderedTree Placed) → List Declared
  | [] => []
  | s :: ss => declarations s ++ declarationsAll ss

end

/-- A name with what it stands for. -/
structure Use where
  node : NodeId
  name : String
  declaration : Option Declaration
deriving DecidableEq, Repr

mutual

/-- The names in a tree. -/
def uses (m : Meaning) : OrderedTree Placed → List Use
  | .node p ss =>
    (p.kind.name?.map fun x => ⟨p.id, x, m x⟩).toList ++
      usesAll (m.declare (entered p (ss.map (·.label.kind)))) ss

def usesAll (m : Meaning) : List (OrderedTree Placed) → List Use
  | [] => []
  | s :: ss => uses m s ++ usesAll (m.declare (declares s)) ss

end

/-- The names of a program. -/
def ofProgram (s : OrderedTree Placed) : List Use := uses (fun _ => none) s

mutual

/-- The scopes in a tree, each with the variables that it declares. -/
def scopes : OrderedTree Placed → List (List Declared)
  | .node p ss => (if isScope p.kind then [declaresAll ss] else []) ++ scopesAll ss

def scopesAll : List (OrderedTree Placed) → List (List Declared)
  | [] => []
  | s :: ss => scopes s ++ scopesAll ss

end

mutual

/-- The names in a tree that stand for something outside it. -/
def free : OrderedTree Placed → List String
  | .node p ss =>
    p.kind.name?.toList ++
      (freeAll ss).filter fun x => !((entered p (ss.map (·.label.kind))).map (·.1)).contains x

def freeAll : List (OrderedTree Placed) → List String
  | [] => []
  | s :: ss => free s ++ (freeAll ss).filter fun x => !((declares s).map (·.1)).contains x

end

variable {m m' : Meaning} {x : String} {s : OrderedTree Placed} {ss us : List (OrderedTree Placed)}

/-! ## Declaring -/

theorem declare_append (m : Meaning) (ds es : List Declared) :
    m.declare (ds ++ es) = (m.declare ds).declare es := by
  induction ds generalizing m with
  | nil => rfl
  | cons d ds ih => exact ih _

theorem declare_of_not_mem : ∀ {ds : List Declared} {m : Meaning}, x ∉ ds.map (·.1) →
    m.declare ds x = m x
  | [], _, _ => rfl
  | d :: ds, m, h => by
    rw [List.map_cons, List.mem_cons, not_or] at h
    rw [Meaning.declare, declare_of_not_mem h.2]
    simp [h.1]

/-- What is declared does not depend on what a name stood for before. -/
theorem declare_congr : ∀ {ds : List Declared} {m m' : Meaning}, (x ∉ ds.map (·.1) → m x = m' x) →
    m.declare ds x = m'.declare ds x
  | [], _, _, h => h (by simp)
  | d :: ds, m, m', h => by
    show Meaning.declare _ ds x = Meaning.declare _ ds x
    refine declare_congr fun hx => ?_
    by_cases he : x = d.1
    · simp [he]
    · simpa [he] using h (by simp [he, List.mem_map] at hx ⊢; exact hx)

theorem mem_of_declare : ∀ {ds : List Declared} {m : Meaning}, x ∈ ds.map (·.1) →
    ∃ d, (x, d) ∈ ds ∧ m.declare ds x = some d
  | d :: ds, m, h => by
    by_cases hx : x ∈ ds.map (·.1)
    · obtain ⟨e, he, hd⟩ := mem_of_declare (m := fun y => if y = d.1 then some d.2 else m y) hx
      exact ⟨e, List.mem_cons_of_mem _ he, hd⟩
    · have he : x = d.1 := by
        rw [List.map_cons, List.mem_cons] at h
        exact h.resolve_right hx
      subst he
      exact ⟨d.2, List.mem_cons_self, by rw [Meaning.declare, declare_of_not_mem hx, if_pos rfl]⟩

/-! ## Lists of trees -/

theorem declaresAll_append (ss us : List (OrderedTree Placed)) :
    declaresAll (ss ++ us) = declaresAll ss ++ declaresAll us := by
  induction ss with
  | nil => rfl
  | cons s ss ih => rw [List.cons_append, declaresAll, ih, declaresAll, List.append_assoc]

theorem usesAll_append (m : Meaning) (ss us : List (OrderedTree Placed)) :
    usesAll m (ss ++ us) = usesAll m ss ++ usesAll (m.declare (declaresAll ss)) us := by
  induction ss generalizing m with
  | nil => rfl
  | cons s ss ih =>
    rw [List.cons_append, usesAll, ih, usesAll, declaresAll, declare_append, List.append_assoc]

theorem scopesAll_append (ss us : List (OrderedTree Placed)) :
    scopesAll (ss ++ us) = scopesAll ss ++ scopesAll us := by
  induction ss with
  | nil => rfl
  | cons s ss ih => rw [List.cons_append, scopesAll, ih, scopesAll, List.append_assoc]

/-! ## Where declarations are -/

theorem declarationsAll_append (ss us : List (OrderedTree Placed)) :
    declarationsAll (ss ++ us) = declarationsAll ss ++ declarationsAll us := by
  induction ss with
  | nil => rfl
  | cons s ss ih =>
    rw [List.cons_append, declarationsAll, ih, declarationsAll, List.append_assoc]

theorem node_of_mem_declaration {p : Placed} {d : Declared} (h : d ∈ declaration p) :
    d.2.node = p.id := by
  unfold declaration at h
  split at h
  · rw [List.mem_singleton.mp h]
    rfl
  · cases h

theorem node_of_mem_entered {p : Placed} {children : List NodeKind} {d : Declared}
    (h : d ∈ entered p children) : d.2.node = p.id := by
  unfold entered at h
  split at h
  · obtain ⟨q, -, hq⟩ := List.mem_filterMap.mp h
    obtain ⟨x, -, rfl⟩ := Option.map_eq_some_iff.mp hq
    rfl
  · obtain ⟨q, -, rfl⟩ := List.mem_map.mp h
    rfl
  · cases h

mutual

theorem declarations_within : ∀ (s : OrderedTree Placed), ∀ d ∈ declarations s, d.2.node ∈ s.ids
  | .node p ss, d, h => by
    rw [declarations, List.mem_append, List.mem_append] at h
    rw [ids_node, List.mem_cons]
    rcases h with h | h | h
    · exact .inl (node_of_mem_declaration h)
    · exact .inl (node_of_mem_entered h)
    · exact .inr (declarationsAll_within ss d h)

theorem declarationsAll_within : ∀ (ss : List (OrderedTree Placed)), ∀ d ∈ declarationsAll ss,
    d.2.node ∈ idsAll ss
  | [], d, h => nomatch h
  | s :: ss, d, h => by
    rw [idsAll_cons]
    rcases List.mem_append.mp h with h | h
    · exact List.mem_append_left _ (declarations_within s d h)
    · exact List.mem_append_right _ (declarationsAll_within ss d h)

end

mutual

theorem declares_subset : ∀ s : OrderedTree Placed, declares s ⊆ declarations s
  | .node p ss, d, h => by
    rw [declares] at h
    rw [declarations, List.mem_append, List.mem_append]
    split at h
    · cases h
    · rcases List.mem_append.mp h with h | h
      · exact .inr (.inr (declaresAll_subset ss h))
      · exact .inl h

theorem declaresAll_subset : ∀ ss : List (OrderedTree Placed), declaresAll ss ⊆ declarationsAll ss
  | [], d, h => nomatch h
  | s :: ss, d, h => by
    rw [declarationsAll, List.mem_append]
    exact (List.mem_append.mp h).imp (fun h => declares_subset s h) fun h => declaresAll_subset ss h

end

mutual

theorem scopes_subset : ∀ (s : OrderedTree Placed), ∀ l ∈ scopes s, l ⊆ declarations s
  | .node p ss, l, hl, d, hd => by
    rw [declarations, List.mem_append, List.mem_append]
    refine .inr (.inr ?_)
    rw [scopes, List.mem_append] at hl
    rcases hl with hl | hl
    · split at hl
      · rw [List.mem_singleton.mp hl] at hd
        exact declaresAll_subset ss hd
      · cases hl
    · exact scopesAll_subset ss l hl hd

theorem scopesAll_subset : ∀ (ss : List (OrderedTree Placed)), ∀ l ∈ scopesAll ss,
    l ⊆ declarationsAll ss
  | [], l, hl, d, hd => nomatch hl
  | s :: ss, l, hl, d, hd => by
    rw [declarationsAll, List.mem_append]
    exact (List.mem_append.mp hl).imp (fun hl => scopes_subset s l hl hd)
      fun hl => scopesAll_subset ss l hl hd

end

/-- A name in a declaring context stands for what is declared or for what it stood for before. -/
theorem declare_cases (m : Meaning) (ds : List Declared) (x : String) :
    m.declare ds x = m x ∨ ∃ d, (x, d) ∈ ds ∧ m.declare ds x = some d := by
  by_cases hx : x ∈ ds.map (·.1)
  · exact .inr (mem_of_declare hx)
  · exact .inl (declare_of_not_mem hx)

mutual

/-- A name stands for what it stands for around the tree, or for something declared in it. -/
theorem declaration_of_mem_uses : ∀ (s : OrderedTree Placed) (m : Meaning), ∀ u ∈ uses m s,
    u.declaration = m u.name ∨ ∃ d ∈ declarations s, u.declaration = some d.2
  | .node p ss, m, u, hu => by
    rw [uses, List.mem_append] at hu
    rcases hu with hu | hu
    · simp only [Option.mem_toList, Option.map_eq_some_iff] at hu
      obtain ⟨x, -, rfl⟩ := hu
      exact .inl rfl
    · rcases declaration_of_mem_usesAll ss _ u hu with h | ⟨d, hd, h⟩
      · rcases declare_cases m (entered p (ss.map (·.label.kind))) u.name with he | ⟨d, hd, he⟩
        · exact .inl (h.trans he)
        · exact .inr ⟨(u.name, d), by simp [declarations, hd], h.trans he⟩
      · exact .inr ⟨d, by simp [declarations, hd], h⟩

theorem declaration_of_mem_usesAll : ∀ (ss : List (OrderedTree Placed)) (m : Meaning),
    ∀ u ∈ usesAll m ss,
      u.declaration = m u.name ∨ ∃ d ∈ declarationsAll ss, u.declaration = some d.2
  | [], m, u, hu => nomatch hu
  | s :: ss, m, u, hu => by
    rw [usesAll, List.mem_append] at hu
    rw [declarationsAll]
    rcases hu with hu | hu
    · rcases declaration_of_mem_uses s m u hu with h | ⟨d, hd, h⟩
      · exact .inl h
      · exact .inr ⟨d, List.mem_append_left _ hd, h⟩
    · rcases declaration_of_mem_usesAll ss _ u hu with h | ⟨d, hd, h⟩
      · rcases declare_cases m (declares s) u.name with he | ⟨d, hd, he⟩
        · exact .inl (h.trans he)
        · exact .inr ⟨_, List.mem_append_left _ (declares_subset s hd), h.trans he⟩
      · exact .inr ⟨d, List.mem_append_right _ hd, h⟩

end

mutual

/-- A free name occurs, and stands for what it stands for around the tree. -/
theorem exists_use_of_free : ∀ (s : OrderedTree Placed), ∀ x ∈ free s,
    ∃ id, ∀ m : Meaning, ⟨id, x, m x⟩ ∈ uses m s
  | .node p ss, x, hx => by
    rw [free, List.mem_append] at hx
    rcases hx with hx | hx
    · refine ⟨p.id, fun m => ?_⟩
      rw [Option.mem_toList] at hx
      rw [uses, hx]
      exact List.mem_append_left _ List.mem_cons_self
    · rw [List.mem_filter] at hx
      obtain ⟨id, hu⟩ := exists_useAll_of_free ss x hx.1
      refine ⟨id, fun m => List.mem_append_right _ ?_⟩
      have hm := hu (m.declare (entered p (ss.map (·.label.kind))))
      rwa [declare_of_not_mem (by simpa using hx.2)] at hm

theorem exists_useAll_of_free : ∀ (ss : List (OrderedTree Placed)), ∀ x ∈ freeAll ss,
    ∃ id, ∀ m : Meaning, ⟨id, x, m x⟩ ∈ usesAll m ss
  | [], x, hx => nomatch hx
  | s :: ss, x, hx => by
    rw [freeAll, List.mem_append] at hx
    rcases hx with hx | hx
    · obtain ⟨id, hu⟩ := exists_use_of_free s x hx
      exact ⟨id, fun m => List.mem_append_left _ (hu m)⟩
    · rw [List.mem_filter] at hx
      obtain ⟨id, hu⟩ := exists_useAll_of_free ss x hx.1
      refine ⟨id, fun m => List.mem_append_right _ ?_⟩
      have hm := hu (m.declare (declares s))
      rwa [declare_of_not_mem (by simpa using hx.2)] at hm

end

end Names

end JavaFold
