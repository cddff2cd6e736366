import JavaFold.Files.Store

/-!
# What a file system holds

Where a path leads to does not depend on what is there, once the directories along it are (`Path.place`), and
nothing that is done to a file system takes a directory away. So each change is described by what is at a
location afterwards (`FileStore.at?`): writing changes one location, and making directories changes the ones along
a path where nothing was.
-/

namespace JavaFold

/-! ## Where paths lead to -/

/-- The location one part of a path further on. -/
def Location.next (loc : Location) (part : String) : Location :=
  if part = "." then loc else if part = ".." then loc.dropLast else loc ++ [part]

/-- Where a path leads to from the directory `cwd`, if the directories along it are there. -/
def Path.place (cwd : Location) (p : Path) : Location :=
  p.parts.foldl Location.next (if p.absolute then [] else cwd)

/-- Whether a name can stand for an entry of a directory: it leads somewhere, and not up. -/
def IsEntryName (name : String) : Prop := Path.isBlank name = false ∧ name ≠ ".."

theorem IsEntryName.ne_dot {name : String} (h : IsEntryName name) : name ≠ "." := by
  rintro rfl
  cases h.1

namespace Path

variable {names : List String}

theorem parts_dot (pieces : List String) : parts ⟨false, "." :: pieces⟩ = "." :: pieces.filter (!isBlank ·) := rfl

theorem parts_of_absolute (pieces : List String) : parts ⟨true, pieces⟩ = pieces.filter (!isBlank ·) := rfl

theorem parts_of_ne {piece : String} (h : piece ≠ ".") (pieces : List String) :
    parts ⟨false, piece :: pieces⟩ = (piece :: pieces).filter (!isBlank ·) := by
  simp [parts, h]

theorem filter_of_isEntryName (h : ∀ name ∈ names, IsEntryName name) : names.filter (!isBlank ·) = names :=
  List.filter_eq_self.mpr fun name hn => by simp [(h name hn).1]

theorem parts_pieces_append (h : ∀ name ∈ names, IsEntryName name) (absolute : Bool) (pieces : List String) :
    parts ⟨absolute, pieces ++ names⟩ = parts ⟨absolute, pieces⟩ ++ names := by
  cases absolute with
  | true => rw [parts_of_absolute, parts_of_absolute, List.filter_append, filter_of_isEntryName h]
  | false =>
    match pieces with
    | [] =>
      match names with
      | [] => rfl
      | name :: names =>
        rw [List.nil_append, parts_of_ne (h name List.mem_cons_self).ne_dot, filter_of_isEntryName h]
        rfl
    | piece :: pieces =>
      by_cases hd : piece = "."
      · subst hd
        rw [List.cons_append, parts_dot, parts_dot, List.filter_append, filter_of_isEntryName h, List.cons_append]
      · rw [List.cons_append, parts_of_ne hd, parts_of_ne hd, ← List.cons_append, List.filter_append,
          filter_of_isEntryName h]

theorem parts_concat_empty (absolute : Bool) (pieces : List String) :
    parts ⟨absolute, pieces ++ [""]⟩ = parts ⟨absolute, pieces⟩ := by
  have hblank : [""].filter (!isBlank ·) = [] := rfl
  cases absolute with
  | true => rw [parts_of_absolute, parts_of_absolute, List.filter_append, hblank, List.append_nil]
  | false =>
    match pieces with
    | [] => rfl
    | piece :: pieces =>
      by_cases hd : piece = "."
      · subst hd
        rw [List.cons_append, parts_dot, parts_dot, List.filter_append, hblank, List.append_nil]
      · rw [List.cons_append, parts_of_ne hd, parts_of_ne hd, ← List.cons_append, List.filter_append, hblank,
          List.append_nil]

/-- The parts of the path of a file below a directory are those of the directory and the names on the way. -/
theorem parts_append (p : Path) (h : ∀ name ∈ names, IsEntryName name) :
    (p.append names).parts = p.parts ++ names := by
  obtain ⟨absolute, pieces⟩ := p
  unfold append
  split
  · next hempty => rw [List.isEmpty_iff.mp hempty, List.append_nil]
  · split
    · next hlast =>
      obtain ⟨init, hinit⟩ := List.getLast?_eq_some_iff.mp hlast
      have hpieces : pieces = init ++ [""] := hinit
      rw [parts_pieces_append h, hpieces, List.dropLast_concat, parts_concat_empty]
    · exact parts_pieces_append h absolute pieces

theorem absolute_append (p : Path) (names : List String) : (p.append names).absolute = p.absolute := by
  unfold append
  split
  · rfl
  · split <;> rfl

theorem foldl_next (h : ∀ name ∈ names, IsEntryName name) (loc : Location) :
    names.foldl Location.next loc = loc ++ names := by
  induction names generalizing loc with
  | nil => simp
  | cons name names ih =>
    have hname := h name List.mem_cons_self
    rw [List.foldl_cons, ih (fun n hn => h n (List.mem_cons_of_mem _ hn)), Location.next, if_neg hname.ne_dot,
      if_neg hname.2, List.append_assoc, List.singleton_append]

/-- A file below a directory has its place below that of the directory. -/
theorem place_append (cwd : Location) (p : Path) (h : ∀ name ∈ names, IsEntryName name) :
    (p.append names).place cwd = p.place cwd ++ names := by
  rw [place, parts_append p h, absolute_append, List.foldl_append, foldl_next h]
  rfl

end Path

namespace FileEntry

/-- The text of what there is, if it is a file. -/
def textOf? : Option FileEntry → Option String
  | some (.file text) => some text
  | _ => none

theorem eq_of_textOf? {entry : Option FileEntry} {text : String} (h : textOf? entry = some text) :
    entry = some (.file text) := by
  rcases entry with _ | text' | _
  · cases h
  · cases h
    rfl
  · cases h

end FileEntry

namespace FileStore

variable {s s' : FileStore} {loc l cwd : Location} {p : Path} {entry : FileEntry}

theorem eq_of_follow? : ∀ {parts : List String} {loc l : Location}, s.follow? loc parts = some l →
    l = parts.foldl Location.next loc
  | [], _, _, h => (Option.some.inj h).symm
  | part :: parts, loc, l, h => by
    rw [follow?] at h
    split at h
    · exact (eq_of_follow? h : l = parts.foldl Location.next (loc.next part))
    · cases h

theorem eq_of_locate? (h : s.locate? cwd p = some l) : l = p.place cwd := by
  unfold locate? at h
  split at h
  · cases h
  · exact eq_of_follow? h

/-- What a path leads to is at its place. -/
theorem at?_of_entry? (h : s.entry? cwd p = some entry) : s.at? (p.place cwd) = some entry := by
  unfold entry? at h
  obtain ⟨l, hl, h⟩ := Option.bind_eq_some_iff.mp h
  obtain ⟨e, he, h⟩ := Option.bind_eq_some_iff.mp h
  rw [← eq_of_locate? hl, he]
  split at h
  · cases h
  · exact h

/-! ## Changes -/

@[simp] theorem at?_nil (s : FileStore) : s.at? [] = some .directory := rfl

theorem lookup_map_of_ne (hl : l ≠ loc) (entries : List (Location × FileEntry)) :
    (entries.map fun e => if e.1 = loc then (loc, entry) else e).lookup l = entries.lookup l := by
  induction entries with
  | nil => rfl
  | cons e entries ih =>
    obtain ⟨place, e⟩ := e
    rw [List.map_cons]
    split
    · next he =>
      have hne : (l == place) = false := beq_false_of_ne fun h => hl (h.trans he)
      rw [List.lookup_cons, List.lookup_cons, beq_false_of_ne hl, hne, ih]
    · rw [List.lookup_cons, List.lookup_cons, ih]

theorem lookup_map_self (entries : List (Location × FileEntry)) :
    (entries.map fun e => if e.1 = loc then (loc, entry) else e).lookup loc =
      (entries.lookup loc).map fun _ => entry := by
  induction entries with
  | nil => rfl
  | cons e entries ih =>
    obtain ⟨place, e⟩ := e
    rw [List.map_cons]
    split
    · next he =>
      have he : place = loc := he
      simp [he]
    · next he =>
      have hne : (loc == place) = false := beq_false_of_ne fun h => he h.symm
      rw [List.lookup_cons, List.lookup_cons, hne, ih]

theorem at?_of_ne_nil (hl : l ≠ []) : s.at? l = s.entries.lookup l := by
  rw [at?, if_neg (by simpa using hl)]

theorem lookup_put (l : Location) :
    (s.put loc entry).entries.lookup l = if l = loc then some entry else s.entries.lookup l := by
  unfold put
  split
  · next h =>
    by_cases hl : l = loc
    · obtain ⟨e, he⟩ := Option.isSome_iff_exists.mp h
      rw [hl, lookup_map_self, he, if_pos rfl, Option.map_some]
    · rw [lookup_map_of_ne hl, if_neg hl]
  · next h =>
    rw [Bool.not_eq_true, Option.isSome_eq_false_iff, Option.isNone_iff_eq_none] at h
    rw [List.lookup_append, List.lookup_cons]
    by_cases hl : l = loc
    · simp [hl, h]
    · simp [hl, beq_false_of_ne hl]

theorem at?_put (hloc : loc ≠ []) (l : Location) :
    (s.put loc entry).at? l = if l = loc then some entry else s.at? l := by
  by_cases hl : l = []
  · rw [hl, at?_nil, at?_nil, if_neg hloc.symm]
  · rw [at?_of_ne_nil hl, at?_of_ne_nil hl, lookup_put]

/-- A file is written at the place of its path. -/
theorem at?_write? {text : String} (h : s.write? cwd p text = some s') (l : Location) :
    s'.at? l = if l = p.place cwd then some (.file text) else s.at? l := by
  unfold write? at h
  obtain ⟨loc, hloc, h⟩ := Option.bind_eq_some_iff.mp h
  rw [← eq_of_locate? hloc]
  split at h
  · cases h
  · next hn =>
    cases h
    refine at?_put (fun hnil => hn (.inr ?_)) l
    rw [hnil, at?_nil]

/-- The locations along the parts of a path at which directories are made. -/
def along (loc : Location) : List String → List Location
  | [] => []
  | part :: parts =>
    if part = "." ∨ part = ".." then along (loc.next part) parts
    else loc.next part :: along (loc.next part) parts

/-- Directories are made along a path where nothing is. -/
theorem at?_makeAlong? : ∀ {parts : List String} {s s' : FileStore} {loc : Location},
    s.makeAlong? loc parts = some s' → ∀ l,
      s'.at? l = (s.at? l).or (if l ∈ along loc parts then some .directory else none)
  | [], s, s', loc, h, l => by
    cases h
    simp [along]
  | part :: parts, s, s', loc, h, l => by
    rw [makeAlong?] at h
    by_cases hdot : part = "."
    · rw [if_pos hdot] at h
      have halong : along loc (part :: parts) = along loc parts := by simp [along, Location.next, hdot]
      rw [at?_makeAlong? h l, halong]
    rw [if_neg hdot] at h
    by_cases hup : part = ".."
    · rw [if_pos hup] at h
      have halong : along loc (part :: parts) = along loc.dropLast parts := by simp [along, Location.next, hup]
      rw [at?_makeAlong? h l, halong]
    rw [if_neg hup] at h
    have halong : along loc (part :: parts) = (loc ++ [part]) :: along (loc ++ [part]) parts := by
      simp [along, Location.next, hdot, hup]
    have hnil : loc ++ [part] ≠ [] := by simp
    rw [halong]
    split at h
    · cases h
    · dsimp only at h
      split at h
      · next hdir =>
        rw [at?_makeAlong? h l]
        by_cases hl : l = loc ++ [part]
        · simp [hl, hdir]
        · simp [hl]
      · cases h
      · next hnone =>
        rw [at?_makeAlong? h l, at?_put hnil]
        by_cases hl : l = loc ++ [part]
        · simp [hl, hnone]
        · simp [hl]

/-! ## Trees of files -/

/-- Each location is listed once, and is made of names of entries. -/
structure IsTree (s : FileStore) : Prop where
  nodup : (s.entries.map Prod.fst).Nodup
  names : ∀ e ∈ s.entries, ∀ name ∈ e.1, IsEntryName name

variable {files : List Location}

theorem eq_append_of_below? {loc names : Location} {e : Location × FileEntry} (h : below? loc e = some names) :
    e.1 = loc ++ names := by
  obtain ⟨place, entry⟩ := e
  cases entry with
  | directory => cases h
  | file text =>
    rw [below?] at h
    split at h
    · next hp =>
      obtain ⟨rest, rfl⟩ := List.isPrefixOf_iff_prefix.mp hp
      cases h
      rw [List.drop_left]
    · cases h

/-- The files below a directory are found once, by names of entries. -/
theorem IsTree.filesBelow? (h : s.IsTree) (hfiles : s.filesBelow? cwd p = some files) :
    files.Nodup ∧ ∀ names ∈ files, ∀ name ∈ names, IsEntryName name := by
  unfold FileStore.filesBelow? at hfiles
  obtain ⟨entry, hentry, hfiles⟩ := Option.bind_eq_some_iff.mp hfiles
  cases entry with
  | file => cases hfiles
  | directory =>
    obtain ⟨loc, hloc, hfiles⟩ := Option.bind_eq_some_iff.mp hfiles
    cases hfiles
    constructor
    · refine (List.pairwise_filterMap).mpr ((List.pairwise_map.mp h.nodup).imp fun hne a ha b hb heq => hne ?_)
      rw [eq_append_of_below? ha, eq_append_of_below? hb, heq]
    · intro names hnames name hname
      obtain ⟨e, he, hbelow⟩ := List.mem_filterMap.mp hnames
      refine h.names e he name ?_
      rw [eq_append_of_below? hbelow]
      exact List.mem_append_right _ hname

end FileStore

end JavaFold
