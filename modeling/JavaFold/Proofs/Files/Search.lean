import Mathlib.Algebra.GroupWithZero.Nat
import Mathlib.Data.List.Induction
import Mathlib.Data.List.Nodup
import Mathlib.Data.List.Perm.Basic
import JavaFold.Files.Search
import JavaFold.Files.Folding
import JavaFold.Proofs.Files.Store

/-!
# A search finds each program once

In a tree of files, what is below a directory (`FileStore.under`) is what is in it, and what is below the directories
in it (`FileStore.under_perm`). A search keeps this apart: what it has found and what is below the directories whose
turn has not come are together always the same (`Listing.search?_perm`). Each turn leaves one directory less, so the
search ends, and it has found all programs, each of them once, in whatever order the entries of the directories are
named (`Listing.programsBelow?_eq`).
-/

namespace JavaFold

namespace FileStore

variable {s : FileStore} {cwd loc l rest : Location} {name : String} {entry : FileEntry} {p : Path}

/-- A tree of files: each entry stands in a directory, under a name that a directory can hold. -/
structure IsFileTree (s : FileStore) : Prop extends IsTree s where
  ne_nil : ∀ e ∈ s.entries, e.1 ≠ []
  within : ∀ e ∈ s.entries, s.at? e.1.dropLast = some .directory
  valid : ∀ e ∈ s.entries, ∀ name ∈ e.1, isName name = true

/-! ## What is at a location -/

theorem lookup_eq_of_mem {entries : List (Location × FileEntry)} (h : (entries.map Prod.fst).Nodup)
    (hmem : (l, entry) ∈ entries) : entries.lookup l = some entry := by
  induction entries with
  | nil => cases hmem
  | cons e entries ih =>
    obtain ⟨place, e⟩ := e
    rw [List.map_cons, List.nodup_cons] at h
    rcases List.mem_cons.mp hmem with heq | hmem'
    · cases heq
      exact List.lookup_cons_self
    · have hne : (l == place) = false := by
        refine beq_false_of_ne ?_
        rintro rfl
        exact h.1 (List.mem_map.mpr ⟨_, hmem', rfl⟩)
      rw [List.lookup_cons, hne]
      exact ih h.2 hmem'

theorem IsTree.at?_eq_some_iff (h : s.IsTree) (hl : l ≠ []) : s.at? l = some entry ↔ (l, entry) ∈ s.entries := by
  rw [at?_of_ne_nil hl]
  constructor
  · intro hlookup
    obtain ⟨before, after, heq, -⟩ := List.lookup_eq_some_iff.mp hlookup
    rw [heq]
    exact List.mem_append_right _ List.mem_cons_self
  · exact lookup_eq_of_mem h.nodup

/-- All locations on the way to an entry are directories. -/
theorem IsFileTree.directory_of_append (h : s.IsFileTree) : ∀ {l rest : Location} {entry : FileEntry},
    (l ++ rest, entry) ∈ s.entries → rest ≠ [] → s.at? l = some .directory := by
  intro l rest
  induction rest using List.reverseRecOn with
  | nil => exact fun _ hne => absurd rfl hne
  | append_singleton init x ih =>
    intro entry hmem _
    have hwithin := h.within _ hmem
    rw [← List.append_assoc, List.dropLast_concat] at hwithin
    by_cases hinit : init = []
    · rwa [hinit, List.append_nil] at hwithin
    · have hne : l ++ init ≠ [] := fun he => hinit (List.append_eq_nil_iff.mp he).2
      exact ih ((h.at?_eq_some_iff hne).mp hwithin) hinit

/-! ## What is below a location -/

/-- What is below a location, by the names on the way from there. -/
def under? (loc : Location) : Location × FileEntry → Option (Location × FileEntry)
  | (place, entry) => if loc <+: place ∧ place ≠ loc then some (place.drop loc.length, entry) else none

def under (s : FileStore) (loc : Location) : List (Location × FileEntry) := s.entries.filterMap (under? loc)

theorem eq_of_under? {e : Location × FileEntry} (h : under? loc e = some (rest, entry)) :
    rest ≠ [] ∧ e = (loc ++ rest, entry) := by
  obtain ⟨place, e⟩ := e
  rw [under?] at h
  split at h
  · next hp =>
    obtain ⟨rest', rfl⟩ := hp.1
    rw [List.drop_left] at h
    cases h
    refine ⟨?_, rfl⟩
    rintro rfl
    exact hp.2 (List.append_nil _)
  · cases h

theorem mem_under : (rest, entry) ∈ s.under loc ↔ rest ≠ [] ∧ (loc ++ rest, entry) ∈ s.entries := by
  rw [under, List.mem_filterMap]
  constructor
  · rintro ⟨e, he, hunder⟩
    obtain ⟨hne, rfl⟩ := eq_of_under? hunder
    exact ⟨hne, he⟩
  · rintro ⟨hne, he⟩
    refine ⟨_, he, ?_⟩
    rw [under?, if_pos ⟨List.prefix_append _ _, fun h => hne (List.append_right_eq_self.mp h)⟩, List.drop_left]

theorem eq_of_nameIn? {e : Location × FileEntry} (h : nameIn? loc e = some (name, entry)) :
    e = (loc ++ [name], entry) := by
  obtain ⟨place, e⟩ := e
  rw [nameIn?] at h
  split at h
  · next hp =>
    obtain ⟨last, hlast, heq⟩ := Option.map_eq_some_iff.mp h
    cases heq
    obtain ⟨init, rfl⟩ := List.getLast?_eq_some_iff.mp hlast
    rw [← hp, List.dropLast_concat]
  · cases h

theorem mem_entriesAt : (name, entry) ∈ s.entriesAt loc ↔ (loc ++ [name], entry) ∈ s.entries := by
  rw [entriesAt, List.mem_filterMap]
  constructor
  · rintro ⟨e, he, hname⟩
    obtain rfl := eq_of_nameIn? hname
    exact he
  · intro he
    exact ⟨_, he, by rw [nameIn?, if_pos List.dropLast_concat, List.getLast?_concat]; rfl⟩

theorem IsTree.nodup_under (h : s.IsTree) (loc : Location) : (s.under loc).Nodup := by
  refine List.pairwise_filterMap.mpr ((List.pairwise_map.mp h.nodup).imp fun hne a ha b hb heq => hne ?_)
  rw [(eq_of_under? ha).2, (eq_of_under? hb).2, heq]

theorem IsTree.nodup_entriesAt (h : s.IsTree) (loc : Location) : (s.entriesAt loc).Nodup := by
  refine List.pairwise_filterMap.mpr ((List.pairwise_map.mp h.nodup).imp fun hne a ha b hb heq => hne ?_)
  rw [eq_of_nameIn? ha, eq_of_nameIn? hb, heq]

/-- What stands below an entry of a directory, by the names on the way from that directory. -/
def underEntry (s : FileStore) (loc : Location) : String × FileEntry → List (Location × FileEntry)
  | (name, .directory) => (s.under (loc ++ [name])).map fun e => (name :: e.1, e.2)
  | (_, .file _) => []

theorem mem_underEntry {e : String × FileEntry} : (rest, entry) ∈ s.underEntry loc e ↔
    e.2 = .directory ∧ ∃ names, rest = e.1 :: names ∧ names ≠ [] ∧ (loc ++ rest, entry) ∈ s.entries := by
  obtain ⟨name, _ | _⟩ := e
  · simp [underEntry]
  · rw [underEntry, List.mem_map]
    constructor
    · rintro ⟨⟨names, e⟩, he, heq⟩
      cases heq
      obtain ⟨hne, he⟩ := mem_under.mp he
      exact ⟨rfl, names, rfl, hne, by rwa [List.append_assoc] at he⟩
    · rintro ⟨-, names, rfl, hne, he⟩
      refine ⟨(names, entry), mem_under.mpr ⟨hne, ?_⟩, rfl⟩
      rwa [List.append_assoc]

/-- What is below a directory is what is in it, and what is below the directories in it. -/
theorem IsFileTree.under_perm (h : s.IsFileTree) (loc : Location) : (s.under loc).Perm
    ((s.entriesAt loc).map (fun e => ([e.1], e.2)) ++ (s.entriesAt loc).flatMap (s.underEntry loc)) := by
  have hsingle : ((s.entriesAt loc).map fun e => (([e.1], e.2) : Location × FileEntry)).Nodup := by
    refine (h.nodup_entriesAt loc).map fun a b heq => ?_
    obtain ⟨hname, hentry⟩ := Prod.mk.inj heq
    exact Prod.ext (List.cons.inj hname).1 hentry
  have hdeep : ((s.entriesAt loc).flatMap (s.underEntry loc)).Nodup := by
    refine List.nodup_flatMap.mpr ⟨fun e _ => ?_, (h.nodup_entriesAt loc).imp_of_mem fun {a b} ha hb hne => ?_⟩
    · obtain ⟨name, _ | _⟩ := e
      · exact List.nodup_nil
      · refine (h.nodup_under _).map fun a b heq => ?_
        obtain ⟨hname, hentry⟩ := Prod.mk.inj heq
        exact Prod.ext (List.cons.inj hname).2 hentry
    · rintro ⟨rest, entry⟩ hina hinb
      obtain ⟨hda, _, hra, -⟩ := mem_underEntry.mp hina
      obtain ⟨hdb, _, hrb, -⟩ := mem_underEntry.mp hinb
      exact hne (Prod.ext (List.cons.inj (hra.symm.trans hrb)).1 (hda.trans hdb.symm))
  have hall := List.nodup_append.mpr ⟨hsingle, hdeep, ?_⟩
  · refine (List.perm_ext_iff_of_nodup (h.nodup_under loc) hall).mpr ?_
    rintro ⟨rest, entry⟩
    rw [mem_under, List.mem_append, List.mem_map, List.mem_flatMap]
    constructor
    · rintro ⟨hne, he⟩
      match rest with
      | [] => exact absurd rfl hne
      | [name] => exact .inl ⟨(name, entry), mem_entriesAt.mpr he, rfl⟩
      | name :: next :: rest =>
        have hdir : s.at? (loc ++ [name]) = some .directory := by
          have hdeep : (loc ++ [name] ++ next :: rest, entry) ∈ s.entries := by rwa [List.append_assoc]
          exact h.directory_of_append hdeep (by simp)
        have hin := (h.at?_eq_some_iff (by simp)).mp hdir
        exact .inr ⟨(name, .directory), mem_entriesAt.mpr hin, mem_underEntry.mpr ⟨rfl, _, rfl, by simp, he⟩⟩
    · rintro (⟨⟨name, e⟩, he, heq⟩ | ⟨⟨name, e⟩, -, hin⟩)
      · cases heq
        exact ⟨by simp, mem_entriesAt.mp he⟩
      · obtain ⟨-, names, rfl, -, he⟩ := mem_underEntry.mp hin
        exact ⟨by simp, he⟩
  · rintro a ha b hb rfl
    obtain ⟨e, -, rfl⟩ := List.mem_map.mp ha
    obtain ⟨e', -, hin⟩ := List.mem_flatMap.mp hb
    obtain ⟨-, names, heq, hne, -⟩ := mem_underEntry.mp hin
    exact hne (List.cons.inj heq).2.symm

/-! ## Where a search goes -/

theorem follow?_append (s : FileStore) : ∀ (loc : Location) (parts parts' : List String),
    s.follow? loc (parts ++ parts') = (s.follow? loc parts).bind fun l => s.follow? l parts'
  | loc, [], parts' => rfl
  | loc, part :: parts, parts' => by
    rw [List.cons_append, follow?, follow?]
    split
    · exact follow?_append s _ parts parts'
    · rfl

/-- A path that leads to a directory goes on to an entry of it. -/
theorem locate?_append_singleton (hp : s.locate? cwd p = some loc) (hdir : s.at? loc = some .directory)
    (hname : IsEntryName name) (hvalid : isName name = true) :
    s.locate? cwd (p.append [name]) = some (loc ++ [name]) := by
  unfold locate? at hp ⊢
  have hempty : p.isEmpty = false := by
    cases he : p.isEmpty with
    | false => rfl
    | true =>
      rw [if_pos he] at hp
      cases hp
  have hempty' : (p.append [name]).isEmpty = false := by
    unfold Path.append
    split
    · exact hempty
    · split <;> simp [Path.isEmpty]
  rw [if_neg (by simp [hempty])] at hp
  rw [if_neg (by simp [hempty']), Path.absolute_append, Path.parts_append p (by simpa using hname), follow?_append, hp,
    Option.bind_some, follow?, if_pos ⟨hdir, hvalid⟩]
  simp only [if_neg hname.ne_dot, if_neg hname.2]
  rfl

/-- A path that a search can go on from. -/
def Leads (s : FileStore) (cwd : Location) (p : Path) : Prop :=
  s.locate? cwd p = some (p.place cwd) ∧ s.at? (p.place cwd) = some .directory

theorem leads_of_entry? (h : s.entry? cwd p = some .directory) : s.Leads cwd p := by
  refine ⟨?_, at?_of_entry? h⟩
  unfold entry? at h
  obtain ⟨l, hl, -⟩ := Option.bind_eq_some_iff.mp h
  rw [hl, eq_of_locate? hl]

theorem Leads.entry? (h : s.Leads cwd p) : s.entry? cwd p = some .directory := by
  rw [FileStore.entry?, h.1]
  simp [h.2]

theorem Leads.listing (h : s.Leads cwd p) : s.listing cwd p = some (s.entriesAt (p.place cwd)) := by
  rw [FileStore.listing, h.entry?, h.1]
  rfl

theorem entry?_cases (h : s.entry? cwd p ≠ some .directory) :
    s.entry? cwd p = none ∨ ∃ text, s.entry? cwd p = some (.file text) := by
  rcases hentry : s.entry? cwd p with _ | text | _
  · exact .inl rfl
  · exact .inr ⟨text, rfl⟩
  · exact absurd hentry h

theorem listing_eq_none (h : s.entry? cwd p ≠ some .directory) : s.listing cwd p = none := by
  rcases entry?_cases h with he | ⟨text, he⟩ <;> rw [listing, he] <;> rfl

theorem filesBelow?_eq_none (h : s.entry? cwd p ≠ some .directory) : s.filesBelow? cwd p = none := by
  rcases entry?_cases h with he | ⟨text, he⟩ <;> rw [filesBelow?, he] <;> rfl

theorem IsFileTree.isEntryName (h : s.IsFileTree) (hmem : (name, entry) ∈ s.entriesAt loc) :
    IsEntryName name ∧ isName name = true := by
  have he := mem_entriesAt.mp hmem
  exact ⟨h.names _ he name (by simp), h.valid _ he name (by simp)⟩

theorem IsFileTree.place_append (h : s.IsFileTree) (hmem : (name, entry) ∈ s.entriesAt (p.place cwd)) :
    (p.append [name]).place cwd = p.place cwd ++ [name] :=
  Path.place_append cwd p (by simpa using (h.isEntryName hmem).1)

theorem Leads.append (h : s.Leads cwd p) (ht : s.IsFileTree)
    (hmem : (name, .directory) ∈ s.entriesAt (p.place cwd)) : s.Leads cwd (p.append [name]) := by
  obtain ⟨hname, hvalid⟩ := ht.isEntryName hmem
  rw [Leads, ht.place_append hmem]
  exact ⟨locate?_append_singleton h.1 h.2 hname hvalid,
    (ht.at?_eq_some_iff (by simp)).mpr (mem_entriesAt.mp hmem)⟩

/-! ## What a search finds -/

/-- A file system answers with the entries of the directory, in some order. -/
def IsListing (s : FileStore) (cwd : Location) (read : Listing) : Prop :=
  ∀ p, Option.Rel List.Perm (read p) (s.listing cwd p)

theorem isListing_listing (s : FileStore) (cwd : Location) : s.IsListing cwd (s.listing cwd) := fun p => by
  cases s.listing cwd p with
  | none => exact .none
  | some entries => exact .some (.refl _)

/-- The path of a program below a directory. -/
def program? (dir : Path) : Location × FileEntry → Option Path
  | (rest, .file _) => if FileWork.isProgram rest then some (dir.append rest) else none
  | (_, .directory) => none

/-- The programs below a directory. -/
def programsUnder (s : FileStore) (cwd : Location) (dir : Path) : List Path :=
  (s.under (dir.place cwd)).filterMap (program? dir)

theorem filterMap_program?_single (dir : Path) (entries : List (String × FileEntry)) :
    (entries.map fun e => (([e.1], e.2) : Location × FileEntry)).filterMap (program? dir) =
      Listing.programs dir entries := by
  rw [List.filterMap_map, Listing.programs]
  refine List.filterMap_congr fun e _ => ?_
  obtain ⟨name, _ | _⟩ := e
  · simp [program?, FileWork.isProgram]
  · rfl

theorem append_cons {dir : Path} (h : IsEntryName name) (hrest : rest ≠ []) :
    (dir.append [name]).append rest = dir.append (name :: rest) := by
  have hname : name ≠ "" := by
    rintro rfl
    cases h.1
  by_cases hlast : dir.pieces.getLast? = some ""
  · simp [Path.append, hlast, hname, hrest]
  · simp [Path.append, hlast, hname, hrest]

/-- What is found below an entry of a directory is what is found below its path. -/
theorem IsFileTree.filterMap_underEntry (h : s.IsFileTree) {e : String × FileEntry}
    (hmem : e ∈ s.entriesAt (p.place cwd)) : (s.underEntry (p.place cwd) e).filterMap (program? p) =
      (Listing.directories p [e]).flatMap (s.programsUnder cwd) := by
  obtain ⟨name, _ | _⟩ := e
  · rfl
  · simp only [underEntry, Listing.directories, List.filterMap_cons, List.filterMap_nil, List.flatMap_cons,
      List.flatMap_nil, List.append_nil, List.filterMap_map, programsUnder, h.place_append hmem]
    refine List.filterMap_congr fun e he => ?_
    obtain ⟨rest, _ | _⟩ := e
    · have hrest := (mem_under.mp he).1
      obtain ⟨next, rest, rfl⟩ := List.exists_cons_of_ne_nil hrest
      simp only [Function.comp_apply, program?, append_cons (h.isEntryName hmem).1 hrest]
      rfl
    · rfl

theorem directories_cons (dir : Path) (e : String × FileEntry) (entries : List (String × FileEntry)) :
    Listing.directories dir (e :: entries) = Listing.directories dir [e] ++ Listing.directories dir entries :=
  List.filterMap_append (l := [e]) ..

/-- The programs below a directory are those in it, and those below the directories in it. -/
theorem IsFileTree.programsUnder_perm (h : s.IsFileTree) (dir : Path) : (s.programsUnder cwd dir).Perm
    (Listing.programs dir (s.entriesAt (dir.place cwd)) ++
      (Listing.directories dir (s.entriesAt (dir.place cwd))).flatMap (s.programsUnder cwd)) := by
  have hdeep : ∀ entries : List (String × FileEntry), (∀ e ∈ entries, e ∈ s.entriesAt (dir.place cwd)) →
      (entries.flatMap (s.underEntry (dir.place cwd))).filterMap (program? dir) =
        (Listing.directories dir entries).flatMap (s.programsUnder cwd) := by
    intro entries
    induction entries with
    | nil => exact fun _ => rfl
    | cons e entries ih =>
      intro hmem
      rw [List.flatMap_cons, List.filterMap_append, directories_cons, List.flatMap_append,
        h.filterMap_underEntry (hmem e List.mem_cons_self), ih fun e he => hmem e (List.mem_cons_of_mem _ he)]
  have hperm := (h.under_perm (dir.place cwd)).filterMap (program? dir)
  rwa [List.filterMap_append, filterMap_program?_single, hdeep _ fun _ he => he] at hperm

/-- The number of directories that a search which begins at a directory reads. -/
def directoryCount (s : FileStore) (cwd : Location) (dir : Path) : Nat :=
  1 + (s.under (dir.place cwd)).countP fun e => e.2 = .directory

theorem IsFileTree.directoryCount_eq (h : s.IsFileTree) (dir : Path) : s.directoryCount cwd dir =
    1 + ((Listing.directories dir (s.entriesAt (dir.place cwd))).map (s.directoryCount cwd)).sum := by
  have hsum : ∀ entries : List (String × FileEntry), (∀ e ∈ entries, e ∈ s.entriesAt (dir.place cwd)) →
      (entries.map fun e => (([e.1], e.2) : Location × FileEntry)).countP (fun e => e.2 = .directory) +
        (entries.flatMap (s.underEntry (dir.place cwd))).countP (fun e => e.2 = .directory) =
      ((Listing.directories dir entries).map (s.directoryCount cwd)).sum := by
    intro entries
    induction entries with
    | nil => exact fun _ => rfl
    | cons e entries ih =>
      intro hmem
      have hrest := ih fun e he => hmem e (List.mem_cons_of_mem _ he)
      rw [directories_cons, List.map_append, List.sum_append, ← hrest, List.map_cons, List.countP_cons,
        List.flatMap_cons, List.countP_append]
      obtain ⟨name, _ | _⟩ := e
      · simp [underEntry, Listing.directories]
      · simp [underEntry, Listing.directories, directoryCount, h.place_append (hmem _ List.mem_cons_self),
          List.countP_map, Function.comp_def]
        omega
  rw [directoryCount, (h.under_perm (dir.place cwd)).countP_eq, List.countP_append, hsum _ fun _ he => he]

end FileStore

namespace Listing

open FileStore

variable {s : FileStore} {cwd : Location} {read : Listing} {dir : Path}

/-- A search ends, and what it has found then is what it had found before and what is below the directories whose
turn had not come. -/
theorem search?_perm (h : s.IsFileTree) (hread : s.IsListing cwd read) : ∀ (count : Nat) (pending found : List Path),
    (∀ dir ∈ pending, s.Leads cwd dir) → (pending.map (s.directoryCount cwd)).sum ≤ count →
      ∃ result, search? read pending found = some result ∧
        result.Perm (found ++ pending.flatMap (s.programsUnder cwd))
  | count, [], found, _, _ => by
    refine ⟨found, ?_, by simp⟩
    rw [search?]
  | 0, dir :: pending, found, _, hcount => by
    rw [List.map_cons, List.sum_cons, directoryCount] at hcount
    omega
  | count + 1, dir :: pending, found, hleads, hcount => by
    have hdir := hleads dir List.mem_cons_self
    obtain ⟨entries, hentries, hperm⟩ : ∃ entries, read dir = some entries ∧
        entries.Perm (s.entriesAt (dir.place cwd)) := by
      have hrel := hread dir
      rw [hdir.listing] at hrel
      generalize read dir = answer at hrel
      cases hrel with
      | some hperm => exact ⟨_, rfl, hperm⟩
    have hdirs : (directories dir entries).reverse.Perm (directories dir (s.entriesAt (dir.place cwd))) :=
      (List.reverse_perm _).trans (hperm.filterMap _)
    have hfiles : (programs dir entries).Perm (programs dir (s.entriesAt (dir.place cwd))) := hperm.filterMap _
    have hnext : ∀ next ∈ (directories dir entries).reverse ++ pending, s.Leads cwd next := by
      intro next hmem
      rcases List.mem_append.mp hmem with hmem | hmem
      · obtain ⟨⟨name, entry⟩, hin, heq⟩ := List.mem_filterMap.mp (hdirs.mem_iff.mp hmem)
        cases entry with
        | file => cases heq
        | directory =>
          cases heq
          exact hdir.append h hin
      · exact hleads next (List.mem_cons_of_mem _ hmem)
    have hless : (((directories dir entries).reverse ++ pending).map (s.directoryCount cwd)).sum ≤ count := by
      rw [List.map_append, List.sum_append, (hdirs.map _).sum_nat]
      rw [List.map_cons, List.sum_cons, h.directoryCount_eq] at hcount
      omega
    obtain ⟨result, hresult, hfound⟩ := search?_perm h hread count _ (found ++ programs dir entries) hnext hless
    refine ⟨result, ?_, hfound.trans ?_⟩
    · rw [search?, hentries]
      exact hresult
    · rw [List.append_assoc, List.flatMap_append, List.flatMap_cons, ← List.append_assoc (programs dir entries)]
      refine (List.Perm.refl found).append (.append ?_ (.refl _))
      exact (hfiles.append (hdirs.flatMap_right _)).trans (h.programsUnder_perm dir).symm

/-! ## In the order of their paths -/

theorem relativeTo?_append {names : List String} (h : ∀ name ∈ names, IsEntryName name) (dir : Path) :
    (dir.append names).relativeTo? dir = some names := by
  rw [Path.relativeTo?, Path.absolute_append, Path.parts_append dir h, if_pos ⟨rfl, List.prefix_append _ _⟩,
    List.drop_left]

theorem append_lt_append_iff (l : List String) {a b : List String} : l ++ a < l ++ b ↔ a < b := by
  induction l with
  | nil => rfl
  | cons x l ih => simp [ih]

theorem parts_append_lt_iff {a b : List String} (ha : ∀ name ∈ a, IsEntryName name)
    (hb : ∀ name ∈ b, IsEntryName name) : (dir.append a).parts < (dir.append b).parts ↔ a < b := by
  rw [Path.parts_append dir ha, Path.parts_append dir hb, append_lt_append_iff]

/-- Sorting by a key leaves no later one with a smaller key. -/
theorem pairwise_sorted {α : Type} (key : α → List String) (l : List α) :
    (l.mergeSort fun a b => !(key b < key a)).Pairwise fun a b => ¬key b < key a := by
  have hsorted := @List.pairwise_mergeSort _ (fun a b => !decide (key b < key a))
    (fun a b c hab hbc => by
      simp only [Bool.not_eq_true', decide_eq_false_iff_not] at hab hbc ⊢
      exact List.not_lt.mpr (List.le_trans (List.not_lt.mp hab) (List.not_lt.mp hbc)))
    (fun a b => by
      simp only [Bool.or_eq_true, Bool.not_eq_true', decide_eq_false_iff_not]
      exact (List.le_total (key a) (key b)).imp List.not_lt.mpr List.not_lt.mpr) l
  refine hsorted.imp fun hab => ?_
  simpa only [Bool.not_eq_true', decide_eq_false_iff_not] using hab

theorem eq_of_not_lt {a b : List String} (hab : ¬b < a) (hba : ¬a < b) : a = b :=
  List.le_antisymm (List.not_lt.mp hab) (List.not_lt.mp hba)

/-- The programs below a directory are its files that are programs, by the names on the way to them. -/
theorem programsUnder_eq (h : s.IsFileTree) (hdir : s.Leads cwd dir) : s.programsUnder cwd dir =
    ((s.entries.filterMap (below? (dir.place cwd))).filter FileWork.isProgram).map dir.append := by
  rw [programsUnder, under, List.filterMap_filterMap, ← List.filterMap_eq_filter, List.filterMap_filterMap,
    List.map_filterMap]
  refine List.filterMap_congr fun e he => ?_
  obtain ⟨place, text | _⟩ := e
  · have hne : place ≠ dir.place cwd := by
      rintro rfl
      have hfile := (h.at?_eq_some_iff (h.ne_nil _ he)).mpr he
      rw [hdir.2] at hfile
      cases hfile
    by_cases hp : dir.place cwd <+: place
    · simp [under?, below?, program?, hp, hne, Option.guard_def, apply_ite]
    · simp [under?, below?, hp]
  · by_cases hp : dir.place cwd <+: place ∧ place ≠ dir.place cwd
    · simp [under?, below?, program?, hp]
    · simp [under?, below?, hp]

/-- The paths of files in order are those of the files in the order of their names. -/
theorem mergeSort_eq_map {files : List (List String)} {found : List Path}
    (hnames : ∀ names ∈ files, ∀ name ∈ names, IsEntryName name) (h : found.Perm (files.map dir.append)) :
    (found.mergeSort fun a b => !(b.parts < a.parts)) = (files.mergeSort fun a b => !(b < a)).map dir.append := by
  have hsorted : ∀ names ∈ files.mergeSort fun a b => !(b < a), ∀ name ∈ names, IsEntryName name :=
    fun names hmem => hnames names (List.mem_mergeSort.mp hmem)
  refine @List.Perm.eq_of_pairwise _ (fun a b => ¬b.parts < a.parts) _ _ ?_ (pairwise_sorted _ _) ?_ ?_
  · intro a b ha hb hab hba
    obtain ⟨f, hf, rfl⟩ := List.mem_map.mp (h.mem_iff.mp (List.mem_mergeSort.mp ha))
    obtain ⟨g, hg, rfl⟩ := List.mem_map.mp hb
    have hparts := eq_of_not_lt hab hba
    rw [Path.parts_append dir (hnames f hf), Path.parts_append dir (hsorted g hg)] at hparts
    rw [List.append_cancel_left hparts]
  · refine List.pairwise_map.mpr ((pairwise_sorted id files).imp_of_mem fun {a b} ha hb hab => ?_)
    rwa [parts_append_lt_iff (hsorted b hb) (hsorted a ha)]
  · exact (List.mergeSort_perm _ _).trans (h.trans ((List.mergeSort_perm _ _).symm.map _))

/-- A search finds the programs among the files below a directory, each of them once, in the order of their paths. -/
theorem programsBelow?_eq (h : s.IsFileTree) (hread : s.IsListing cwd read) (dir : Path) :
    programsBelow? read dir = (s.filesBelow? cwd dir).map fun found =>
      ((found.filter FileWork.isProgram).mergeSort fun a b => !(b < a)).map dir.append := by
  by_cases hentry : s.entry? cwd dir = some .directory
  · have hdir := leads_of_entry? hentry
    have hbelow : s.filesBelow? cwd dir = some (s.entries.filterMap (below? (dir.place cwd))) := by
      rw [filesBelow?, hentry, hdir.1]
      rfl
    obtain ⟨result, hresult, hfound⟩ := search?_perm h hread _ [dir] [] (by simpa using hdir) (Nat.le_refl _)
    rw [List.nil_append, List.flatMap_singleton, programsUnder_eq h hdir] at hfound
    have hnames := (h.filesBelow? hbelow).2
    rw [programsBelow?, hresult, hbelow, Option.map_some, Option.map_some,
      mergeSort_eq_map (fun names hmem => hnames names (List.mem_filter.mp hmem).1) hfound]
  · have hnone : read dir = none := by
      have hrel := hread dir
      rw [listing_eq_none hentry] at hrel
      generalize read dir = answer at hrel
      cases hrel
      rfl
    rw [programsBelow?, search?, hnone, filesBelow?_eq_none hentry]
    rfl

end Listing

end JavaFold
