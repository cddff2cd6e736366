import Mathlib.Data.List.Infix
import JavaFold.CommandLine.Run
import JavaFold.Proofs.Files.Search

/-!
# Which configuration file is found

The nearest configuration file is the one in the directory itself or in the nearest directory above it that holds one
(`FileStore.Governs`). `Config.find` goes along the text of a path instead and drops one part after another
(`Path.wayBack`). The first file on this way is found (`Config.run_find`), and it is the nearest one exactly if its
directory is at or above the one that the search starts from (`Config.find_nearest_iff`): nothing that is above the
start can be passed by, because each step leads one directory up, or down, or nowhere (`Location.prefix_of_next`).

A path without two dots never leads down on the way back, but a relative one ends at the working directory, so a file
above it is missed. Two dots are dropped like a name, which leads down, to a file that does not govern the start
(`Config.find_misses`).
-/

namespace JavaFold

/-! ## Dropping the last part of a path -/

namespace Path

theorem filter_dropWhile_isBlank (pieces : List String) :
    (pieces.dropWhile isBlank).filter (!isBlank ·) = pieces.filter (!isBlank ·) := by
  induction pieces with
  | nil => rfl
  | cons piece pieces ih => cases h : isBlank piece <;> simp [h, ih]

/-- The first piece that is left when blank ones have been dropped is not blank. -/
theorem filter_tail_dropWhile_isBlank (pieces : List String) :
    (pieces.dropWhile isBlank).tail.filter (!isBlank ·) = (pieces.filter (!isBlank ·)).tail := by
  induction pieces with
  | nil => rfl
  | cons piece pieces ih => cases h : isBlank piece <;> simp [h, ih]

theorem filter_dropLastNamed (pieces : List String) :
    (dropLastNamed pieces).filter (!isBlank ·) = (pieces.filter (!isBlank ·)).dropLast := by
  rw [dropLastNamed, List.filter_reverse, filter_dropWhile_isBlank, List.drop_one, filter_tail_dropWhile_isBlank,
    List.filter_reverse, List.tail_reverse, List.reverse_reverse]

theorem dropLastNamed_prefix (pieces : List String) : dropLastNamed pieces <+: pieces := by
  rw [dropLastNamed, ← List.reverse_suffix, List.reverse_reverse]
  exact (List.dropWhile_suffix _).trans ((List.drop_suffix _ _).trans (List.dropWhile_suffix _))

variable {p q : Path}

theorem parent?_eq_none_iff : p.parent? = none ↔ p.parts = [] := by
  unfold parent?
  split
  · next h => simp [List.isEmpty_iff.mp h]
  · next h => split <;> simp_all

/-- A relative path that does not begin with a dot is left with one that does not either. -/
theorem parts_dropLastNamed {piece : String} (h : piece ≠ ".") (pieces : List String) :
    parts ⟨false, dropLastNamed (piece :: pieces)⟩ = (parts ⟨false, piece :: pieces⟩).dropLast := by
  rw [parts_of_ne h, ← filter_dropLastNamed]
  obtain ⟨rest, hrest⟩ := dropLastNamed_prefix (piece :: pieces)
  match dropLastNamed (piece :: pieces), hrest with
  | [], _ => rfl
  | first :: left, hrest =>
    obtain ⟨rfl, -⟩ := List.cons.inj hrest
    exact parts_of_ne h left

/-- A dot at the start is left until it is the only part. -/
theorem parts_dot_dropLastNamed (pieces : List String) :
    parts ⟨false, if pieces.all isBlank then [] else "." :: dropLastNamed pieces⟩ =
      (parts ⟨false, "." :: pieces⟩).dropLast := by
  rw [parts_dot]
  split
  · next hblank =>
    have hnone : pieces.filter (!isBlank ·) = [] := by simpa using hblank
    rw [hnone]
    rfl
  · next hblank =>
    have hsome : pieces.filter (!isBlank ·) ≠ [] := by simpa using hblank
    rw [parts_dot, filter_dropLastNamed, List.dropLast_cons_of_ne_nil hsome]

/-- The path above a path has its parts but the last one. -/
theorem parts_parent? (h : p.parent? = some q) : q.absolute = p.absolute ∧ q.parts = p.parts.dropLast := by
  have hparts : p.parts.isEmpty = false := by
    rw [List.isEmpty_eq_false_iff, ne_eq, ← parent?_eq_none_iff, h]
    nofun
  obtain ⟨_ | _, pieces⟩ := p
  · match pieces with
    | [] => cases h
    | piece :: pieces =>
      by_cases hd : piece = "."
      · subst hd
        have hq : some ⟨false, if pieces.all isBlank then [] else "." :: dropLastNamed pieces⟩ = some q := h
        cases hq
        exact ⟨rfl, parts_dot_dropLastNamed pieces⟩
      · simp only [parent?, hparts, Bool.false_eq_true, if_false] at h
        split at h
        · next heq => exact absurd (List.cons.inj heq).1 hd
        · cases h
          exact ⟨rfl, parts_dropLastNamed hd pieces⟩
  · rw [parent?, if_neg (by simp [hparts])] at h
    cases h
    exact ⟨rfl, filter_dropLastNamed pieces⟩

theorem length_parts_parent? (h : p.parent? = some q) : p.parts.length = q.parts.length + 1 := by
  have hne : p.parts ≠ [] := fun hnil => by
    rw [parent?_eq_none_iff.mpr hnil] at h
    cases h
  rw [(parts_parent? h).2, List.length_dropLast, Nat.sub_add_cancel (List.length_pos_of_ne_nil hne)]

/-- Going up from a path ends at one without parts. -/
theorem induction_parent? {motive : Path → Prop} (root : ∀ p, p.parts = [] → motive p)
    (step : ∀ p q, p.parent? = some q → motive q → motive p) (p : Path) : motive p := by
  induction hn : p.parts.length generalizing p with
  | zero => exact root p (List.eq_nil_of_length_eq_zero hn)
  | succ n ih =>
    cases hq : p.parent? with
    | none =>
      rw [parent?_eq_none_iff.mp hq] at hn
      cases hn
    | some q => exact step p q hq (ih q (Nat.succ.inj ((length_parts_parent? hq).symm.trans hn)))

theorem isEmpty_append (p : Path) (name : String) : (p.append [name]).isEmpty = false := by
  unfold append
  rw [if_neg (by simp)]
  split <;> simp [isEmpty]

theorem asDirectory_append (p : Path) {name : String} (h : IsEntryName name) :
    (p.append [name]).asDirectory = false := by
  unfold append
  rw [if_neg (by simp)]
  split <;> simp [asDirectory, h.1]

/-- Where a path starts. -/
def start (cwd : Location) (p : Path) : Location := if p.absolute then [] else cwd

/-- The locations that a path leads to as its last parts are dropped one by one, down to where it starts. -/
def wayBack (cwd : Location) (p : Path) : List Location :=
  (p.parts.inits.map fun parts => parts.foldl Location.next (p.start cwd)).reverse

variable (cwd : Location)

theorem wayBack_of_root (h : p.parts = []) : p.place cwd = p.start cwd ∧ p.wayBack cwd = [p.start cwd] := by
  rw [place, wayBack, h]
  exact ⟨rfl, rfl⟩

/-- A path is one part further on than the path above it. -/
theorem wayBack_of_parent? (h : p.parent? = some q) : q.start cwd = p.start cwd ∧ ∃ part, p.parts = q.parts ++ [part] ∧
    p.place cwd = (q.place cwd).next part ∧ p.wayBack cwd = p.place cwd :: q.wayBack cwd := by
  obtain ⟨habsolute, hparts⟩ := parts_parent? h
  have hstart : q.start cwd = p.start cwd := by rw [start, start, habsolute]
  have hne : p.parts ≠ [] := List.ne_nil_of_length_pos (by rw [length_parts_parent? h]; exact Nat.succ_pos _)
  obtain ⟨part, hconcat⟩ : ∃ part, p.parts = q.parts ++ [part] :=
    ⟨p.parts.getLast hne, by rw [hparts, List.dropLast_append_getLast]⟩
  have hplace : ∀ r : Path, r.place cwd = r.parts.foldl Location.next (r.start cwd) := fun _ => rfl
  refine ⟨hstart, part, hconcat, ?_, ?_⟩
  · rw [hplace, hplace, hstart, hconcat, List.foldl_append, List.foldl_cons, List.foldl_nil]
  · rw [wayBack, wayBack, hplace, hstart, hconcat, List.inits_append, List.map_append, List.reverse_append]
    simp

end Path

namespace Location

/-- One step further on leads one directory down, or up, or nowhere: what is above the end, and not the end, is above
the beginning. -/
theorem prefix_of_next {l loc : Location} {part : String} (h : l <+: loc.next part) (hne : l ≠ loc.next part) :
    l <+: loc := by
  unfold next at h hne
  split at h
  · exact h
  · next hdot =>
    split at h
    · exact h.trans (List.dropLast_prefix loc)
    · next hup =>
      rw [if_neg hdot, if_neg hup] at hne
      exact (List.prefix_concat_iff.mp h).resolve_left hne

/-- Only two dots lead up. -/
theorem prefix_next {loc : Location} {part : String} (h : part ≠ "..") : loc <+: loc.next part := by
  unfold next
  split
  · exact List.prefix_rfl
  · exact List.prefix_append _ _

end Location

/-! ## Which file governs a directory -/

/-- A regular file is one with a text. -/
theorem OnHost.run_isFile (host : Host) (p : Path) : (FileAccess.isFile p : OnHost Bool) host =
    ((FileEntry.textOf? (host.store.entry? host.cwd p)).isSome, host) := by
  unfold FileAccess.isFile OnHost.instFileAccess
  dsimp only [bind, StateT.bind, get, getThe, MonadStateOf.get, StateT.get, pure, StateT.pure]
  cases host.store.entry? host.cwd p with
  | none => rfl
  | some e => cases e <;> rfl

namespace FileStore

/-- Whether the directory at a location holds a configuration file. -/
def hasConfig (s : FileStore) (loc : Location) : Bool :=
  (FileEntry.textOf? (s.at? (loc ++ [Config.fileName]))).isSome

/-- The directory at `g` is the nearest one at or above a location that holds a configuration file. -/
structure Governs (s : FileStore) (g loc : Location) : Prop where
  above : g <+: loc
  holds : s.hasConfig g = true
  nearest (l : Location) : l <+: loc → s.hasConfig l = true → l <+: g

/-- The path leads to a directory, and so does the way to it. The empty path leads to the working directory. -/
def Reaches (s : FileStore) (cwd : Location) (p : Path) : Prop :=
  s.follow? (p.start cwd) p.parts = some (p.place cwd) ∧ s.at? (p.place cwd) = some .directory

variable {s : FileStore} {cwd g g' l loc : Location} {p q : Path}

theorem Governs.unique (h : s.Governs g loc) (h' : s.Governs g' loc) : g = g' :=
  (h'.nearest g h.above h.holds).eq_of_length_le (h.nearest g' h'.above h'.holds).length_le

/-- If a directory at or above a location holds a configuration file, one of them governs. -/
theorem exists_governs (hl : l <+: loc) (h : s.hasConfig l = true) : ∃ g, s.Governs g loc := by
  induction loc using List.reverseRecOn with
  | nil =>
    obtain rfl := List.prefix_nil.mp hl
    exact ⟨[], List.prefix_rfl, h, fun _ hl _ => hl⟩
  | append_singleton loc name ih =>
    by_cases hhere : s.hasConfig (loc ++ [name]) = true
    · exact ⟨_, List.prefix_rfl, hhere, fun _ hl _ => hl⟩
    · have habove : ∀ {l}, l <+: loc ++ [name] → s.hasConfig l = true → l <+: loc := fun hl h =>
        (List.prefix_concat_iff.mp hl).resolve_left fun he => hhere (he ▸ h)
      obtain ⟨g, hg⟩ := ih (habove hl h)
      exact ⟨g, hg.above.trans (List.prefix_append _ _), hg.holds, fun l hl h => hg.nearest l (habove hl h) h⟩

theorem Reaches.of_parent? (h : s.Reaches cwd p) (hq : p.parent? = some q) : s.Reaches cwd q := by
  obtain ⟨hstart, part, hparts, -, -⟩ := Path.wayBack_of_parent? cwd hq
  obtain ⟨hfollow, -⟩ := h
  rw [hparts, follow?_append, ← hstart, Option.bind_eq_some_iff] at hfollow
  obtain ⟨l, hl, hlast⟩ := hfollow
  rw [follow?] at hlast
  split at hlast
  · next hdir =>
    have hplace : l = q.place cwd := eq_of_follow? hl
    exact ⟨hplace ▸ hl, hplace ▸ hdir.1⟩
  · cases hlast

theorem isEntryName_fileName : ∀ name ∈ [Config.fileName], IsEntryName name := by
  simp only [List.mem_singleton, forall_eq]
  exact ⟨by decide, by decide⟩

/-- What is asked for in a directory is there exactly if it is at the place below. -/
theorem Reaches.entry? (h : s.Reaches cwd q) :
    s.entry? cwd (q.append [Config.fileName]) = s.at? (q.place cwd ++ [Config.fileName]) := by
  obtain ⟨hfollow, hdir⟩ := h
  have hvalid : isName Config.fileName = true := by decide
  have hlocate : s.locate? cwd (q.append [Config.fileName]) = some (q.place cwd ++ [Config.fileName]) := by
    rw [locate?, if_neg (by simp [Path.isEmpty_append]), Path.absolute_append, Path.parts_append q isEntryName_fileName,
      follow?_append, ← Path.start, hfollow, Option.bind_some, follow?, if_pos ⟨hdir, hvalid⟩]
    rfl
  rw [FileStore.entry?, hlocate]
  simp [Path.asDirectory_append _ (isEntryName_fileName _ (List.mem_singleton_self _))]

/-- A candidate is a file exactly if the directory holds a configuration file. -/
theorem Reaches.isFile {host : Host} (h : host.store.Reaches host.cwd q) :
    (FileAccess.isFile (q.append [Config.fileName]) : OnHost Bool) host =
      (host.store.hasConfig (q.place host.cwd), host) := by
  rw [OnHost.run_isFile, h.entry?, hasConfig]

/-- What is above the beginning of the way back and holds a configuration file is above the first directory on the way
that holds one; if none does, it is above the end of the way. -/
theorem prefix_of_wayBack (cwd : Location) (p : Path) (hl : l <+: p.place cwd) (h : s.hasConfig l = true) :
    (∀ g, (p.wayBack cwd).find? s.hasConfig = some g → l <+: g) ∧
      ((p.wayBack cwd).find? s.hasConfig = none → l <+: p.start cwd ∧ l ≠ p.start cwd) := by
  induction p using Path.induction_parent? with
  | root p hroot =>
    obtain ⟨hplace, hway⟩ := Path.wayBack_of_root cwd hroot
    rw [hplace] at hl
    rw [hway, List.find?_singleton]
    split
    · exact ⟨fun g hg => Option.some.inj hg ▸ hl, nofun⟩
    · next hstart => exact ⟨nofun, fun _ => ⟨hl, fun e => hstart (e ▸ h)⟩⟩
  | step p q hq ih =>
    obtain ⟨hstart, part, -, hplace, hway⟩ := Path.wayBack_of_parent? cwd hq
    rw [hway, List.find?_cons]
    split
    · exact ⟨fun g hg => Option.some.inj hg ▸ hl, nofun⟩
    · next hhere =>
      have hne : l ≠ p.place cwd := fun e => by
        rw [← e, h] at hhere
        cases hhere
      rw [← hstart]
      exact ih (Location.prefix_of_next (hplace ▸ hl) (hplace ▸ hne))

/-- Without two dots the way back does not lead down, so it stays between its beginning and its end. -/
theorem wayBack_between (cwd : Location) (p : Path) (hdots : ".." ∉ p.parts) : p.start cwd <+: p.place cwd ∧
    ∀ l ∈ p.wayBack cwd, p.start cwd <+: l ∧ l <+: p.place cwd := by
  induction p using Path.induction_parent? with
  | root p hroot =>
    obtain ⟨hplace, hway⟩ := Path.wayBack_of_root cwd hroot
    rw [hway, hplace, List.forall_mem_singleton]
    exact ⟨List.prefix_rfl, List.prefix_rfl, List.prefix_rfl⟩
  | step p q hq ih =>
    obtain ⟨hstart, part, hparts, hplace, hway⟩ := Path.wayBack_of_parent? cwd hq
    rw [hparts, List.mem_append, List.mem_singleton, not_or] at hdots
    obtain ⟨hbegin, hbetween⟩ := ih hdots.1
    rw [hstart] at hbegin hbetween
    have hup : q.place cwd <+: p.place cwd := hplace ▸ Location.prefix_next (Ne.symm hdots.2)
    rw [hway, List.forall_mem_cons]
    exact ⟨hbegin.trans hup, ⟨hbegin.trans hup, List.prefix_rfl⟩, fun l hl => ⟨(hbetween l hl).1,
      (hbetween l hl).2.trans hup⟩⟩

end FileStore

namespace Config

open FileStore

section

variable {m : Type → Type} [Monad m] [FileAccess m]

/-- The search ends at the path without parts, and not before: its limit is none. -/
theorem find_eq (dir : Path) : (find dir : m (Option Path)) = do
    let candidate := dir.append [fileName]
    if ← FileAccess.isFile candidate then
      return some candidate
    match dir.parent? with
    | some parent => find parent
    | none => return none := by
  unfold find
  cases hq : dir.parent? with
  | none =>
    rw [Path.parent?_eq_none_iff.mp hq, List.length_nil, findWithin.eq_def]
  | some q =>
    rw [Path.length_parts_parent? hq, findWithin.eq_def]
    simp only [hq]

end

variable {host : Host}

/-- One turn of the search, at a path that leads to a directory. -/
theorem run_find_eq {dir : Path} (h : host.store.Reaches host.cwd dir) : (find dir : OnHost _) host =
    if host.store.hasConfig (dir.place host.cwd) then (some (dir.append [fileName]), host)
    else match dir.parent? with
      | some parent => (find parent : OnHost _) host
      | none => (none, host) := by
  rw [find_eq]
  change (match (FileAccess.isFile (dir.append [fileName]) : OnHost Bool) host with
    | (found, host) => (if found then pure (some (dir.append [fileName])) else
        match dir.parent? with
        | some parent => find parent
        | none => return none : OnHost (Option Path)) host) = _
  rw [h.isFile]
  cases host.store.hasConfig (dir.place host.cwd)
  · cases dir.parent? <;> rfl
  · rfl

/-- The search finds the file in the first directory on the way back that holds one, by the path that is left there. -/
theorem run_find (dir : Path) (h : host.store.Reaches host.cwd dir) : ∃ place : Option Path,
    (find dir : OnHost _) host = (place.map (·.append [fileName]), host) ∧
    place.map (·.place host.cwd) = (dir.wayBack host.cwd).find? host.store.hasConfig ∧
    ∀ q ∈ place, q.absolute = dir.absolute ∧ q.parts <+: dir.parts := by
  induction dir using Path.induction_parent? with
  | root p hroot =>
    obtain ⟨hplace, hway⟩ := Path.wayBack_of_root host.cwd hroot
    rw [run_find_eq h, Path.parent?_eq_none_iff.mpr hroot, hway, List.find?_singleton, hplace]
    split
    · exact ⟨some p, rfl, congrArg some hplace, fun q hq => Option.some.inj hq ▸ ⟨rfl, List.prefix_rfl⟩⟩
    · exact ⟨none, rfl, rfl, nofun⟩
  | step p q hq ih =>
    obtain ⟨-, part, hparts, -, hway⟩ := Path.wayBack_of_parent? host.cwd hq
    rw [run_find_eq h, hway, List.find?_cons]
    cases hhere : host.store.hasConfig (p.place host.cwd) with
    | true => exact ⟨some p, rfl, rfl, fun q hq => Option.some.inj hq ▸ ⟨rfl, List.prefix_rfl⟩⟩
    | false =>
      obtain ⟨place, hrun, hfirst, hspelled⟩ := ih (h.of_parent? hq)
      refine ⟨place, ?_, hfirst, fun r hr => ?_⟩
      · rw [if_neg Bool.false_ne_true, hq]
        exact hrun
      · obtain ⟨habsolute, hleft⟩ := hspelled r hr
        exact ⟨habsolute.trans (Path.parts_parent? hq).1, hleft.trans (hparts ▸ List.prefix_append _ _)⟩

/-- The directory of a configuration file that is found is the one that governs a location; no file is found only if no
directory at or above the location holds one. -/
def IsNearest (s : FileStore) (loc : Location) (found : Option Location) : Prop :=
  (∀ g, found = some g → s.Governs g loc) ∧ (found = none → ∀ l, l <+: loc → s.hasConfig l = false)

/-- What a path starts from is above nothing but itself if the path is absolute, and else the working directory. -/
theorem absolute_or_start_eq (cwd : Location) (p : Path) :
    (p.absolute = true ∧ p.start cwd = []) ∨ (p.absolute = false ∧ p.start cwd = cwd) := by
  unfold Path.start
  cases p.absolute <;> simp

section

variable {s : FileStore} {cwd : Location}

/-- The first file on the way back is the nearest one if its directory is at or above the start, since nothing above the
start has been passed by. -/
theorem isNearest_iff (p : Path) : IsNearest s (p.place cwd) ((p.wayBack cwd).find? s.hasConfig) ↔
    (∀ g, (p.wayBack cwd).find? s.hasConfig = some g → g <+: p.place cwd) ∧
    ((p.wayBack cwd).find? s.hasConfig = none →
      p.absolute = true ∨ ∀ l, l <+: p.place cwd → l <+: cwd → s.hasConfig l = false) := by
  have hpassed := fun l (hl : l <+: p.place cwd) (hc : s.hasConfig l = true) => prefix_of_wayBack cwd p hl hc
  constructor
  · rintro ⟨hsome, hnone⟩
    exact ⟨fun g hg => (hsome g hg).above, fun hg => .inr fun l hl _ => hnone hg l hl⟩
  · rintro ⟨habove, hmissed⟩
    refine ⟨fun g hg => ⟨habove g hg, List.find?_some hg, fun l hl hc => (hpassed l hl hc).1 g hg⟩, fun hg l hl => ?_⟩
    by_contra hc
    rw [Bool.not_eq_false] at hc
    obtain ⟨hup, hne⟩ := (hpassed l hl hc).2 hg
    rcases absolute_or_start_eq cwd p with ⟨-, hstart⟩ | ⟨hrelative, hstart⟩
    · rw [hstart] at hup hne
      exact hne (List.prefix_nil.mp hup)
    · rcases hmissed hg with habsolute | hnone
      · rw [hrelative] at habsolute
        cases habsolute
      · rw [hnone l hl (hstart ▸ hup)] at hc
        cases hc

/-- Without two dots all that can go wrong is that the way back ends too early. -/
theorem isNearest_iff_of_no_dots (p : Path) (hdots : ".." ∉ p.parts) :
    IsNearest s (p.place cwd) ((p.wayBack cwd).find? s.hasConfig) ↔
      p.absolute = true ∨ ∀ g, s.Governs g (p.place cwd) → cwd <+: g := by
  obtain ⟨-, hbetween⟩ := wayBack_between cwd p hdots
  have hpassed := fun l (hl : l <+: p.place cwd) (hc : s.hasConfig l = true) => prefix_of_wayBack cwd p hl hc
  constructor
  · rintro ⟨hsome, hnone⟩
    rcases absolute_or_start_eq cwd p with ⟨habsolute, -⟩ | ⟨-, hstart⟩
    · exact .inl habsolute
    · refine .inr fun g hg => ?_
      cases hfound : (p.wayBack cwd).find? s.hasConfig with
      | none =>
        have hno := hnone hfound g hg.above
        rw [hg.holds] at hno
        cases hno
      | some g' =>
        rw [hg.unique (hsome g' hfound), ← hstart]
        exact (hbetween g' (List.mem_of_find?_eq_some hfound)).1
  · intro hreach
    refine (isNearest_iff p).mpr ⟨fun g hg => (hbetween g (List.mem_of_find?_eq_some hg)).2, fun hg => ?_⟩
    rcases absolute_or_start_eq cwd p with ⟨habsolute, -⟩ | ⟨hrelative, hstart⟩
    · exact .inl habsolute
    · refine .inr fun l hl _ => ?_
      by_contra hc
      rw [Bool.not_eq_false] at hc
      -- the file that governs the start is at or below the working directory, where the way back ends
      obtain ⟨g, hgoverns⟩ := exists_governs hl hc
      obtain ⟨hup, hne⟩ := (hpassed g hgoverns.above hgoverns.holds).2 hg
      rw [hstart] at hup hne
      have hbelow := hreach.resolve_left (by simp [hrelative]) g hgoverns
      exact hne (hup.eq_of_length_le hbelow.length_le)

end

/-- The search for a configuration file finds the one in the first directory on the way back along the text of the path,
and changes nothing. It is the nearest file exactly if its directory is at or above the start, or, if there is none,
the path is absolute or no directory above the working directory holds one either. Without two dots that is so exactly
if the path is absolute or the file that governs the start is in the working directory or below it. -/
theorem find_nearest_iff (dir : Path) (h : host.store.Reaches host.cwd dir) : ∃ place : Option Path,
    (find dir : OnHost _) host = (place.map (·.append [fileName]), host) ∧
    (∀ q ∈ place, q.absolute = dir.absolute ∧ q.parts <+: dir.parts) ∧
    place.map (·.place host.cwd) = (dir.wayBack host.cwd).find? host.store.hasConfig ∧
    (IsNearest host.store (dir.place host.cwd) (place.map (·.place host.cwd)) ↔
      (∀ g, (dir.wayBack host.cwd).find? host.store.hasConfig = some g → g <+: dir.place host.cwd) ∧
      ((dir.wayBack host.cwd).find? host.store.hasConfig = none → dir.absolute = true ∨
        ∀ l, l <+: dir.place host.cwd → l <+: host.cwd → host.store.hasConfig l = false)) ∧
    (".." ∉ dir.parts → (IsNearest host.store (dir.place host.cwd) (place.map (·.place host.cwd)) ↔
      dir.absolute = true ∨ ∀ g, host.store.Governs g (dir.place host.cwd) → host.cwd <+: g)) := by
  obtain ⟨place, hrun, hfirst, hspelled⟩ := run_find dir h
  refine ⟨place, hrun, hspelled, hfirst, ?_, fun hdots => ?_⟩
  · rw [hfirst]
    exact isNearest_iff dir
  · rw [hfirst]
    exact isNearest_iff_of_no_dots dir hdots

/-- A configuration file above the working directory `w`. -/
def hostAbove : Host := ⟨⟨[(["w"], .directory), ([fileName], .file "")]⟩, ["w"]⟩

/-- By its absolute path the working directory is governed by the file above it. -/
theorem find_nearest_absolute : hostAbove.store.Reaches hostAbove.cwd ⟨true, ["w"]⟩ ∧
    (find ⟨true, ["w"]⟩ : OnHost _) hostAbove = (some ⟨true, [fileName]⟩, hostAbove) ∧
    ∃ found : Option Path, (find ⟨true, ["w"]⟩ : OnHost _) hostAbove = (found.map (·.append [fileName]), hostAbove) ∧
      IsNearest hostAbove.store ["w"] (found.map (·.place hostAbove.cwd)) := by
  have h : hostAbove.store.Reaches hostAbove.cwd ⟨true, ["w"]⟩ := ⟨rfl, rfl⟩
  obtain ⟨found, hrun, -, -, -, hdots⟩ := find_nearest_iff ⟨true, ["w"]⟩ h
  exact ⟨h, rfl, found, hrun, (hdots (by decide)).mpr (.inl rfl)⟩

/-- A configuration file in the working directory `w`, and none above it. -/
def hostBelow : Host := ⟨⟨[(["w"], .directory), (["w", fileName], .file "")]⟩, ["w"]⟩

/-- By a dot the working directory is not governed by the file above it, and the directory above the working directory
is governed by a file that is below it. -/
theorem find_misses :
    (hostAbove.store.Reaches hostAbove.cwd ⟨false, ["."]⟩ ∧ Path.place hostAbove.cwd ⟨false, ["."]⟩ = ["w"] ∧
      (find ⟨false, ["."]⟩ : OnHost _) hostAbove = (none, hostAbove) ∧
      hostAbove.store.Governs [] ["w"] ∧ ¬ IsNearest hostAbove.store ["w"] none) ∧
    hostBelow.store.Reaches hostBelow.cwd ⟨false, [".."]⟩ ∧ Path.place hostBelow.cwd ⟨false, [".."]⟩ = [] ∧
      (find ⟨false, [".."]⟩ : OnHost _) hostBelow = (some ⟨false, [fileName]⟩, hostBelow) ∧
      ¬ IsNearest hostBelow.store [] (some ["w"]) := by
  have hnone : hostAbove.store.hasConfig ["w"] = false := rfl
  have hgoverns : hostAbove.store.Governs [] ["w"] := by
    refine ⟨List.nil_prefix, rfl, fun l hl hc => ?_⟩
    have hl : l <+: [] ++ ["w"] := hl
    rcases List.prefix_concat_iff.mp hl with rfl | hl
    · cases hnone.symm.trans hc
    · exact hl
  refine ⟨⟨⟨rfl, rfl⟩, rfl, rfl, hgoverns, fun h => ?_⟩, ⟨rfl, rfl⟩, rfl, rfl, fun h => ?_⟩
  · cases (h.2 rfl [] List.nil_prefix).symm.trans hgoverns.holds
  · cases List.prefix_nil.mp (h.1 _ rfl).above

end Config

end JavaFold
