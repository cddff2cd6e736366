import JavaFold.Tree.Following
import JavaFold.Proofs.Tree.Census
import JavaFold.Proofs.Tree.Reachable

/-!
# Freeing is exact

Three edits free nodes: `discard` frees a floating node with all nodes below it, `setRoot` the old root with all
nodes below it, and `replace` a node that another one takes the place of. In a reachable tree each of them frees the
node and what is below it going from child to child (`Tree.Under`), and nothing else; the nodes are counted anew, and
every other node stays as it is, but for the two that `replace` links (`Tree.Reachable.frees_exactly`).

The nodes are freed in the order in which they are met on the way down, later children first. Following only the
children of nodes that have just been freed comes to the same (`freeWaiting?_eq_release`): the ids of a tree are
distinct, so a node is still there, with all its children, when its turn comes.
-/

namespace JavaFold

namespace Tree

open OrderedTree

variable {t t' : Tree} {id p x a new : NodeId} {n : Node} {s : OrderedTree Placed}

/-! ## Nodes below a node -/

/-- The node `p` lists `c` among its children. -/
def Lists (t : Tree) (p c : NodeId) : Prop := ∃ n, t.get? p = some n ∧ c ∈ n.children

/-- `x` is `a`, or below it, going from child to child. -/
abbrev Under (t : Tree) : NodeId → NodeId → Prop := Relation.ReflTransGen t.Lists

/-- Nodes below are those that a node is above: in linked trees children and parents name each other. -/
theorem Linked.under_iff_above (h : t.Linked) : t.Under a x ↔ t.Above a x := by
  have hlists : t.Lists = t.IsParent := by
    ext p c
    exact ⟨fun ⟨_, hn, hc⟩ => h.isParent_of_mem hn hc, h.mem_of_isParent⟩
  rw [Under, hlists]

theorem descendants_of_shows (h : t.Linked) (hs : t.Shows s) : t.descendants s.label.id = s.ids := by
  rw [descendants, h.subtree?_of_shows hs]
  rfl

/-! ## Freeing by following the children -/

/-- Where there is a node, the nodes do not count as none. -/
theorem Stored.live_ne_zero (h : t.Stored) (hn : t.get? id = some n) : t.live ≠ 0 := by
  rw [h.live_eq, ← length_liveIds]
  exact List.ne_nil_of_mem (mem_liveIds.mpr ⟨n, hn⟩) ∘ List.eq_nil_of_length_eq_zero

mutual

/-- The nodes of a tree are freed from the top down, later children first, before the next node has its turn. -/
theorem freeWaiting?_shown : ∀ (s : OrderedTree Placed) {t : Tree} (waiting : List NodeId), t.Stored → t.Shows s →
    s.ids.Nodup → t.freeWaiting? (s.label.id :: waiting) = ((freeOrder s).foldl vacate t).freeWaiting? waiting
  | .node q ss, t, waiting, h, ⟨⟨parent, hn⟩, hss⟩, hd => by
    rw [ids_node, List.nodup_cons] at hd
    have hstay : ShowsAll (t.vacate q.id) ss := ShowsAll.congr ss hss fun x hx m hm => by
      have hne : x ≠ q.id := fun e => hd.1 (e ▸ hx)
      exact ⟨m.parent, by rw [get?_vacate, if_neg hne, hm]⟩
    rw [freeWaiting?.eq_def]
    simp only [label, hn, if_neg (h.live_ne_zero hn)]
    exact freeWaiting?_shownAll ss waiting (h.vacate q.id) hstay hd.2

theorem freeWaiting?_shownAll : ∀ (ss : List (OrderedTree Placed)) {t : Tree} (waiting : List NodeId), t.Stored →
    ShowsAll t ss → (idsAll ss).Nodup → t.freeWaiting? ((ss.map (·.label.id)).reverse ++ waiting) =
      ((freeOrderAll ss).foldl vacate t).freeWaiting? waiting
  | [], _, _, _, _, _ => rfl
  | s :: ss, t, waiting, h, ⟨hs, hss⟩, hd => by
    rw [idsAll_cons, List.nodup_append] at hd
    obtain ⟨hds, hdss, hapart⟩ := hd
    have hstay : ((freeOrderAll ss).foldl vacate t).Shows s := Shows.congr s hs fun x hx m hm => by
      have hfreed : x ∉ freeOrderAll ss := fun hmem => hapart x hx x ((mem_freeOrderAll ss x).mp hmem) rfl
      exact ⟨m.parent, by rw [get?_vacateAll, if_neg hfreed, hm]⟩
    rw [List.map_cons, List.reverse_cons, List.append_assoc, List.singleton_append,
      freeWaiting?_shownAll ss (s.label.id :: waiting) h hss hdss,
      freeWaiting?_shown s waiting (h.vacateAll _) hstay hds, freeOrderAll, List.foldl_append]

end

/-- Following the children frees the nodes of the tree at a node, and ends. -/
theorem WellFormed.freeWaiting?_eq_release (h : t.WellFormed) (hn : t.get? id = some n) :
    t.freeWaiting? [id] = some (t.release id) := by
  obtain ⟨s, hs⟩ := h.exists_subtree? hn
  obtain ⟨hshow, rfl⟩ := shows_of_subtree? hs
  rw [freeWaiting?_shown s [] h.toStored hshow (Shows.nodup_ids h.toLinked s hshow), Tree.release, hs,
    freeWaiting?.eq_def]

/-! ## What is freed -/

/-- From `t` to `t'` the node `id` is freed with all nodes below it, and no other node. -/
structure Frees (t : Tree) (id : NodeId) (t' : Tree) : Prop where
  /-- The nodes that are freed, each listed once. -/
  listed : (t.descendants id).Nodup ∧ ∀ x, x ∈ t.descendants id ↔ t.Under id x
  gone (x : NodeId) : ((∃ n, t.get? x = some n) ∧ t'.get? x = none) ↔ t.Under id x
  counted : t'.live + (t.descendants id).length = t.live

/-- Freeing a tree after links have been changed above it: `t₀` has the nodes of `t`, and the tree stands in it as
before. -/
theorem WellFormed.frees_release {t₀ : Tree} (h : t.WellFormed) (hs : t.Shows s) (h₀ : t₀.WellFormed)
    (hs₀ : t₀.Shows s) (hf : t₀.Floating s.label.id)
    (hlive : ∀ x, (∃ n, t₀.get? x = some n) ↔ ∃ n, t.get? x = some n) :
    t₀.freeWaiting? [s.label.id] = some (t₀.release s.label.id) ∧ t.Frees s.label.id (t₀.release s.label.id) ∧
      ∀ x, ¬ t.Under s.label.id x → (t₀.release s.label.id).get? x = t₀.get? x := by
  have hlist := descendants_of_shows h.toLinked hs
  have hmem : ∀ x, x ∈ s.ids ↔ t.Under s.label.id x := fun x =>
    (h.mem_ids_iff hs).trans h.toLinked.under_iff_above.symm
  have hget := get?_release (h₀.toLinked.subtree?_of_shows hs₀)
  have hleft : ∀ x, (∃ n, (t₀.release s.label.id).get? x = some n) ↔ x ∉ s.ids ∧ ∃ n, t.get? x = some n := by
    intro x
    rw [hget, ← hlive]
    split
    · next hx => simp [hx]
    · next hx => simp [hx]
  have hcount := h.toStored.live_add_length (h₀.release hf).toStored (Shows.nodup_ids h.toLinked s hs) .nil
    (fun x hx => hs.live hx) (by simp) fun x => by rw [hleft]; simp [and_comm]
  obtain ⟨n, hn⟩ := hf.live
  refine ⟨h₀.freeWaiting?_eq_release hn, ⟨⟨?_, fun x => ?_⟩, fun x => ?_, ?_⟩, fun x hx => ?_⟩
  · rw [hlist]
    exact Shows.nodup_ids h.toLinked s hs
  · rw [hlist, hmem]
  · rw [← hmem, hget]
    constructor
    · rintro ⟨hx, hgone⟩
      by_contra hout
      obtain ⟨m, hm⟩ := (hlive x).mpr hx
      rw [if_neg hout, hm] at hgone
      cases hgone
    · exact fun hx => ⟨hs.live hx, if_pos hx⟩
  · rw [hlist]
    exact hcount
  · rw [hget, if_neg fun hmem' => hx ((hmem x).mp hmem')]

end Tree

/-! ## The edits -/

namespace Edit

open JavaFold.Tree

variable {t t' : Tree} {id p new : NodeId} {n : Node}

theorem run_setRoot (hf : t.Floating id) (hn : t.get? id = some n) (hk : n.kind = .unit) :
    (setRoot id).run t = .ok () (({ t with root := id } : Tree).release t.root) := by
  simp [setRoot, run_checkFloating hf, run_live hn, hk]

/-- A successful `discard` has been given a floating node. -/
theorem floating_of_run_discard (h : t.WellFormed) (hrun : (discard id).run t = .ok () t') : t.Floating id := by
  have hall := (discard_decides h).ok_iff.mp ⟨_, _, hrun⟩
  obtain ⟨-, -, -, -, hf⟩ := checkFloating_decides.done (allMet_cons.mp hall).2
  exact hf

/-- A successful `setRoot` has been given a floating compilation unit. -/
theorem floating_of_run_setRoot (h : t.WellFormed) (hrun : (setRoot id).run t = .ok () t') :
    t.Floating id ∧ ∃ n, t.get? id = some n ∧ n.kind = .unit := by
  obtain ⟨hfloating, hunit⟩ := allMet_append.mp ((setRoot_decides h).ok_iff.mp ⟨_, _, hrun⟩)
  obtain ⟨-, -, -, -, hf⟩ := checkFloating_decides.done hfloating
  obtain ⟨n, hn⟩ := hf.live
  exact ⟨hf, n, hn, (allMet_cons.mp hunit).1 n hn⟩

/-- A successful `replace` has been given a node with a parent and a floating one that is not above it. -/
theorem links_of_run_replace (h : t.WellFormed) (hrun : (replace id new).run t = .ok () t') :
    (∃ p, t.IsParent p id) ∧ t.Floating new ∧ ¬ t.Above new id := by
  obtain ⟨hattached, hrest⟩ := allMet_append.mp ((replace_decides h).ok_iff.mp ⟨_, _, hrun⟩)
  obtain ⟨hfloating, habove⟩ := allMet_append.mp hrest
  obtain ⟨p, -, -, -, hp⟩ := attachedParent_decides.done hattached
  obtain ⟨-, -, -, -, hf⟩ := checkFloating_decides.done hfloating
  exact ⟨⟨p, hp⟩, hf, (allMet_cons.mp habove).1⟩

theorem frees_discard (h : t.WellFormed) (hrun : (discard id).run t = .ok () t') :
    t.freeWaiting? [id] = some t' ∧ t.Frees id t' ∧ t'.root = t.root ∧ ∀ x, ¬ t.Under id x → t'.get? x = t.get? x := by
  have hf := floating_of_run_discard h hrun
  rw [run_discard hf] at hrun
  cases hrun
  obtain ⟨n, hn⟩ := hf.live
  obtain ⟨s, hs⟩ := h.exists_subtree? hn
  obtain ⟨hshow, rfl⟩ := shows_of_subtree? hs
  obtain ⟨hwait, hfrees, hkept⟩ := h.frees_release hshow h hshow hf fun _ => Iff.rfl
  exact ⟨hwait, hfrees, root_release _ _, hkept⟩

/-- The old root is freed once the new one is there, which leaves the old one floating. -/
theorem frees_setRoot (h : t.WellFormed) (hrun : (setRoot id).run t = .ok () t') :
    ({ t with root := id } : Tree).freeWaiting? [t.root] = some t' ∧ t.Frees t.root t' ∧ t'.root = id ∧
      ∀ x, ¬ t.Under t.root x → t'.get? x = t.get? x := by
  obtain ⟨hf, n, hn, hk⟩ := floating_of_run_setRoot h hrun
  rw [run_setRoot hf hn hk] at hrun
  cases hrun
  obtain ⟨m, hm, hmp, hmr⟩ := hf
  rw [hn] at hm
  cases hm
  obtain ⟨r, hr, hrp, -⟩ := h.root
  obtain ⟨s, hs⟩ := h.exists_subtree? hr
  obtain ⟨hshow, hid⟩ := shows_of_subtree? hs
  have h₀ : WellFormed { t with root := id } :=
    ⟨⟨h.free_nodup, h.mem_free, h.live_eq⟩, h.toLinked.withRoot hn hmp hk⟩
  have hshow₀ : Shows { t with root := id } s := hshow.congr s fun x _ k hk => ⟨k.parent, hk⟩
  rw [← hid] at hr hmr ⊢
  obtain ⟨hwait, hfrees, hkept⟩ := h.frees_release hshow h₀ hshow₀ ⟨r, hr, hrp, hmr.symm⟩ fun _ => Iff.rfl
  exact ⟨hwait, hfrees, root_release _ _, hkept⟩

/-- The parent of a node lists it at one place, which another node can take. -/
theorem exists_place (h : t.WellFormed) (hp : t.IsParent p id) (new : NodeId) : ∃ n before after, t.get? p = some n ∧
    n.children = before ++ id :: after ∧ exchange id new n.children = before ++ new :: after := by
  obtain ⟨n, hn, hmem⟩ := h.mem_of_isParent hp
  obtain ⟨before, after, hchildren⟩ := List.append_of_mem hmem
  have hd := h.nodup_children hn
  rw [hchildren, List.nodup_append] at hd
  have hfirst : id ∉ before := fun hb => hd.2.2 id hb id List.mem_cons_self rfl
  exact ⟨n, before, after, hn, hchildren, by rw [hchildren, exchange_append after hfirst]⟩

/-- The node is freed once the new one has taken its place, which leaves it floating. -/
theorem frees_replace (h : t.WellFormed) (hrun : (replace id new).run t = .ok () t') : ∃ p n m before after,
    t.IsParent p id ∧ t.get? p = some n ∧ t.get? new = some m ∧ n.children = before ++ id :: after ∧
    (t.relinked p id new).freeWaiting? [id] = some t' ∧ t.Frees id t' ∧ t'.root = t.root ∧
    t'.get? p = some { n with children := before ++ new :: after } ∧ t'.get? new = some { m with parent := some p } ∧
    ∀ x, ¬ t.Under id x → x ≠ p → x ≠ new → t'.get? x = t.get? x := by
  obtain ⟨⟨p, hp⟩, hf, hna⟩ := links_of_run_replace h hrun
  rw [run_replace h hp hf hna] at hrun
  cases hrun
  obtain ⟨n, before, after, hn, hchildren, hexchange⟩ := exists_place h hp new
  obtain ⟨m, hm⟩ := hf.live
  obtain ⟨k, hk⟩ := hp.live
  obtain ⟨s, hs⟩ := h.exists_subtree? hk
  obtain ⟨hshow, rfl⟩ := shows_of_subtree? hs
  have hpi := h.ne_of_isParent hp
  have hni : new ≠ s.label.id := fun e => hna (e ▸ .refl)
  have hpn : p ≠ new := by
    rintro rfl
    exact hna (.single hp)
  have hget := get?_relinked (t := t) hpn hpi hni
  have hshow₀ := (shows_of_subtree? (subtree?_relinked h hp hshow hf hna)).1
  obtain ⟨hwait, hfrees, hkept⟩ := h.frees_release hshow (h.relinked hp hf hna) hshow₀
    (h.floating_relinked hp hf hna) fun x => by
      rw [hget]
      split_ifs <;> simp
  -- Neither the parent nor the new node is below the node, so both are left.
  have hunder : ∀ x, t.Under s.label.id x ↔ t.Above s.label.id x := fun x => h.toLinked.under_iff_above
  have hp' : ¬ t.Under s.label.id p := fun hu => h.not_above_of_isParent hp ((hunder p).mp hu)
  have hnew' : ¬ t.Under s.label.id new := fun hu => hni (hf.eq_of_above ((hunder new).mp hu)).symm
  refine ⟨p, n, m, before, after, hp, hn, hm, hchildren, hwait, hfrees,
    (root_release _ _).trans (root_relinked _ _ _ _), ?_, ?_, fun x hx hxp hxn => ?_⟩
  · rw [hkept p hp', hget, if_neg hpn, if_neg hpi, if_pos rfl, hn, Option.map_some, hexchange]
  · rw [hkept new hnew', hget, if_pos rfl, hm, Option.map_some]
  · have hxi : x ≠ s.label.id := fun e => hx (e ▸ .refl)
    rw [hkept x hx, hget, if_neg hxn, if_neg hxi, if_neg hxp]

end Edit

namespace Tree

/-- In a reachable tree the edits that free nodes free exactly a node and all nodes below it. Following the children
frees the same nodes; the nodes are counted anew, and the others stay as they are. After `replace` the parent of the
node lists the new one in its place. -/
theorem Reachable.frees_exactly {t : Tree} (h : t.Reachable) :
    (∀ id t', (Edit.discard id).run t = .ok () t' →
      t.freeWaiting? [id] = some t' ∧ t.Frees id t' ∧ t'.root = t.root ∧
      ∀ x, ¬ t.Under id x → t'.get? x = t.get? x) ∧
    (∀ id t', (Edit.setRoot id).run t = .ok () t' →
      ({ t with root := id } : Tree).freeWaiting? [t.root] = some t' ∧ t.Frees t.root t' ∧ t'.root = id ∧
      ∀ x, ¬ t.Under t.root x → t'.get? x = t.get? x) ∧
    (∀ id new t', (Edit.replace id new).run t = .ok () t' → ∃ p n m before after,
      t.IsParent p id ∧ t.get? p = some n ∧ t.get? new = some m ∧ n.children = before ++ id :: after ∧
      (t.relinked p id new).freeWaiting? [id] = some t' ∧ t.Frees id t' ∧ t'.root = t.root ∧
      t'.get? p = some { n with children := before ++ new :: after } ∧ t'.get? new = some { m with parent := some p } ∧
      ∀ x, ¬ t.Under id x → x ≠ p → x ≠ new → t'.get? x = t.get? x) :=
  ⟨fun _ _ => Edit.frees_discard h.wellFormed, fun _ _ => Edit.frees_setRoot h.wellFormed,
    fun _ _ _ => Edit.frees_replace h.wellFormed⟩

/-- A program of one class with a method, and beside it a class and an empty program. -/
def classBeside : Tree :=
  (Operation.alloc .unit .dummy []).after <|
    (Operation.alloc (.classDecl [] "B") .dummy []).after <|
      (Operation.pushChild ⟨0, 0⟩ ⟨2, 0⟩).after <|
        (Operation.alloc (.classDecl [] "A") .dummy [⟨1, 0⟩]).after <|
          (Operation.alloc (.method [] .void "m" []) .dummy []).after empty

/-- When the class beside is discarded, nothing else is freed; when it takes the place of the one in the program, that
one and its method are freed; and the whole program is freed when the empty one is the root. -/
theorem frees_exactly_classBeside : classBeside.Reachable ∧
    (∃ t', (Edit.discard ⟨3, 0⟩).run classBeside = .ok () t' ∧ t'.get? ⟨3, 0⟩ = none ∧ t'.live + 1 = 5) ∧
    (∃ t', (Edit.setRoot ⟨4, 0⟩).run classBeside = .ok () t' ∧ t'.get? ⟨1, 0⟩ = none ∧ t'.live + 3 = 5) ∧
    ∃ t', (Edit.replace ⟨2, 0⟩ ⟨3, 0⟩).run classBeside = .ok () t' ∧ t'.get? ⟨1, 0⟩ = none ∧ t'.live + 2 = 5 := by
  have h : classBeside.Reachable := .step _ (.step _ (.step _ (.step _ (.step _ .empty))))
  have hmethod : classBeside.Under ⟨2, 0⟩ ⟨1, 0⟩ := .single ⟨_, rfl, List.mem_cons_self⟩
  obtain ⟨hdiscard, hsetRoot, hreplace⟩ := h.frees_exactly
  refine ⟨h, ?_, ?_, ?_⟩
  · obtain ⟨-, hfrees, -⟩ := hdiscard ⟨3, 0⟩ _ rfl
    exact ⟨_, rfl, ((hfrees.gone ⟨3, 0⟩).mpr .refl).2, hfrees.counted⟩
  · obtain ⟨-, hfrees, -⟩ := hsetRoot ⟨4, 0⟩ _ rfl
    have hclass : classBeside.Lists ⟨0, 0⟩ ⟨2, 0⟩ := ⟨_, rfl, List.mem_cons_self⟩
    exact ⟨_, rfl, ((hfrees.gone ⟨1, 0⟩).mpr (.head hclass hmethod)).2, hfrees.counted⟩
  · obtain ⟨-, -, -, -, -, -, -, -, -, -, hfrees, -⟩ := hreplace ⟨2, 0⟩ ⟨3, 0⟩ _ rfl
    exact ⟨_, rfl, ((hfrees.gone ⟨1, 0⟩).mpr hmethod).2, hfrees.counted⟩

end Tree

end JavaFold
