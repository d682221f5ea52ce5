import LiveForm.Proofs.Form.Leveling
import LiveForm.Proofs.Form.Rebuilding
import LiveForm.Proofs.Form.Registering
import LiveForm.Proofs.Form.Rejections
import LiveForm.Proofs.Tree.Finding
import Mathlib

/-!
# The circles that are reported

An error that reports a circle names fields of a tree, each of which is read by the formula of the next one, and
the first of them again. The tree is the one in which the nodes that were rejected for it still stand, if there are
any. The graph is not complete when a node is rejected: its own links are missing, in part or altogether. But all
links that are there, and the one that is refused, are among those that the tree tells.
-/

set_option autoImplicit false

namespace LiveForm

open Relation

namespace FieldTree

variable {t t' : FieldTree} {n m x : NodeId} {e : FormError} {paths : List Path} {circle : List NodeId}

/-- Paths go round in a tree: they are those of fields, each of which is read by the formula of the next one, and the
last of which is the first one again. But for that the fields differ. -/
structure GoRound (t : FieldTree) (paths : List Path) : Prop where
  long : 2 ≤ paths.length
  closed : paths.head? = paths.getLast?
  nodes : ∃ nodes : List NodeId, paths = nodes.map t.path ∧ nodes.IsChain t.Feeds ∧ nodes.head? = nodes.getLast? ∧
    nodes.dropLast.Nodup

/-- A circle, with its first node again at the end, goes round. -/
theorem goRound_of_circular (h : Graph.Circular t.Feeds circle) :
    t.GoRound ((circle ++ circle.take 1).map t.path) := by
  obtain ⟨first, rest, rfl⟩ := List.exists_cons_of_ne_nil h.ne_nil
  have hround : (first :: rest) ++ (first :: rest).take 1 = first :: rest ++ [first] := rfl
  refine ⟨by simp, ?_, _, rfl, h.chain, ?_, ?_⟩
  · rw [hround, List.map_append, List.map_singleton, List.getLast?_concat]
    rfl
  · rw [hround, List.getLast?_concat]
    rfl
  · rw [hround, List.dropLast_concat]
    exact h.nodup

/-- If an error reports a circle, then it names one of the relation. -/
def TellsOf (t : FieldTree) (R : NodeId → NodeId → Prop) (e : FormError) : Prop :=
  (∃ paths, e = .cycle paths) → ∃ circle, Graph.Circular R circle ∧ e = .ofCycle (circle.map t.path)

theorem TellsOf.goRound (h : t.TellsOf t.Feeds (.cycle paths)) : t.GoRound paths := by
  obtain ⟨circle, hcircle, hnames⟩ := h ⟨paths, rfl⟩
  obtain ⟨circle', hcircle', hturned⟩ := Form.exists_cycleError (f := { tree := t }) hcircle
  obtain rfl := FormError.cycle.inj (hnames.trans hturned)
  exact goRound_of_circular hcircle'

theorem Explains.goRound (h : t.Explains (.cycle paths)) : t.GoRound paths := by
  rcases h with h | ⟨hof, -⟩
  · exact TellsOf.goRound fun _ => h
  · exact absurd rfl (hof.ne_cycle paths)

/-- Two trees differ in one node at most: the first one lacks it, or it has another formula there. -/
structure DiffersAt (n : NodeId) (t t' : FieldTree) : Prop where
  others : ∀ x, x ≠ n → t'.place? x = t.place? x
  node : ∀ p, t.place? n = some p → ∃ p', t'.place? n = some p' ∧ p'.node.kind = p.node.kind ∧ p'.path = p.path ∧
    p'.inTemplate = p.inTemplate

theorem DiffersAt.refl (n : NodeId) (t : FieldTree) : DiffersAt n t t :=
  ⟨fun _ _ => rfl, fun p hp => ⟨p, hp, rfl, rfl, rfl⟩⟩

theorem DiffersAt.stays (h : DiffersAt n t t') : Stays t t' := fun x p hp => by
  by_cases hx : x = n
  · subst hx
    exact h.node p hp
  · exact ⟨p, (h.others x hx).trans hp, rfl, rfl, rfl⟩

/-- What a node selects is told by where it is. -/
theorem DiffersAt.selectionsAt (h : DiffersAt n t t') (hx : x ≠ n) : t'.selectionsAt x = t.selectionsAt x := by
  have hplace := h.others x hx
  have hselections : t'.selections x = t.selections x := by
    funext text
    exact selections_congr (by rw [hplace])
  unfold FieldTree.selectionsAt
  rw [hplace, hselections]

theorem place?_of_setFormula {formula : Option String} (h : t.setFormula n formula = .ok t') (x : NodeId) :
    t'.place? x = (t.place? x).map fun p =>
      { p with node := if x = n then { p.node with formula } else p.node } := by
  obtain rfl := setFormula_ok h
  exact place?_modify (f := fun node => { node with formula }) (fun _ => rfl) x

theorem path_of_setFormula {formula : Option String} (h : t.setFormula n formula = .ok t') : t'.path = t.path := by
  funext x
  rw [path_eq, path_eq, place?_of_setFormula h, Option.map_map]
  rfl

theorem differsAt_of_setFormula {formula : Option String} (h : t.setFormula n formula = .ok t') : DiffersAt n t t' where
  others x hx := by
    rw [place?_of_setFormula h]
    cases t.place? x with
    | none => rfl
    | some p => simp [hx]
  node p hp := by
    have hplace := place?_of_setFormula h n
    rw [hp, Option.map_some, if_pos rfl] at hplace
    exact ⟨_, hplace, rfl, rfl, rfl⟩

/-- The node selects what its new formula says. -/
theorem mem_selectionsAt_of_setFormula {text : String} (h : t.setFormula n (some text) = .ok t') {q : Place}
    (hq : t.place? n = some q) (hlive : q.inTemplate = false) {s : Selector} {base : NodeId} :
    (s, base) ∈ t'.selectionsAt n ↔ (s, base) ∈ t.selections n text := by
  have hplace := place?_of_setFormula h n
  rw [hq, Option.map_some] at hplace
  have hselections : t'.selections n text = t.selections n text := selections_congr (by rw [hplace, hq]; rfl)
  unfold FieldTree.selectionsAt
  rw [hplace]
  simp [hlive, hselections]

end FieldTree

namespace Form

variable {f g : Form} {R : NodeId → NodeId → Prop} {n m : NodeId} {id : BindingId} {unread : NodeId → Prop}
  {order : VisitOrder} {mode : Refresh}

/-- All links are among those of a relation, and the bindings apply where they say. -/
structure Guided (R : NodeId → NodeId → Prop) (f : Form) : Prop extends LinksAmong R f where
  keyed : f.tree.Keyed
  right : f.registry.Right f.tree

section Guided

/-- Links that fit the tree may be made. -/
theorem Guided.relinked (h : Guided R f) (hr : Relinked f g)
    (hcached : ∀ id d m, f.registry.bound? id = some d → g.registry.Caches id m → f.tree.Matches d.selector d.base m) :
    Guided R g := by
  have htree := hr.beside.tree
  refine { cached := fun id d m hd hm => ?_, related := fun id d m c hd hu hm => ?_, keyed := ?_, right := ?_ }
  · rw [hr.bound] at hd
    exact htree ▸ hcached id d m hd hm
  · rw [hr.bound] at hd
    exact h.related id d m c hd (hr.uses.1 hu) (htree ▸ hm)
  · exact htree ▸ h.keyed
  · rw [htree]
    exact h.right.of_bound? fun id d hd => (hr.bound id).symm.trans hd

/-- What a cache should hold, the binding stands for. -/
theorem Guided.matches_of_fresh (h : Guided R f) {b : Binding} (hb : f.registry.get? id = some b)
    (hm : m ∈ b.fresh f.tree mode) : f.tree.Matches b.selector b.base m := by
  cases mode with
  | fromScratch => exact (h.right.mem_fresh_fromScratch h.keyed hb).1 hm
  | incremental =>
    have hcache : m ∈ b.cache := by
      simp only [Binding.fresh, Std.ExtTreeSet.mem_filter] at hm
      exact hm.1
    exact h.cached id b.bound m (by rw [Registry.bound?, hb, Option.map_some]) ⟨b, hb, hcache⟩

/-- What has been linked so far, when a binding is brought up to date, fits the tree. -/
theorem Guided.synced (h : Guided R f) {b : Binding} (hb : f.registry.get? id = some b) (hsync : Synced id f g)
    (hcaches : ∀ m, g.registry.Caches id m → f.tree.Matches b.selector b.base m) : Guided R g := by
  refine h.relinked hsync.relinked fun i d m hd hm => ?_
  by_cases hi : i = id
  · subst hi
    rw [Registry.bound?, hb, Option.map_some] at hd
    obtain rfl := Option.some.inj hd
    exact hcaches m hm
  · exact h.cached i d m hd ((hsync.others i m hi).1 hm)

/-- A link that is refused to a field that the binding stands for closes a circle. -/
theorem Guided.tellsOf (h : Guided R f) {d : Bound} (hd : f.registry.bound? id = some d) {fields : NodeId → Prop}
    (hfields : ∀ m, fields m → f.tree.Matches d.selector d.base m) {e : FormError} (hcloses : f.ClosesBy id fields e) :
    f.tree.TellsOf R e :=
  fun _ => h.circular hd hfields hcloses

theorem Guided.syncBy (h : Guided R f) (hco : CoherentBut { unread } f) : Ends (syncBy order mode id f)
    (fun _ g => Guided R g ∧ CoherentBut { unread } g ∧ Synced id f g) (fun e _ => f.tree.TellsOf R e) := by
  cases hb : f.registry.get? id with
  | none =>
    rw [syncBy_of_none hb]
    exact ⟨h, hco, .refl id f⟩
  | some b =>
    refine (hco.syncBy_spec hb order).mono ?_ ?_
    · rintro _ g ⟨hco', hsync, hcaches⟩
      exact ⟨h.synced hb hsync fun m hm => h.matches_of_fresh hb ((hcaches m).1 hm), hco', hsync⟩
    · rintro e g ⟨-, hsync, hcloses, hcaches⟩
      have hg : Guided R g := h.synced hb hsync fun m hm => h.matches_of_fresh hb ((hcaches m).2 hm)
      have hd : g.registry.bound? id = some b.bound := by
        rw [hsync.relinked.bound, Registry.bound?, hb, Option.map_some]
      rw [← hsync.relinked.beside.tree]
      refine hg.tellsOf hd (fun m hm => ?_) hcloses
      rw [hsync.relinked.beside.tree]
      exact h.matches_of_fresh hb hm

/-- So do links that are refused when what is pending is followed up. -/
theorem Guided.settle (h : Guided R f) (hf : Consistent f) : Ends (Form.settle f) (fun _ _ => True)
    (fun e _ => f.tree.TellsOf R e) := by
  have hclear : Guided R f.clearPending :=
    { cached := h.cached, related := h.related, keyed := h.keyed, right := h.right }
  have hloop (mode : Refresh) (ids : List BindingId) : Ends (ids.forM (Form.syncBy .ascending mode) f.clearPending)
      (fun _ g => Consistent g) (fun e _ => f.tree.TellsOf R e) := by
    refine (Ends.forM (I := fun _ g => Guided R g ∧ Consistent g ∧ g.tree = f.tree) ?_
      ⟨hclear, hf.congr rfl rfl hf.levels, rfl⟩).mono (fun _ _ hg => hg.2.1) fun _ _ he => he
    rintro a rest g ⟨hg, hcons, htree⟩
    refine (hg.syncBy hcons.coherent).mono ?_ fun e _ he => htree ▸ he
    rintro _ g' ⟨hg', hco, hsync⟩
    exact ⟨hg', hcons.relinked hco hsync.acyclic_all hsync.levels, hsync.relinked.beside.tree.trans htree⟩
  unfold Form.settle
  split
  · refine Ends.bind ?_
    unfold Form.recomputePending Form.recomputePendingBy
    split
    · trivial
    · dsimp only
      split
      next hrun => exact (hloop _ _).of_error hrun
      next hrun =>
        obtain ⟨levels, report, g', -, hrun', -⟩ :=
          ((hloop _ _).of_ok hrun).evaluateAffected .ascending (f.affected f.seeds)
        rw [hrun']
        trivial
  · trivial

end Guided

section Attaching

variable {text : String} {q : Place}

/-- Once the formula of a node has been read, it reads what its selectors stand for. -/
theorem Guided.withFormula (h : Guided R f) (hf : Coherent f) {F : Formula} {r : Registry}
    (hreads : F.Reads f.tree r n text) (hright : r.Right f.tree) (htaken : Registry.Taken n F.bindings f.registry r)
    (hown : ∀ s base m, (s, base) ∈ f.tree.selections n text → f.tree.Matches s base m → R m n) :
    Guided R (f.withFormula n F r) := by
  have hold {id : BindingId} {d : Bound} (hd : r.bound? id = some d) (hsome : (f.registry.get? id).isSome) :
      f.registry.bound? id = some d := by
    obtain ⟨b, hb⟩ := Option.isSome_iff_exists.1 hsome
    have hd' : f.registry.bound? id = some b.bound := by rw [Registry.bound?, hb, Option.map_some]
    rw [hd', ← hd, htaken.bound? hd']
  refine { cached := fun id d m hd hm => ?_, related := fun id d m c hd hu hm => ?_, keyed := h.keyed, right := hright }
  · obtain ⟨b, hb, -⟩ := htaken.caches.1 hm
    exact h.cached _ d m (hold hd (by rw [hb]; rfl)) (htaken.caches.1 hm)
  · obtain ⟨F', hF', hid⟩ := hu
    rw [formula?_withFormula] at hF'
    split at hF'
    next hc =>
      obtain rfl := Option.some.inj hF'
      exact hc ▸ hown _ _ m (FieldTree.mem_selections.2 (hreads.selects_iff.2 ⟨id, hid, d, hd, rfl, rfl⟩)) hm
    next =>
      have huse : f.graph.Uses c id := ⟨F', hF', hid⟩
      obtain ⟨b, hb, -⟩ := (hf.consumers id c).2 (.inl huse)
      exact h.related id d m c (hold hd (by rw [hb]; rfl)) huse hm

/-- A formula that is refused closes a circle by way of what its selectors stand for. -/
theorem Guided.attachFormula (h : Guided R f) (hf : Consistent f) (hn : f.graph.formula? n = none)
    (hq : f.tree.place? n = some q) (hlive : q.inTemplate = false)
    (hown : ∀ s base m, (s, base) ∈ f.tree.selections n text → f.tree.Matches s base m → R m n) :
    Ends (Form.attachFormula n text f) (fun _ g => Guided R g ∧ Consistent g ∧ g.tree = f.tree)
      (fun e _ => f.tree.TellsOf R e) := by
  have hparse := Formula.parse_spec (t := f.tree) hf.coherent.fresh (hf.coherent.not_serves hn) hf.coherent.used text
  have hright := Formula.parse_right h.keyed hq hlive h.right hf.coherent.fresh text
  rw [attachFormula_eq]
  cases hp : Formula.parse f.tree n text f.registry with
  | error e r =>
    rintro ⟨paths, rfl⟩
    exact absurd rfl ((hparse.of_error hp).2.2.1.ne_cycle paths)
  | ok F r =>
    obtain ⟨hanchor, htaken⟩ := hparse.of_ok hp
    obtain ⟨hr, hreads⟩ := hright.of_ok hp
    have hconnect := (hf.joining hn hanchor htaken).connect (P := fun _ g => Guided R g) (fun id hid => uses_withFormula hid)
      (h.withFormula hf.coherent hreads hr htaken hown) fun a rest b g g' hb _ hsync hcaches hg =>
        hg.synced hb hsync fun m hm => hg.matches_of_fresh hb ((hcaches m).1 hm)
    refine FormM.ends_orUndo (hconnect.mono ?_ ?_)
    · rintro _ _ ⟨g, hjoining, hg, rfl⟩
      obtain ⟨hcons, hrel⟩ := hjoining.finish
      refine ⟨hg.relinked hrel hg.cached, hcons, ?_⟩
      rw [hrel.beside.tree, hjoining.relinked.beside.tree]
      rfl
    · rintro e g' ⟨-, a, rest, b, g, hb, hrel, -, hg, hrefused⟩
      have hmatches (m : NodeId) (hm : g'.registry.Caches a m ∨ m ∈ b.fresh g.tree .fromScratch) :
          g.tree.Matches b.selector b.base m := by
        have hcache (hm : m ∈ b.cache) : g.tree.Matches b.selector b.base m :=
          hg.cached a b.bound m (by rw [Registry.bound?, hb, Option.map_some]) ⟨b, hb, hm⟩
        exact hm.elim (fun hm => (hrefused.caches m hm).elim hcache (hg.matches_of_fresh hb)) (hg.matches_of_fresh hb)
      have hg' : Guided R g' := hg.synced hb hrefused.synced fun m hm => hmatches m (.inl hm)
      have htree' : g'.tree = g.tree := hrefused.synced.relinked.beside.tree
      have htree : g.tree = f.tree := hrel.beside.tree
      have hd : g'.registry.bound? a = some b.bound := by
        rw [hrefused.synced.relinked.bound, Registry.bound?, hb, Option.map_some]
      rw [← htree, ← htree']
      exact hg'.tellsOf hd (fun m hm => htree' ▸ hmatches m hm) hrefused.closes

/-- A link of a node that is refused closes a circle. -/
theorem Guided.linkOnce (h : Guided R f) (hf : Consistent f) {d : Bound} (hd : f.registry.bound? id = some d)
    (hmatch : f.tree.Matches d.selector d.base n) : Ends (Form.linkOnce n id f)
      (fun _ g => Guided R g ∧ Consistent g ∧ g.tree = f.tree ∧ ∀ i, g.registry.bound? i = f.registry.bound? i)
      (fun e _ => f.tree.TellsOf R e) := by
  have hid : (f.registry.get? id).isSome := isSome_get?_of_bound hd
  unfold Form.linkOnce
  split
  · exact ⟨h, hf, rfl, fun _ => rfl⟩
  · refine FormM.ends_orUndo (hf.coherent.link_spec.mono ?_ ?_)
    · rintro _ g ⟨rfl, hpath⟩
      have hrel : Relinked f (f.linked id n) := hf.coherent.relinked_linked hid
      refine ⟨h.relinked hrel fun i d' m hd' hm => ?_, hf.linked hid hpath, hrel.beside.tree, hrel.bound⟩
      rcases (caches_linked hid).1 hm with hm | ⟨rfl, rfl⟩
      · exact h.cached i d' m hd' hm
      · obtain rfl := Option.some.inj (hd.symm.trans hd')
        exact hmatch
    · rintro e g ⟨rfl, hcloses⟩
      have hfields : ∀ m, m = n → g.tree.Matches d.selector d.base m := fun m hm => hm ▸ hmatch
      exact h.tellsOf hd hfields hcloses

/-- So does one of the links of a node with the bindings that stand for it. -/
theorem Guided.linkAll (h : Guided R f) (hf : Consistent f) : Ends ((f.registry.accepting f.tree n).forM (Form.linkOnce n) f)
    (fun _ g => Guided R g ∧ Consistent g ∧ g.tree = f.tree) (fun e _ => f.tree.TellsOf R e) := by
  refine (Ends.forM (I := fun rest g => (Guided R g ∧ Consistent g ∧ g.tree = f.tree) ∧
    (∀ i, g.registry.bound? i = f.registry.bound? i) ∧ ∀ id ∈ rest, id ∈ f.registry.accepting f.tree n) ?_
    ⟨⟨h, hf, rfl⟩, fun _ => rfl, fun _ hid => hid⟩).mono (fun _ _ hg => hg.1) fun _ _ he => he
  rintro a rest g ⟨⟨hg, hcons, htree⟩, hbound, hsub⟩
  obtain ⟨b, hb, haccepts⟩ := Registry.mem_accepting.1 (hsub a List.mem_cons_self)
  have hd : g.registry.bound? a = some b.bound := by rw [hbound, Registry.bound?, hb, Option.map_some]
  have hmatch : g.tree.Matches b.bound.selector b.bound.base n := htree ▸ (h.right.accepts_iff hb).1 haccepts
  refine (hg.linkOnce hcons hd hmatch).mono ?_ fun e _ he => htree ▸ he
  rintro _ g' ⟨hg', hcons', htree', hbound'⟩
  exact ⟨⟨hg', hcons', htree'.trans htree⟩, fun i => (hbound' i).trans (hbound i),
    fun id hid => hsub id (List.mem_cons_of_mem _ hid)⟩

/-- Taking a node without a formula into the graph fails on account of a circle only if there is one. -/
theorem Guided.attach (h : Guided R f) (hf : Consistent f) (hn : f.graph.formula? n = none) (e : Option String)
    (hown : ∀ text ∈ e, ∀ s base m, (s, base) ∈ f.tree.selections n text → f.tree.Matches s base m → R m n)
    (hq : f.tree.place? n = some q) (hlive : q.inTemplate = false) :
    Ends ((do
      e.forM (Form.attachFormula n)
      let f ← get
      (f.registry.accepting f.tree n).forM (Form.linkOnce n)
      FormM.update (·.prune n) : FormM Unit) f)
      (fun _ g => Guided R g ∧ Consistent g ∧ g.tree = f.tree) (fun e _ => f.tree.TellsOf R e) := by
  have hlink {g : Form} (hg : Guided R g) (hcons : Consistent g) (htree : g.tree = f.tree) : Ends ((do
      let f ← get
      (f.registry.accepting f.tree n).forM (Form.linkOnce n)
      FormM.update (·.prune n) : FormM Unit) g)
      (fun _ g => Guided R g ∧ Consistent g ∧ g.tree = f.tree) (fun e _ => f.tree.TellsOf R e) := by
    refine Ends.bind (Ends.bind ((hg.linkAll hcons).mono ?_ fun e _ he => htree ▸ he))
    rintro _ g' ⟨hg', hcons', htree'⟩
    obtain ⟨-, hrel⟩ := hcons'.coherent.prune n
    exact FormM.ends_update ⟨hg'.relinked hrel hg'.cached, hcons'.prune n,
      hrel.beside.tree.trans (htree'.trans htree)⟩
  cases e with
  | none => exact Ends.bind (Ends.pure (hlink h hf rfl))
  | some text =>
    refine Ends.bind ((h.attachFormula hf hn hq hlive (hown text rfl)).mono ?_ fun _ _ he => he)
    rintro _ g ⟨hg, hcons, htree⟩
    exact hlink hg hcons htree

end Attaching

/-- The graph of a form is the one that is derived from its tree, but for one node: the tree that it is derived from lacks
the node, or has another formula there. -/
def DerivedBut (n : NodeId) (f : Form) : Prop :=
  ∃ t g, FieldTree.DiffersAt n t f.tree ∧ t.Keyed ∧ rebuild (f.withTree t) = .ok () g ∧ SameDependencies (f.withTree t) g

section Registering

variable {t t' : FieldTree} {e : Option String}

/-- If a graph follows a tree, then its links, without those of a node, are among those of a tree that differs at the
node. -/
theorem guided_of_follows (h : Follows (f.withTree t)) (hdiff : FieldTree.DiffersAt n t f.tree)
    (hdiff' : FieldTree.DiffersAt n f.tree t') (ht : f.tree.Keyed) (htree : g.tree = f.tree)
    (hbound : ∀ id d, g.registry.bound? id = some d → f.registry.bound? id = some d)
    (hcaches : ∀ id m, g.registry.Caches id m → f.registry.Caches id m)
    (huses : ∀ c id, g.graph.Uses c id → c ≠ n ∧ f.graph.Uses c id) : Guided t'.Feeds g where
  cached id d m hd hm := by
    rw [htree]
    exact hdiff.stays.matches (h.cached id d m (hbound id d hd) (hcaches id m hm))
  related id d m c hd hu hm := by
    obtain ⟨hc, hu'⟩ := huses c id hu
    have hmem : (d.selector, d.base) ∈ t.selectionsAt c := h.mem_selectionsAt_of_uses hu' (hbound id d hd)
    rw [htree] at hm
    rw [← hdiff.selectionsAt hc, ← hdiff'.selectionsAt hc] at hmem
    exact ⟨d.selector, d.base, hmem, hdiff'.stays.matches hm⟩
  keyed := htree ▸ ht
  right := by
    rw [htree]
    refine Registry.Right.of_bound? (r := f.registry) ⟨fun id d hd => ?_, h.right.key⟩ hbound
    obtain ⟨hparsed, p, hp, hlive, hpath⟩ := h.right.bound id d hd
    obtain ⟨p', hp', -, hpath', hlive'⟩ := hdiff.stays d.base p hp
    exact ⟨hparsed, p', hp', hlive'.trans hlive, hpath.trans hpath'.symm⟩

/-- The same if the node has no formula. -/
theorem guided_of_formula?_eq_none (h : Follows (f.withTree t)) (hdiff : FieldTree.DiffersAt n t f.tree)
    (hdiff' : FieldTree.DiffersAt n f.tree t') (ht : f.tree.Keyed) (hnone : f.graph.formula? n = none) :
    Guided t'.Feeds f := by
  refine guided_of_follows h hdiff hdiff' ht rfl (fun _ _ hd => hd) (fun _ _ hm => hm) fun c id hu => ⟨?_, hu⟩
  rintro rfl
  obtain ⟨F, hF, -⟩ := hu
  simp [hnone] at hF

/-- The same once the formula of the node has been taken back. -/
theorem guided_withoutFormula (h : Follows (f.withTree t)) (hdiff : FieldTree.DiffersAt n t f.tree)
    (hdiff' : FieldTree.DiffersAt n f.tree t') (hf : Consistent f) (ht : f.tree.Keyed) : ∃ f₀,
      (if (f.graph.formula? n).isSome then f.detach n else f) = f₀ ∧ Consistent f₀ ∧ f₀.tree = f.tree ∧
      f₀.graph.formula? n = none ∧ Guided t'.Feeds f₀ := by
  split
  next =>
    obtain ⟨hcons, hdet⟩ := hf.detach n
    refine ⟨_, rfl, hcons, hdet.beside.tree, by rw [hdet.formula, if_pos rfl],
      guided_of_follows h hdiff hdiff' ht hdet.beside.tree hdet.bound (fun id m hm => ((hdet.caches id m).1 hm).1) ?_⟩
    rintro c id ⟨F, hF, hid⟩
    rw [hdet.formula] at hF
    split at hF
    · cases hF
    next hc => exact ⟨hc, F, hF, hid⟩
  next hsome =>
    have hnone : f.graph.formula? n = none := by simpa using hsome
    exact ⟨f, rfl, hf, rfl, hnone, guided_of_formula?_eq_none h hdiff hdiff' ht hnone⟩

/-- Registering a formula fails on account of a circle only if there is one in the tree that has the formula. -/
theorem DerivedBut.register (h : f.DerivedBut n) (hf : Consistent f) (ht : f.tree.Keyed)
    (hset : f.tree.setFormula n e = .ok t') :
    Ends (register n e f) (fun _ _ => True) (fun error _ => f.tree.TellsOf t'.Feeds error) := by
  obtain ⟨t, g, hdiff, hkeyed, hrebuild, hsame⟩ := h
  have hdiff' := FieldTree.differsAt_of_setFormula hset
  have hcons : Consistent (f.withTree t) := hf.congr rfl rfl hf.levels
  have hfollows : Follows (f.withTree t) := (hcons.tracking_of_rebuild hkeyed hrebuild hsame).follows
  -- If the node had a formula, that is taken back first.
  obtain ⟨f₀, hf₀, hcons₀, htree₀, hnone₀, hguided₀⟩ := guided_withoutFormula hfollows hdiff hdiff' hf ht
  unfold Form.register whenUpdating
  split
  swap
  · trivial
  refine Ends.bind ?_
  unfold Form.attach
  split
  · exact fun ⟨paths, he⟩ => absurd he FormError.noConfusion
  next hcontains =>
    obtain ⟨q, hq⟩ : ∃ q, f.tree.place? n = some q := by
      rw [FieldTree.contains_eq] at hcontains
      exact Option.ne_none_iff_exists'.1 (by simpa using hcontains)
    split
    next htemplate =>
      -- A node of a template is not taken in, and has not been before.
      refine (guided_of_formula?_eq_none hfollows hdiff hdiff' ht ?_).settle hf
      cases hF : f.graph.formula? n with
      | none => rfl
      | some F =>
        obtain ⟨text, ⟨p, hp, hlive, -⟩, -⟩ := hfollows.reads n F hF
        obtain ⟨p', hp', -, -, hlive'⟩ := hdiff.node p hp
        rw [FieldTree.inTemplate_eq, hp', Option.map_some, hlive', hlive] at htemplate
        cases htemplate
    next htemplate =>
      have hlive : q.inTemplate = false := by simpa [FieldTree.inTemplate_eq, hq] using htemplate
      rw [hf₀, ← htree₀]
      refine (hguided₀.attach hcons₀ hnone₀ e ?_ (htree₀ ▸ hq) hlive).mono ?_ fun _ _ he => he
      · rintro text rfl s base m hmem hm
        rw [htree₀] at hmem hm
        exact ⟨s, base, (FieldTree.mem_selectionsAt_of_setFormula hset hq hlive).2 hmem, hdiff'.stays.matches hm⟩
      · rintro _ g' ⟨hg', hcons', htree'⟩
        exact htree' ▸ hg'.settle hcons'

end Registering

section Reported

variable {f g : Form} {path name : String} {kind : Kind} {formula : Option String} {paths : List Path}

/-- The circle for which an element is rejected. -/
theorem Faithful.goRound_of_pushElement (h : Faithful f) (hfailed : pushElement path f = .error (.cycle paths) g) :
    ∃ array t', f.tree.Resolves path array ∧ f.tree.Grown array t' ∧ t'.GoRound paths := by
  suffices hends : Ends (pushElement path f) (fun _ _ => True) fun e _ => (∃ paths, e = .cycle paths) →
      ∃ array t', f.tree.Resolves path array ∧ f.tree.Grown array t' ∧ t'.Explains e by
    obtain ⟨array, t', hres, hgrown, hexplains⟩ := hends.of_error hfailed ⟨paths, rfl⟩
    exact ⟨array, t', hres, hgrown, hexplains.goRound⟩
  refine Ends.bind ((ends_resolve path).mono ?_ ?_)
  · rintro array f' ⟨rfl, hres⟩
    refine h.sound.pushElementAt.mono (fun _ _ _ => trivial) ?_
    rintro e g ⟨-, -, -, hexplains⟩ hcycle
    obtain ⟨t', hgrown, hexplains⟩ := hexplains hcycle
    exact ⟨array, t', hres, hgrown, hexplains⟩
  · rintro e f' ⟨-, -, hpath⟩ ⟨paths, rfl⟩
    simp at hpath

/-- The circle for which a field is rejected. -/
theorem Faithful.goRound_of_addField (h : Faithful f)
    (hfailed : addField path name kind formula f = .error (.cycle paths) g) :
    ∃ parent t', f.tree.Resolves path parent ∧ f.tree.Attempted parent (.name name) kind formula t' ∧
      t'.GoRound paths := by
  suffices hends : Ends (addField path name kind formula f) (fun _ _ => True) fun e _ => (∃ paths, e = .cycle paths) →
      ∃ parent t', f.tree.Resolves path parent ∧ f.tree.Attempted parent (.name name) kind formula t' ∧ t'.Explains e by
    obtain ⟨parent, t', hres, hattempted, hexplains⟩ := hends.of_error hfailed ⟨paths, rfl⟩
    exact ⟨parent, t', hres, hattempted, hexplains.goRound⟩
  refine Ends.bind ((ends_resolve path).mono ?_ ?_)
  · rintro parent f' ⟨rfl, hres⟩
    refine h.sound.addNode.mono (fun _ _ _ => trivial) ?_
    rintro e g ⟨-, -, hexplains⟩ hcycle
    obtain ⟨t', hattempted, hexplains⟩ := hexplains hcycle
    exact ⟨parent, t', hres, hattempted, hexplains⟩
  · rintro e f' ⟨-, -, hpath⟩ ⟨paths, rfl⟩
    simp at hpath

/-- A circle that is reported is one of the tree with what was rejected for it. This holds of registering a formula, of
adding an element to an array or a field to a group or to an array, if the graph is the one that is derived from the tree,
and of deriving the graph. -/
theorem reported_circles (f g : Form) (paths : List Path) :
    (∀ n e t', Consistent f → f.tree.Keyed → f.DerivedBut n → f.tree.setFormula n e = .ok t' →
      register n e f = .error (.cycle paths) g → t'.GoRound paths) ∧
    (∀ path, Faithful f → pushElement path f = .error (.cycle paths) g →
      ∃ array t', f.tree.Resolves path array ∧ f.tree.Grown array t' ∧ t'.GoRound paths) ∧
    (∀ path name kind formula, Faithful f → addField path name kind formula f = .error (.cycle paths) g →
      ∃ parent t', f.tree.Resolves path parent ∧ f.tree.Attempted parent (.name name) kind formula t' ∧
        t'.GoRound paths) ∧
    (Consistent f → f.tree.Keyed → rebuild f = .error (.cycle paths) g → f.tree.GoRound paths) := by
  refine ⟨fun n e t' hf ht hderived hset hfailed => ?_, fun path h hfailed => h.goRound_of_pushElement hfailed,
    fun path name kind formula h hfailed => h.goRound_of_addField hfailed, fun hf ht hfailed => ?_⟩
  · have htells := (hderived.register hf ht hset).of_error hfailed
    refine FieldTree.TellsOf.goRound fun hcycle => ?_
    rw [FieldTree.path_of_setFormula hset]
    exact htells hcycle
  · obtain ⟨g₀, -, -, -, hexplains⟩ := (hf.coherent.renew ht).of_error hfailed
    exact hexplains.goRound

/-- A field that reads another one. -/
def reader : Form :=
  Edit.runAll [.addField "" "a" .field (some "ref /b"), .addField "" "b" .field none] (ofSettings {})

/-- A field that reads one that is not there. -/
def awaiting : Form :=
  Edit.runAll [.addField "" "a" .field (some "ref /c")] (ofSettings {})

/-- An array whose template reads a field that adds up what the elements hold. -/
def summed : Form :=
  Edit.runAll [.addField "" "a" .array none, .addField "/a" "x" .field (some "ref /s"),
    .addField "" "s" .field (some "sum /a[-1].x")] (ofSettings {})

/-- Two fields that read each other, in a form whose graph is not kept up to date. -/
def unnoticed : Form :=
  Edit.runAll [.addField "" "a" .field (some "ref /b"), .addField "" "b" .field (some "ref /a")]
    (ofSettings { updateGraph := false })

theorem exists_error_of_names {α : Type} {r : EStateM.Result FormError Form α} (paths : List Path)
    (h : (failure? r).map Prod.fst = some (.cycle paths)) : ∃ g, r = .error (.cycle paths) g := by
  obtain ⟨⟨e, g⟩, hfailed, rfl⟩ := Option.map_eq_some_iff.1 h
  exact ⟨g, failure?_eq_some.1 hfailed⟩

/-- The circles that are reported when the second field is to read the first one as well, when the array is to get an
element, when a field is added that reads the one that reads it, and when the graph is derived. -/
theorem reported_circles_of_readers :
    (∃ t' g, reader.tree.setFormula 2 (some "ref /a") = .ok t' ∧
      register 2 (some "ref /a") reader = .error (.cycle [⟨[.name "a"]⟩, ⟨[.name "b"]⟩, ⟨[.name "a"]⟩]) g ∧
      t'.GoRound [⟨[.name "a"]⟩, ⟨[.name "b"]⟩, ⟨[.name "a"]⟩]) ∧
    (∃ g array t', pushElement "/a" summed =
        .error (.cycle [⟨[.name "a", .index 0, .name "x"]⟩, ⟨[.name "s"]⟩, ⟨[.name "a", .index 0, .name "x"]⟩]) g ∧
      summed.tree.Resolves "/a" array ∧ summed.tree.Grown array t' ∧
      t'.GoRound [⟨[.name "a", .index 0, .name "x"]⟩, ⟨[.name "s"]⟩, ⟨[.name "a", .index 0, .name "x"]⟩]) ∧
    (∃ g parent t', addField "" "c" .field (some "ref /a") awaiting =
        .error (.cycle [⟨[.name "a"]⟩, ⟨[.name "c"]⟩, ⟨[.name "a"]⟩]) g ∧
      awaiting.tree.Resolves "" parent ∧
      awaiting.tree.Attempted parent (.name "c") .field (some "ref /a") t' ∧
      t'.GoRound [⟨[.name "a"]⟩, ⟨[.name "c"]⟩, ⟨[.name "a"]⟩]) ∧
    ∃ g, rebuild unnoticed = .error (.cycle [⟨[.name "a"]⟩, ⟨[.name "b"]⟩, ⟨[.name "a"]⟩]) g ∧
      unnoticed.tree.GoRound [⟨[.name "a"]⟩, ⟨[.name "b"]⟩, ⟨[.name "a"]⟩] := by
  have hreader : Faithful reader := Tended.faithful (Reached.runAll (.created rfl) ⟨trivial, trivial, trivial⟩)
  have hsummed : Faithful summed := Tended.faithful (Reached.runAll (.created rfl) ⟨trivial, trivial, trivial, trivial⟩)
  have hawaiting : Faithful awaiting := Tended.faithful (Reached.runAll (.created rfl) ⟨trivial, trivial⟩)
  have hunnoticed : Arisen unnoticed := Reached.runAll (.created trivial) ⟨trivial, trivial, trivial⟩
  refine ⟨?_, ?_, ?_, ?_⟩
  · obtain ⟨g, hfailed⟩ := exists_error_of_names (r := register 2 (some "ref /a") reader)
      [⟨[.name "a"]⟩, ⟨[.name "b"]⟩, ⟨[.name "a"]⟩] (by cbv)
    have hkeyed := hreader.arisen.intact.tree.wellFormed.keyed
    obtain ⟨g₀, hderived, hsame⟩ := hreader.derived
    have hset : (reader.tree.setFormula 2 (some "ref /a")).isOk = true := by cbv
    cases ht' : reader.tree.setFormula 2 (some "ref /a") with
    | error e =>
      rw [ht'] at hset
      cases hset
    | ok t' =>
      exact ⟨t', g, rfl, hfailed, (reported_circles _ _ _).1 _ _ _ hreader.arisen.intact.consistent hkeyed
        ⟨reader.tree, g₀, .refl 2 _, hkeyed, hderived, hsame⟩ ht' hfailed⟩
  · obtain ⟨g, hfailed⟩ := exists_error_of_names (r := pushElement "/a" summed)
      [⟨[.name "a", .index 0, .name "x"]⟩, ⟨[.name "s"]⟩, ⟨[.name "a", .index 0, .name "x"]⟩] (by cbv)
    obtain ⟨array, t', hres, hgrown, hround⟩ := (reported_circles _ _ _).2.1 _ hsummed hfailed
    exact ⟨g, array, t', hfailed, hres, hgrown, hround⟩
  · obtain ⟨g, hfailed⟩ := exists_error_of_names (r := addField "" "c" .field (some "ref /a") awaiting)
      [⟨[.name "a"]⟩, ⟨[.name "c"]⟩, ⟨[.name "a"]⟩] (by cbv)
    obtain ⟨parent, t', hres, hattempted, hround⟩ := (reported_circles _ _ _).2.2.1 _ _ _ _ hawaiting hfailed
    exact ⟨g, parent, t', hfailed, hres, hattempted, hround⟩
  · obtain ⟨g, hfailed⟩ := exists_error_of_names (r := rebuild unnoticed)
      [⟨[.name "a"]⟩, ⟨[.name "b"]⟩, ⟨[.name "a"]⟩] (by cbv)
    exact ⟨g, hfailed, (reported_circles _ _ _).2.2.2 hunnoticed.intact.consistent
      hunnoticed.intact.tree.wellFormed.keyed hfailed⟩

/-- Two elements of an array. The second one held fields that read, by way of fields outside the array, each other's
namesakes at fixed indices, and the removal of the first element was given up for it, once it was gone. -/
def strained : Form :=
  Edit.runAll [.addField "" "a" .array none, .pushElement "/a", .pushElement "/a",
    .addField "" "p" .field (some "ref /a[1].y"), .addField "" "q" .field (some "ref /a[0].x"),
    .addField "/a[1]" "x" .field (some "ref /p"), .addField "/a[1]" "y" .field (some "sum /q /w"),
    .removeElement "/a" 0] (ofSettings {})

theorem strained_tree : strained.tree =
    { fields :=
        .cons 1 (.name "a") { kind := .array }
          (.cons 2 (.index (-1)) { kind := .group, isTemplate := true } .nil
            (.cons 4 (.index 0) { kind := .group }
              (.cons 7 (.name "x") { kind := .field, formula := some "ref /p" } .nil
                (.cons 8 (.name "y") { kind := .field, formula := some "sum /q /w" } .nil .nil)) .nil))
          (.cons 5 (.name "p") { kind := .field, formula := some "ref /a[1].y" } .nil
            (.cons 6 (.name "q") { kind := .field, formula := some "ref /a[0].x" } .nil .nil))
      next := 9 } := by cbv

/-- What the tree is with the field that is rejected. -/
def strainedTree : FieldTree :=
  strained.tree.withNew rootId (.name "w") .field (some "ref /p")

/-- There is no second element any more, so nothing is read by the field that reads it. -/
theorem not_feeds_of_strainedTree (ht : strainedTree.Keyed) {m c : NodeId} (h : strainedTree.Feeds m c) :
    strainedTree.path c ≠ ⟨[.name "p"]⟩ := by
  intro hpath
  have hread := (FieldTree.mem_freshReadings ht).2 h
  obtain ⟨s, base, hmem, -⟩ := h
  obtain ⟨q, hq⟩ : ∃ q, strainedTree.place? c = some q := by
    cases hplace : strainedTree.place? c with
    | some q => exact ⟨q, rfl⟩
    | none => simp [FieldTree.selectionsAt, hplace] at hmem
  have hroot : strainedTree.rootKey = none := by
    rw [strainedTree, strained_tree]
    rfl
  have hfind := (FieldTree.find?_eq_some ht hroot).2 ⟨q, hq, (FieldTree.path_of_place? hq).symm.trans hpath⟩
  have hreads : (strainedTree.find? ⟨[.name "p"]⟩).map strainedTree.freshReadings = some [] := by
    rw [strainedTree, strained_tree]
    cbv
  rw [hfind, Option.map_some, Option.some.injEq] at hreads
  rw [hreads] at hread
  cases hread

/-- A circle is reported that goes by way of that field. -/
theorem unreal_circle_of_strained : ∃ paths g, addField "" "w" .field (some "ref /p") strained = .error (.cycle paths) g ∧
    ∀ parent t', strained.tree.Resolves "" parent →
      strained.tree.Attempted parent (.name "w") .field (some "ref /p") t' → ¬ t'.GoRound paths := by
  obtain ⟨g, hfailed⟩ := exists_error_of_names (r := addField "" "w" .field (some "ref /p") strained)
    [⟨[.name "a", .index 0, .name "y"]⟩, ⟨[.name "p"]⟩, ⟨[.name "w"]⟩, ⟨[.name "a", .index 0, .name "y"]⟩]
    (by cbv)
  have harisen : Arisen strained := Reached.runAll (.created trivial)
    ⟨trivial, trivial, trivial, trivial, trivial, trivial, trivial, trivial, trivial⟩
  have ht := harisen.intact.tree.wellFormed
  refine ⟨_, g, hfailed, ?_⟩
  rintro parent t' hres ⟨hformula, p, hp, hadded⟩ hround
  obtain rfl : parent = rootId := hres.unique ⟨.root, by cbv, rfl⟩
  obtain rfl := Option.some.inj (strained.tree.place?_root.symm.trans hp)
  have hgroup : strained.tree.rootPlace.node.kind = .group := by
    rw [strained_tree]
    rfl
  rw [hgroup] at hadded
  obtain ⟨hcheck, rfl⟩ := hadded
  have hkeyed : strainedTree.Keyed := ((FieldTree.grafts_withNew ht hcheck hformula).wellFormed ht).keyed
  obtain ⟨nodes, hnodes, hchain, -⟩ := hround.nodes
  obtain ⟨y, rest, rfl, -, hrest⟩ := List.map_eq_cons_iff.1 hnodes.symm
  obtain ⟨x, rest, rfl, hx, -⟩ := List.map_eq_cons_iff.1 hrest
  exact not_feeds_of_strainedTree hkeyed (List.isChain_cons_cons.1 hchain).1 hx

end Reported

end Form

end LiveForm
