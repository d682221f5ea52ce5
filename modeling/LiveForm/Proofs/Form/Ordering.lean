import LiveForm.Proofs.Form.Driving
import Mathlib

/-!
# The order in which a recomputation visits things

A recomputation brings the caches of some bindings up to date, one after the other, and then evaluates formulas. While
it is under way, the bindings that have had their turn stand for other fields than those that are still waiting. So a link
may be refused on account of one that is about to go, and whether that happens depends on the order. Among the orders
in which no link is refused, none can be told from the others by what the recomputation leaves.
-/

set_option autoImplicit false

namespace LiveForm

namespace Form

open Relation

variable {f g g' : Form} {done : List BindingId} {id : BindingId} {m n x : NodeId} {order order' : VisitOrder}
  {changed changed' : Prop} {report report' : Report}

section Marking

/-- The links of a binding have been changed, if at all, and then its users are pending. -/
structure Marked (id : BindingId) (changed : Prop) (f g : Form) : Prop where
  registry : g.registry = { f.registry with bindings := g.registry.bindings }
  serves : ∀ x, g.registry.Serves id x ↔ f.registry.Serves id x
  pending : ∀ x, x ∈ g.pending ↔ x ∈ f.pending ∨ (changed ∧ f.registry.Serves id x)

theorem Marked.refl (id : BindingId) (f : Form) : Marked id False f f :=
  ⟨rfl, fun _ => Iff.rfl, by simp⟩

theorem Marked.trans (h : Marked id changed f g) (h' : Marked id changed' g g') :
    Marked id (changed ∨ changed') f g' where
  registry := by rw [h'.registry, h.registry]
  serves x := (h'.serves x).trans (h.serves x)
  pending x := by
    rw [h'.pending, h.pending, h.serves]
    grind

theorem Marked.congr (h : Marked id changed f g) (heq : changed ↔ changed') : Marked id changed' f g :=
  propext heq ▸ h

theorem marked_unlink : Marked id True f (f.unlink id m) where
  registry := by rw [registry_unlink]; rfl
  serves _ := serves_unlink
  pending _ := by rw [mem_pending_unlink, true_and]

theorem marked_linked : Marked id True f (f.linked id m) where
  registry := rfl
  serves _ := serves_linked
  pending _ := by rw [mem_pending_linked, true_and]

theorem marked_foldl_unlink (fields : List NodeId) :
    Marked id (fields ≠ []) f (fields.foldl (·.unlink id ·) f) := by
  induction fields generalizing f with
  | nil => exact (Marked.refl id f).congr (by simp)
  | cons a rest ih => exact (marked_unlink.trans ih).congr (by simp)

theorem marked_forM_link (fields : List NodeId) : Ends (fields.forM (link id) f)
    (fun _ g => Marked id (fields ≠ []) f g) (fun _ _ => True) := by
  induction fields generalizing f with
  | nil => exact (Marked.refl id f).congr (by simp)
  | cons a rest ih =>
    refine Ends.bind ?_
    rw [link_eq]
    split
    · trivial
    · exact ih.mono (fun _ _ hg => (marked_linked.trans hg).congr (by simp)) fun _ _ _ => trivial

/-- Bringing a cache up to date makes the users of the binding pending if it changes the cache. -/
theorem marked_syncBy {mode : Refresh} {b : Binding} (hb : f.registry.get? id = some b) (order : VisitOrder) :
    Ends (syncBy order mode id f) (fun _ g => Marked id (b.fresh f.tree mode ≠ b.cache) f g) (fun _ _ => True) := by
  have hchanged : (order.removed id (b.diff (b.fresh f.tree mode)).removed.toList ≠ [] ∨
      order.added id (b.diff (b.fresh f.tree mode)).added.toList ≠ []) ↔ b.fresh f.tree mode ≠ b.cache := by
    have hnil {l l' : List NodeId} (hperm : l.Perm l') (s : NodeSet) (hs : l' = s.toList) :
        l = [] ↔ ∀ x, x ∉ s := by
      subst hs
      rw [List.eq_nil_iff_forall_not_mem]
      simp only [hperm.mem_iff, Std.ExtTreeSet.mem_toList]
    rw [ne_eq, ne_eq, ← not_and_or, not_iff_not, hnil (order.removed_perm id _) _ rfl,
      hnil (order.added_perm id _) _ rfl]
    simp only [Binding.mem_removed_diff, Binding.mem_added_diff, not_and, not_not]
    exact ⟨fun ⟨hremoved, hadded⟩ => Std.ExtTreeSet.ext_mem fun x => ⟨hadded x, hremoved x⟩,
      fun heq => ⟨fun x hx => heq ▸ hx, fun x hx => heq ▸ hx⟩⟩
  simp only [syncBy, Registry.fresh?, Registry.diff, hb, Option.map_some, Option.getD_some]
  exact (marked_forM_link _).mono (fun _ _ hg => ((marked_foldl_unlink _).trans hg).congr hchanged) fun _ _ _ => trivial

end Marking

section Mixture

/-- The bindings that a recomputation brings up to date. -/
def due (f : Form) : List BindingId :=
  (f.bindingsUsed (f.affected f.seeds)).toList

/-- The cache of a binding once some bindings have had their turn. -/
def cacheAfter (f : Form) (done : List BindingId) (id : BindingId) (b : Binding) : NodeSet :=
  if id ∈ done then b.fresh f.tree f.cacheRefresh else b.cache

/-- A formula reads a field once some bindings have had their turn while the others are as before. -/
def FeedsAfter (f : Form) (done : List BindingId) (m n : NodeId) : Prop :=
  ∃ id b, f.registry.get? id = some b ∧ m ∈ f.cacheAfter done id b ∧ f.graph.Uses n id

/-- No formula depends on itself once some bindings have had their turn while the others are as before. -/
def AcyclicAfter (f : Form) (done : List BindingId) : Prop :=
  ∀ n, ¬ TransGen (f.FeedsAfter done) n n

/-- Some bindings have had their turn. -/
structure Refreshed (f : Form) (done : List BindingId) (g : Form) : Prop where
  coherent : Coherent g
  relinked : Relinked f g
  registry : g.registry = { f.registry with bindings := g.registry.bindings }
  caches : ∀ id m, g.registry.Caches id m ↔ ∃ b, f.registry.get? id = some b ∧ m ∈ f.cacheAfter done id b
  pending : ∀ x, x ∈ g.pending ↔ x ∈ f.pending ∨ ∃ id ∈ done, ∃ b, f.registry.get? id = some b ∧
    b.fresh f.tree f.cacheRefresh ≠ b.cache ∧ f.registry.Serves id x
  acyclic : f.Acyclic → g.Acyclic
  levels : LevelsDue f g

theorem CoherentBut.refreshed (h : Coherent f) : Refreshed f [] f where
  coherent := h
  relinked := .refl f
  registry := rfl
  caches id m := by simp [Registry.Caches, cacheAfter]
  pending x := by simp
  acyclic ha := ha
  levels := .refl f

theorem Refreshed.consistent (h : Refreshed f done g) (hf : Consistent f) : Consistent g :=
  hf.relinked h.coherent h.acyclic h.levels

/-- What is read by then. -/
theorem Refreshed.feeds_iff (h : Refreshed f done g) : g.Feeds m n ↔ f.FeedsAfter done m n := by
  unfold Feeds FeedsAfter
  simp only [h.caches, h.relinked.uses]
  exact ⟨fun ⟨id, ⟨b, hb, hm⟩, hu⟩ => ⟨id, b, hb, hm, hu⟩, fun ⟨id, b, hb, hm, hu⟩ => ⟨id, ⟨b, hb, hm⟩, hu⟩⟩

theorem Refreshed.acyclicAfter (h : Refreshed f done g) (hf : f.Acyclic) : f.AcyclicAfter done := by
  have heq : f.FeedsAfter done = g.Feeds := by
    funext m n
    exact propext h.feeds_iff.symm
  unfold AcyclicAfter
  rw [heq]
  exact h.acyclic hf

theorem Refreshed.serves (h : Refreshed f done g) (hf : Coherent f) :
    g.registry.Serves id x ↔ f.registry.Serves id x := by
  rw [h.coherent.consumers, hf.consumers, h.relinked.uses]

/-- All that has changed of a binding is its cache. -/
theorem Refreshed.get?_eq (h : Refreshed f done g) (hf : Coherent f) (id : BindingId) :
    g.registry.get? id = (f.registry.get? id).map fun b => { b with cache := f.cacheAfter done id b } := by
  have hsome := h.relinked.isSome_get? (i := id)
  cases hb : f.registry.get? id with
  | none => simpa [hb] using hsome
  | some b =>
    obtain ⟨b', hb'⟩ := Option.isSome_iff_exists.1 (hsome.trans (by rw [hb]; rfl))
    have hbound := h.relinked.bound id
    rw [Registry.bound?, Registry.bound?, hb, hb'] at hbound
    have hbound : b'.bound = b.bound := Option.some.inj hbound
    have hcache : b'.cache = f.cacheAfter done id b := Std.ExtTreeSet.ext_mem fun m => by
      have hiff := h.caches id m
      simpa [Registry.Caches, hb, hb'] using hiff
    have hconsumers : b'.consumers = b.consumers := Std.ExtTreeSet.ext_mem fun x => by
      have hiff : g.registry.Serves id x ↔ f.registry.Serves id x := h.serves hf
      simpa [Registry.Serves, hb, hb'] using hiff
    obtain ⟨selector, base, path, cache, consumers⟩ := b'
    obtain ⟨rfl, rfl, rfl⟩ := Bound.mk.inj hbound
    rw [hb', Option.map_some, ← hcache]
    exact congrArg some (by rw [← hconsumers])

/-- One binding more has its turn. If a link is refused then the links of that moment have a circle: those of the
bindings that have had their turn, this one included, and those that the others still have from before. -/
theorem Refreshed.syncBy (h : Refreshed f done g) (hf : Coherent f) (hid : id ∉ done) :
    Ends (syncBy order f.cacheRefresh id g) (fun _ g' => Refreshed f (done ++ [id]) g')
      (fun e g' => (∃ paths, e = .cycle paths) ∧ g'.tree = f.tree ∧ ¬ f.AcyclicAfter (done ++ [id])) := by
  have hother {i : BindingId} (hi : i ≠ id) (b : Binding) : f.cacheAfter (done ++ [id]) i b = f.cacheAfter done i b := by
    simp [cacheAfter, hi]
  cases hb : f.registry.get? id with
  | none =>
    have hgb : g.registry.get? id = none := by rw [h.get?_eq hf, hb]; rfl
    rw [syncBy_of_none hgb]
    refine { h with caches := fun i m => ?_, pending := fun x => ?_ }
    · rw [h.caches]
      refine exists_congr fun b => and_congr_right fun hi => ?_
      rw [hother]
      rintro rfl
      simp [hb] at hi
    · rw [h.pending]
      simp [hb, or_and_right, exists_or]
  | some b =>
    have hgb : g.registry.get? id = some b := by
      rw [h.get?_eq hf, hb, Option.map_some, cacheAfter, if_neg hid]
    have hthis : f.cacheAfter (done ++ [id]) id b = b.fresh f.tree f.cacheRefresh := by simp [cacheAfter]
    have htree := h.relinked.beside.tree
    refine ((h.coherent.syncBy_spec hgb order).and (marked_syncBy hgb order)).mono ?_ ?_
    · rintro _ g' ⟨⟨hco, hsync, hcache⟩, hmarked⟩
      refine ⟨hco, h.relinked.trans hsync.relinked, by rw [hmarked.registry, h.registry], fun i m => ?_, fun x => ?_,
        fun ha => hsync.acyclic_all (h.acyclic ha), h.levels.trans hsync.levels⟩
      · by_cases hi : i = id
        · subst hi
          rw [hcache, htree]
          simp [hb, hthis]
        · rw [hsync.others i m hi, h.caches]
          simp only [hother hi]
      · rw [hmarked.pending, h.pending, h.serves hf, htree]
        simp [hb, or_and_right, exists_or, or_assoc]
    · rintro e g' ⟨⟨-, hsync, hcloses, hcache⟩, -⟩
      have hfeeds (a d : NodeId) (hfeeds : g'.Feeds a d) : f.FeedsAfter (done ++ [id]) a d := by
        obtain ⟨i, hi, hd⟩ := hfeeds
        have hd : f.graph.Uses d i := by rwa [hsync.relinked.uses, h.relinked.uses] at hd
        by_cases heq : i = id
        · subst heq
          exact ⟨i, b, hb, by rw [hthis, ← htree]; exact (hcache a).2 hi, hd⟩
        · obtain ⟨b', hb', ha⟩ := (h.caches i a).1 ((hsync.others i a heq).1 hi)
          exact ⟨i, b', hb', by rwa [hother heq], hd⟩
      have hback (m c : NodeId) (hm : m ∈ b.fresh g.tree f.cacheRefresh) (hu : g'.graph.Uses c id) :
          f.FeedsAfter (done ++ [id]) m c := by
        have hu : f.graph.Uses c id := by rwa [hsync.relinked.uses, h.relinked.uses] at hu
        exact ⟨id, b, hb, by rw [hthis, ← htree]; exact hm, hu⟩
      obtain ⟨circle, hcircle, -⟩ := hcloses.circular hfeeds hback
      obtain ⟨n, hn⟩ := hcircle.transGen
      exact ⟨hcloses.error, hsync.relinked.beside.tree.trans htree, fun hacyclic => hacyclic n hn⟩

/-- The bindings have their turns one after the other, up to the first one that has a link refused. -/
theorem Refreshed.syncAll (h : Refreshed f done g) (hf : Consistent f) {rest : List BindingId}
    (hnodup : (done ++ rest).Nodup) : Ends (rest.forM (Form.syncBy order f.cacheRefresh) g)
      (fun _ g' => Refreshed f (done ++ rest) g' ∧ ∀ l, l <+: rest → f.AcyclicAfter (done ++ l))
      (fun e g' => (∃ paths, e = .cycle paths) ∧ g'.tree = f.tree ∧ ∃ l, l <+: rest ∧ ¬ f.AcyclicAfter (done ++ l)) := by
  induction rest generalizing done g with
  | nil =>
    rw [List.append_nil]
    refine ⟨h, fun l hl => ?_⟩
    rw [List.prefix_nil.1 hl, List.append_nil]
    exact h.acyclicAfter hf.acyclic
  | cons a rest ih =>
    have ha : a ∉ done := fun hc => (List.nodup_append.1 hnodup).2.2 a hc a List.mem_cons_self rfl
    have happend (l : List BindingId) : done ++ a :: l = done ++ [a] ++ l := by simp
    refine Ends.bind ((h.syncBy hf.coherent ha).mono ?_ ?_)
    · intro _ g' hg'
      rw [happend] at hnodup ⊢
      refine (ih hg' hnodup).mono ?_ ?_
      · rintro _ g'' ⟨hg'', hacyclic⟩
        refine ⟨hg'', fun l hl => ?_⟩
        rcases List.prefix_cons_iff.1 hl with rfl | ⟨l', rfl, hl'⟩
        · rw [List.append_nil]
          exact h.acyclicAfter hf.acyclic
        · rw [happend]
          exact hacyclic l' hl'
      · rintro e g'' ⟨hcycle, htree, l, hl, hcircle⟩
        exact ⟨hcycle, htree, a :: l, List.cons_prefix_cons.2 ⟨rfl, hl⟩, happend l ▸ hcircle⟩
    · rintro e g' ⟨hcycle, htree, hcircle⟩
      exact ⟨hcycle, htree, [a], List.cons_prefix_cons.2 ⟨rfl, List.nil_prefix⟩, hcircle⟩

/-- What is left once the same bindings have had their turn does not depend on the order, but for the levels, which may
have to be determined. -/
theorem Refreshed.eq (h : Refreshed f done g) (hf : Coherent f) {done' : List BindingId} (h' : Refreshed f done' g')
    (hdone : ∀ id, id ∈ done' ↔ id ∈ done) : g' = { g with graph := { g.graph with levels := g'.graph.levels } } := by
  have hcache (id : BindingId) (b : Binding) : f.cacheAfter done' id b = f.cacheAfter done id b := by
    simp only [cacheAfter, hdone]
  have hregistry : g'.registry = g.registry := by
    rw [h.registry, h'.registry, Registry.bindings_ext fun id => by rw [h.get?_eq hf, h'.get?_eq hf]; simp only [hcache]]
  have hfeeds (m n : NodeId) : g'.Feeds m n ↔ g.Feeds m n := by
    rw [h.feeds_iff, h'.feeds_iff]
    simp only [FeedsAfter, hcache]
  have hvertices : g'.graph.vertices = g.graph.vertices := by
    refine h.coherent.tidy.vertices_eq h'.coherent.tidy (fun n => ?_) (fun n => ?_) fun n => ?_
    · rw [h'.relinked.formula, h.relinked.formula]
    · refine Std.ExtTreeSet.ext_mem fun id => ?_
      rw [h'.coherent.successors, h.coherent.successors, hregistry]
    · refine Std.ExtTreeSet.ext_mem fun m => ?_
      rw [h'.coherent.reads n not_false, h.coherent.reads n not_false, hfeeds]
  have hpending : g'.pending = g.pending := Std.ExtTreeSet.ext_mem fun x => by
    rw [h'.pending, h.pending]
    simp only [hdone]
  have hbeside := h.relinked.beside
  have hbeside' := h'.relinked.beside
  calc g' = ⟨g'.tree, g'.registry, ⟨g'.graph.vertices, g'.graph.levels⟩, g'.pending, g'.schedule, g'.stopAtOverride,
        g'.cacheRefresh⟩ := rfl
    _ = { g with graph := { g.graph with levels := g'.graph.levels } } := by
      rw [hregistry, hvertices, hpending, hbeside'.tree, ← hbeside.tree, hbeside'.schedule, ← hbeside.schedule,
        hbeside'.stopAtOverride, ← hbeside.stopAtOverride, hbeside'.cacheRefresh, ← hbeside.cacheRefresh]

end Mixture

section Recomputing

/-- What is evaluated in the end, given the form whose caches are up to date. -/
def followed (f g : Form) : NodeSet :=
  (f.affected f.seeds).insertMany (g.affected (g.late (f.affected f.seeds))).toList

/-- A recomputation with something to follow up has gone through. -/
structure Concluded (f : Form) (order : VisitOrder) (report : Report) (g : Form) : Prop where
  acyclic : ∀ l, l <+: order.bindings f.due → f.AcyclicAfter l
  refreshed : ∃ f₀ levels, Refreshed f.clearPending (order.bindings f.due) f₀ ∧
    f₀.graph.computeLevels = .ok levels ∧ Reported (f₀.leveled levels) report g ∧
    report.evaluated = (f₀.leveled levels).evaluationOrder order levels (f.followed f₀)

/-- How a recomputation with something to follow up ends. -/
theorem Consistent.concluded (h : Consistent f) (hseeds : f.seeds.isEmpty = false) (order : VisitOrder) :
    Ends (Form.recomputePendingBy order f) (fun report g => Concluded f order report g)
      (fun e g => (∃ paths, e = .cycle paths) ∧ g.tree = f.tree ∧ (∀ n ∈ f.affected f.seeds, n ∈ g.pending) ∧
        ∃ l, l <+: order.bindings f.due ∧ ¬ f.AcyclicAfter l) := by
  have hclear : Consistent f.clearPending := h.congr rfl rfl h.levels
  have hnodup : ([] ++ order.bindings f.due).Nodup := by
    rw [List.nil_append, (order.bindings_perm _).nodup_iff]
    exact nodup_toList _
  have hsync : Ends ((order.bindings f.due).forM (Form.syncBy order f.cacheRefresh) f.clearPending) _ _ :=
    hclear.coherent.refreshed.syncAll hclear hnodup
  unfold Form.recomputePendingBy
  rw [hseeds, if_neg Bool.false_ne_true]
  dsimp only
  have hdue : order.bindings (f.bindingsUsed (f.affected f.seeds)).toList = order.bindings f.due := rfl
  rw [hdue]
  split
  next e g hrun =>
    obtain ⟨hcycle, htree, hcircle⟩ := hsync.of_error hrun
    exact ⟨hcycle, htree, fun n hn => mem_addPending.2 (.inr (Std.ExtTreeSet.mem_toList.2 hn)), hcircle⟩
  next f₀ hrun =>
    obtain ⟨hrefreshed, hacyclic⟩ := hsync.of_ok hrun
    obtain ⟨levels, report, g, hcompute, heval, hreported, hevaluated⟩ :=
      (hrefreshed.consistent hclear).evaluateAffected order (f.affected f.seeds)
    rw [heval]
    exact ⟨hacyclic, f₀, levels, hrefreshed, hcompute, hreported, hevaluated⟩

/-- A node with a formula that was affected is evaluated when the recomputation goes through. -/
theorem Consistent.evaluated_of_affected (h : Consistent f) (hrun : recomputePendingBy order f = .ok report g)
    (hn : n ∈ f.affected f.seeds) (hplaced : f.tree.contains n = true) (hF : (f.graph.formula? n).isSome) :
    n ∈ report.evaluated := by
  cases hseeds : f.seeds.isEmpty with
  | true =>
    rw [Std.ExtTreeSet.isEmpty_iff.1 hseeds, affected_empty] at hn
    simp at hn
  | false =>
    obtain ⟨-, f₀, levels, hrefreshed, -, -, hevaluated⟩ := (h.concluded hseeds order).of_ok hrun
    have htree : f₀.tree = f.tree := hrefreshed.relinked.beside.tree
    have hformula : f₀.graph.formula? n = f.graph.formula? n := hrefreshed.relinked.formula n
    rw [hevaluated, mem_evaluationOrder]
    refine ⟨?_, htree ▸ hplaced, hformula ▸ hF⟩
    simp [followed, hn]

/-- When a recomputation succeeds: at no time do the links of that moment have a circle. -/
theorem Consistent.recomputes_iff (h : Consistent f) (order : VisitOrder) :
    succeeds (Form.recomputePendingBy order f) = true ↔ ∀ l, l <+: order.bindings f.due → f.AcyclicAfter l := by
  cases hseeds : f.seeds.isEmpty with
  | false =>
    have hends := h.concluded hseeds order
    cases hrun : Form.recomputePendingBy order f with
    | ok report g => exact iff_of_true rfl (hends.of_ok hrun).acyclic
    | error e g =>
      obtain ⟨-, -, -, l, hl, hcircle⟩ := hends.of_error hrun
      exact iff_of_false Bool.false_ne_true fun hall => hcircle (hall l hl)
  | true =>
    have hrun : Form.recomputePendingBy order f = .ok {} f.clearPending := by
      rw [Form.recomputePendingBy, if_pos hseeds]
    have hdue : f.due = [] := by
      rw [due, bindingsUsed, Std.ExtTreeSet.isEmpty_iff.1 hseeds, affected_empty]
      simp
    rw [hrun, hdue, (order.bindings_perm []).eq_nil]
    refine iff_of_true rfl fun l hl => ?_
    rw [List.prefix_nil.1 hl]
    exact h.coherent.refreshed.acyclicAfter h.acyclic

/-- Formulas that are evaluated in one form, whatever their order, get the same values. -/
theorem Reported.agree (h : Reported f report g) (h' : Reported f report' g') (hf : Consistent f)
    (ht : f.tree.Handled) (hperm : report'.evaluated.Perm report.evaluated) :
    g' = g ∧ report'.changed = report.changed := by
  have hg : g.registry = f.registry := by rw [h.valued.same]; rfl
  have hg' : g'.registry = f.registry := by rw [h'.valued.same]; rfl
  have hgraph : g.graph = f.graph := by rw [h.valued.same]; rfl
  have hgraph' : g'.graph = f.graph := by rw [h'.valued.same]; rfl
  have hhandled := ht.of_blank h.valued.blank
  have htree : g'.tree = g.tree := by
    refine hf.tree_eq hhandled.nodup hhandled.root (h'.valued.blank.trans h.valued.blank.symm) fun x => ?_
    by_cases hx : x ∈ report.evaluated
    · obtain ⟨F, q, hF, hq, hv⟩ := h.valued.evaluated x hx
      obtain ⟨F', q', hF', hq', hv'⟩ := h'.valued.evaluated x (hperm.mem_iff.2 hx)
      rw [hgraph] at hF
      rw [hgraph', hF] at hF'
      obtain rfl := Option.some.inj hF'
      refine .inr ⟨F, hF, ?_, ?_⟩
      · rw [FieldTree.formulaValue?_of_place? hq, hv, hg]
      · rw [FieldTree.formulaValue?_of_place? hq', hv', hg']
    · refine .inl (FieldTree.formulaValue?_congr ?_)
      rw [h.valued.others x hx, h'.valued.others x (mt hperm.mem_iff.1 hx)]
  refine ⟨by rw [h.valued.same, h'.valued.same, htree], ?_⟩
  rw [h.changed, h'.changed, htree]
  exact hperm.countP_eq _

theorem evaluationOrder_perm {levels : Std.ExtTreeMap NodeId Nat} {nodes : NodeSet} :
    (f.evaluationOrder order' levels nodes).Perm (f.evaluationOrder order levels nodes) :=
  ((List.mergeSort_perm _ _).trans (order'.formulas_perm _)).trans
    ((List.mergeSort_perm _ _).trans (order.formulas_perm _)).symm

/-- Two orders in which a recomputation goes through leave the same, and evaluate the same formulas. -/
theorem Concluded.agree (h : Concluded f order report g) (h' : Concluded f order' report' g') (hf : Consistent f)
    (ht : f.tree.Handled) :
    g' = g ∧ report'.evaluated.Perm report.evaluated ∧ report'.changed = report.changed := by
  have hclear : Consistent f.clearPending := hf.congr rfl rfl hf.levels
  obtain ⟨f₀, levels, hrefreshed, hcompute, hreported, hevaluated⟩ := h.refreshed
  obtain ⟨f₀', levels', hrefreshed', hcompute', hreported', hevaluated'⟩ := h'.refreshed
  have hmem (id : BindingId) : id ∈ order'.bindings f.due ↔ id ∈ order.bindings f.due := by
    rw [(order'.bindings_perm _).mem_iff, (order.bindings_perm _).mem_iff]
  -- Levels that are out of date show in none of what is looked up from here on.
  obtain ⟨lv, hlv⟩ : ∃ lv, f₀' = { f₀ with graph := { f₀.graph with levels := lv } } :=
    ⟨_, hrefreshed.eq hclear.coherent hrefreshed' hmem⟩
  subst hlv
  have hsame : f₀.graph.computeLevels = .ok levels' := by
    refine Graph.computeLevels_congr ?_ ?_ hcompute' <;> exact fun _ => rfl
  obtain rfl : levels' = levels := Except.ok.inj (hsame.symm.trans hcompute)
  have hperm : report'.evaluated.Perm report.evaluated := by
    rw [hevaluated, hevaluated']
    exact evaluationOrder_perm
  have hleveled := (hrefreshed.consistent hclear).leveled hcompute
  have hhandled : (f₀.leveled levels').tree.Handled := by
    rw [show (f₀.leveled levels').tree = f.tree from hrefreshed.relinked.beside.tree]
    exact ht
  obtain ⟨hg, hchanged⟩ := hreported.agree hreported' hleveled hhandled hperm
  exact ⟨hg, hperm, hchanged⟩

end Recomputing

/-- However the graph of a form has been driven: a recomputation succeeds in some order if and only if at no time the
links of that moment have a circle, those of the bindings that have had their turn and those that the others still have
from before. Orders in which it succeeds leave the same form, evaluate the same formulas and count the same changes. In
an order in which it fails no value is touched, and what was to be followed up is pending again. No order fails if caches
are kept up to date by dropping what no longer fits. -/
theorem outcomes_by_order (s : Settings) (calls : List Call) :
    let f := Call.runAll calls (ofSettings s)
    (∀ order, succeeds (recomputePendingBy order f) = true ↔ ∀ l, l <+: order.bindings f.due → f.AcyclicAfter l) ∧
    (∀ order order' report report' g g', recomputePendingBy order f = .ok report g →
      recomputePendingBy order' f = .ok report' g' →
        g' = g ∧ report'.evaluated.Perm report.evaluated ∧ report'.changed = report.changed) ∧
    (∀ order e g, recomputePendingBy order f = .error e g →
      (∃ paths, e = .cycle paths) ∧ g.tree = f.tree ∧ ∀ n ∈ f.affected f.seeds, n ∈ g.pending) ∧
    (f.cacheRefresh = .incremental → ∀ order, succeeds (recomputePendingBy order f) = true) := by
  intro f
  have hf : Drivable f := (Drivable.ofSettings s).runAll calls
  have hcons := hf.consistent
  refine ⟨hcons.recomputes_iff, fun order order' report report' g g' hrun hrun' => ?_, fun order e g hrun => ?_,
    fun hmode order => ?_⟩
  · cases hseeds : f.seeds.isEmpty with
    | false =>
      exact ((hcons.concluded hseeds order).of_ok hrun).agree ((hcons.concluded hseeds order').of_ok hrun') hcons
        hf.handled
    | true =>
      rw [recomputePendingBy, if_pos hseeds] at hrun hrun'
      obtain ⟨rfl, rfl⟩ := EStateM.Result.ok.inj hrun
      obtain ⟨rfl, rfl⟩ := EStateM.Result.ok.inj hrun'
      exact ⟨rfl, .refl _, rfl⟩
  · cases hseeds : f.seeds.isEmpty with
    | false =>
      obtain ⟨hcycle, htree, hpending, -⟩ := (hcons.concluded hseeds order).of_error hrun
      exact ⟨hcycle, htree, hpending⟩
    | true =>
      rw [recomputePendingBy, if_pos hseeds] at hrun
      cases hrun
  · refine (hcons.recomputes_iff order).2 fun l _ n hn => hcons.acyclic n (TransGen.mono (fun m c hm => ?_) _ _ hn)
    obtain ⟨id, b, hb, hcache, hu⟩ := hm
    refine ⟨id, ⟨b, hb, ?_⟩, hu⟩
    unfold cacheAfter at hcache
    split at hcache
    · rw [hmode, Binding.fresh, Std.ExtTreeSet.mem_filter] at hcache
      exact hcache.1
    · exact hcache

end Form

/-- Everything is visited in the reversed order of the handles. -/
def VisitOrder.descending : VisitOrder where
  bindings l := l.reverse
  removed _ l := l.reverse
  added _ l := l.reverse
  formulas l := l.reverse
  bindings_perm l := l.reverse_perm
  removed_perm _ l := l.reverse_perm
  added_perm _ l := l.reverse_perm
  formulas_perm l := l.reverse_perm

namespace Form

/-- A field reads another one. While the graph is not told, the first field gets the name that the second one reads, and
the second one gets another name. -/
def reversed (mode : Refresh) : Form :=
  Call.runAll [.edit (.insert 0 (.name "p") .field), .edit (.insert 0 (.name "q") .field),
    .edit (.setFormula 1 (some "ref /q")), .register 1 (some "ref /q"), .edit (.setFormula 2 (some "ref /s")),
    .register 2 (some "ref /s"), .openScope .updateGraph false, .edit (.rekey 1 (.name "s")),
    .edit (.rekey 2 (.name "r")), .closeScope .updateGraph]
    (ofSettings { recomputeEagerly := false, cacheRefresh := mode })

/-- If caches only lose fields then nothing is refused, and both orders evaluate both formulas. -/
theorem recomputed_in_both_orders :
    ∃ report report' g, recomputePendingBy .ascending (reversed .incremental) = .ok report g ∧
      recomputePendingBy .descending (reversed .incremental) = .ok report' g ∧
      report'.evaluated.Perm report.evaluated ∧ report.changed = report'.changed := by
  obtain ⟨-, hagree, -, hall⟩ := outcomes_by_order { recomputeEagerly := false, cacheRefresh := .incremental }
    [.edit (.insert 0 (.name "p") .field), .edit (.insert 0 (.name "q") .field),
      .edit (.setFormula 1 (some "ref /q")), .register 1 (some "ref /q"), .edit (.setFormula 2 (some "ref /s")),
      .register 2 (some "ref /s"), .openScope .updateGraph false, .edit (.rekey 1 (.name "s")),
      .edit (.rekey 2 (.name "r")), .closeScope .updateGraph]
  have hmode : (reversed .incremental).cacheRefresh = .incremental := by cbv
  have hruns (order : VisitOrder) : ∃ report g, recomputePendingBy order (reversed .incremental) = .ok report g := by
    have hsucceeds : succeeds (recomputePendingBy order (reversed .incremental)) = true := hall hmode order
    cases hrun : recomputePendingBy order (reversed .incremental) with
    | ok report g => exact ⟨report, g, rfl⟩
    | error e g =>
      rw [hrun] at hsucceeds
      cases hsucceeds
  obtain ⟨report, g, hrun⟩ := hruns .ascending
  obtain ⟨report', g', hrun'⟩ := hruns .descending
  obtain ⟨rfl, hperm, hchanged⟩ := hagree _ _ report report' g g' hrun hrun'
  exact ⟨report, report', g', hrun, hrun', hperm, hchanged.symm⟩

/-- If the tree is matched again, one order finds the old link gone by the time it makes the new one. The other order
makes the new one first, and is refused. -/
theorem refused_in_one_order :
    succeeds (recomputePendingBy .ascending (reversed .fromScratch)) = true ∧
    (failure? (recomputePendingBy .descending (reversed .fromScratch))).map Prod.fst =
      some (.cycle [⟨[.name "r"]⟩, ⟨[.name "s"]⟩, ⟨[.name "r"]⟩]) := by
  constructor <;> cbv

end Form

end LiveForm
