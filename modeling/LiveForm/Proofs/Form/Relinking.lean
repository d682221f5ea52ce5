import LiveForm.Proofs.Form.Reporting

/-!
# Relinking a node

Whatever the tree looks like, relinking a node leaves the registry and the graph in agreement. Afterwards the node has
the links that it should have, unless one of them would close a circle.
-/

set_option autoImplicit false

namespace LiveForm.Form

variable {f f' g : Form} {n m : NodeId} {id i : BindingId}

/-- Links have been removed and made, and no circle was closed. -/
structure Regrouped (f g : Form) : Prop where
  coherent : Coherent g
  relinked : Relinked f g
  acyclic : f.Acyclic → g.Acyclic
  levels : LevelsDue f g

theorem Regrouped.trans (h : Regrouped f f') (h' : Regrouped f' g) : Regrouped f g :=
  ⟨h'.coherent, h.relinked.trans h'.relinked, fun ha => h'.acyclic (h.acyclic ha), h.levels.trans h'.levels⟩

theorem Regrouped.consistent (h : Regrouped f g) (hf : Consistent f) : Consistent g :=
  hf.relinked h.coherent h.acyclic h.levels

theorem CoherentBut.regrouped_refl (h : Coherent f) : Regrouped f f :=
  ⟨h, .refl f, fun ha => ha, .refl f⟩

theorem CoherentBut.regrouped_unlink (h : Coherent f) : Regrouped f (f.unlink id n) := by
  refine ⟨h.unlink, h.relinked_unlink, fun ha => ?_, .of_none levels_unlink⟩
  rw [← acyclicBy_all] at ha ⊢
  exact ha.unlink

theorem CoherentBut.regrouped_linked (h : Coherent f) (hid : (f.registry.get? id).isSome)
    (hpath : ∀ c, f.graph.Uses c id → ¬ Relation.ReflTransGen f.Feeds c n) : Regrouped f (f.linked id n) := by
  refine ⟨h.linked hid, h.relinked_linked hid, fun ha => ?_, .of_none levels_linked⟩
  rw [← acyclicBy_all] at ha ⊢
  exact ha.linked hid hpath

/-- Links of a node are removed one after the other. -/
theorem CoherentBut.unlinkAll (h : Coherent f) (ids : List BindingId) :
    Regrouped f (ids.foldl (fun f id => f.unlink id n) f) ∧
      ∀ i x, (ids.foldl (fun f id => f.unlink id n) f).registry.Caches i x ↔
        f.registry.Caches i x ∧ ¬ (x = n ∧ i ∈ ids) := by
  induction ids generalizing f with
  | nil => exact ⟨h.regrouped_refl, by simp⟩
  | cons a rest ih =>
    obtain ⟨hgroup, hcaches⟩ := ih (h.unlink (m := n))
    refine ⟨h.regrouped_unlink.trans hgroup, fun i x => ?_⟩
    rw [List.foldl_cons, hcaches, caches_unlink, List.mem_cons]
    grind

/-- Links of a node are made one after the other, up to the first one that is refused. -/
theorem CoherentBut.linkAll (h : Coherent f) (ids : List BindingId)
    (hids : ∀ id ∈ ids, (f.registry.get? id).isSome) : Ends (ids.forM (link · n) f)
      (fun _ g => Regrouped f g ∧ ∀ i x, g.registry.Caches i x ↔ f.registry.Caches i x ∨ (x = n ∧ i ∈ ids))
      (fun e g => Regrouped f g ∧ (∃ id ∈ ids, g.ClosesBy id (· = n) e) ∧
        ∀ i x, g.registry.Caches i x → f.registry.Caches i x ∨ (x = n ∧ i ∈ ids)) := by
  induction ids generalizing f with
  | nil => exact ⟨h.regrouped_refl, by simp⟩
  | cons a rest ih =>
    have ha := hids a List.mem_cons_self
    have heq : (a :: rest).forM (link · n) f = (link a n >>= fun _ => rest.forM (link · n)) f := rfl
    rw [heq]
    refine Ends.bind (h.link_spec.mono ?_ ?_)
    · rintro _ g ⟨rfl, hpath⟩
      have hfirst := h.regrouped_linked ha hpath
      refine (ih hfirst.coherent fun id hid => ?_).mono ?_ ?_
      · rw [hfirst.relinked.isSome_get?]
        exact hids id (List.mem_cons_of_mem _ hid)
      · rintro _ g' ⟨hgroup, hcaches⟩
        refine ⟨hfirst.trans hgroup, fun i x => ?_⟩
        rw [hcaches, caches_linked ha, List.mem_cons]
        grind
      · rintro e g' ⟨hgroup, ⟨id, hid, hcloses⟩, hcaches⟩
        refine ⟨hfirst.trans hgroup, ⟨id, List.mem_cons_of_mem _ hid, hcloses⟩, fun i x hc => ?_⟩
        have hcached := hcaches i x hc
        rw [caches_linked ha] at hcached
        rw [List.mem_cons]
        grind
    · rintro e g ⟨rfl, hcloses⟩
      exact ⟨h.regrouped_refl, ⟨a, List.mem_cons_self, hcloses⟩, fun i x hx => .inl hx⟩

/-- What linking a moved node does. -/
theorem CoherentBut.relinkNode_spec (h : Coherent f) : Ends (relinkNode n f)
      (fun _ g => Regrouped f g ∧ ∀ i x, g.registry.Caches i x ↔
        if x = n then i ∈ f.registry.accepting f.tree n else f.registry.Caches i x)
      (fun e g => Regrouped f g ∧ (∃ id ∈ f.registry.accepting f.tree n, g.ClosesBy id (· = n) e) ∧
        ∀ i x, g.registry.Caches i x →
          if x = n then i ∈ f.registry.accepting f.tree n else f.registry.Caches i x) := by
  unfold Form.relinkNode
  dsimp only
  generalize hlost : ((f.graph.successors n).filter
    (!(Std.ExtTreeSet.ofList (f.registry.accepting f.tree n)).contains ·)).toList = lost
  generalize hdue : ((Std.ExtTreeSet.ofList (f.registry.accepting f.tree n)).filter
    (!(f.graph.successors n).contains ·)).toList = due
  have hmemlost (i : BindingId) :
      i ∈ lost ↔ f.registry.Caches i n ∧ i ∉ f.registry.accepting f.tree n := by
    rw [← hlost, Std.ExtTreeSet.mem_toList, Std.ExtTreeSet.mem_filter]
    have := h.successors i n
    simp [this]
  have hmemdue (i : BindingId) :
      i ∈ due ↔ i ∈ f.registry.accepting f.tree n ∧ ¬ f.registry.Caches i n := by
    have hsucc : (f.graph.successors n).contains i = false ↔ ¬ f.registry.Caches i n := by
      rw [← Bool.not_eq_true, Std.ExtTreeSet.contains_iff_mem, h.successors]
      simp
    rw [← hdue, Std.ExtTreeSet.mem_toList, Std.ExtTreeSet.mem_filter]
    simp [hsucc]
  obtain ⟨hcut, hcaches⟩ := h.unlinkAll (n := n) lost
  have hids : ∀ id ∈ due, ((lost.foldl (fun f id => f.unlink id n) f).registry.get? id).isSome := by
    intro id hid
    rw [hcut.relinked.isSome_get?]
    obtain ⟨b, hb, -⟩ := Registry.mem_accepting.1 ((hmemdue id).1 hid).1
    rw [hb]
    rfl
  refine (hcut.coherent.linkAll (n := n) due hids).mono ?_ ?_
  · rintro _ g ⟨hgroup, hcaches'⟩
    refine ⟨hcut.trans hgroup, fun i x => ?_⟩
    rw [hcaches', hcaches, hmemlost, hmemdue]
    by_cases hx : x = n
    · subst hx
      simp only [if_true, true_and]
      grind
    · simp [hx]
  · rintro e g ⟨hgroup, ⟨id, hid, hcloses⟩, hcaches'⟩
    refine ⟨hcut.trans hgroup, ⟨id, ((hmemdue id).1 hid).1, hcloses⟩, fun i x hc => ?_⟩
    have hcached := hcaches' i x hc
    rw [hcaches, hmemlost, hmemdue] at hcached
    by_cases hx : x = n
    · subst hx
      simp only [if_true, true_and] at hcached ⊢
      grind
    · simpa [hx] using hcached

/-- What a formula reads is known, so determining it again changes nothing. -/
theorem CoherentBut.resetPredecessors_spec (h : Coherent f) (n : NodeId) :
    Coherent ((f.resetPredecessors n).addPending [n]) ∧
      Relinked f ((f.resetPredecessors n).addPending [n]) ∧
      (f.graph.LevelsRight → ((f.resetPredecessors n).addPending [n]).graph.LevelsRight) := by
  have hco : Coherent (f.resetPredecessors n) :=
    (h.resetPredecessors (n := n)).of_unread fun _ hx => hx.1
  have hformula (x : NodeId) : (f.resetPredecessors n).graph.formula? x = f.graph.formula? x :=
    Graph.formula?_resetPredecessors
  have hsucc (x : NodeId) : (f.resetPredecessors n).graph.successors x = f.graph.successors x :=
    Graph.successors_resetPredecessors
  have hfeeds (a b : NodeId) : (f.resetPredecessors n).Feeds a b ↔ f.Feeds a b := by
    unfold Feeds Graph.Uses
    rw [hformula]
    rfl
  have hpred (x : NodeId) : (f.resetPredecessors n).graph.predecessors x = f.graph.predecessors x := by
    refine Std.ExtTreeSet.ext_mem fun m => ?_
    rw [hco.reads x not_false, h.reads x not_false, hfeeds]
  have hcontains (x : NodeId) : (f.resetPredecessors n).graph.contains x = f.graph.contains x := by
    rw [Bool.eq_iff_iff, hco.tidy.contains_iff, h.tidy.contains_iff, hformula, hsucc]
  refine ⟨hco.congr rfl rfl, (relinked_resetPredecessors (n := n)).trans ?_, fun hl levels hlevels => ?_⟩
  · exact
      { beside := ⟨rfl, rfl, rfl, rfl⟩
        formula := fun _ => rfl
        bound := fun _ => rfl
        marks := ⟨fun _ => False,
          { formula := fun _ _ hF _ => ⟨hF, not_false, fun _ _ _ => ⟨Iff.rfl, fun _ => not_false⟩⟩
            pending := fun _ hx => .inl (mem_addPending.2 (.inl hx)) }⟩ }
  · have hlevels' : (f.resetPredecessors n).graph.levels = some levels := hlevels
    rw [levels_resetPredecessors] at hlevels'
    exact Graph.computeLevels_congr hpred hcontains (hl levels hlevels')

/-- Moving a base leaves all links alone. -/
theorem CoherentBut.rekey (h : Coherent f) (old new : Path) :
    Coherent { f with registry := f.registry.rekey old new } := by
  have hfeeds (a b : NodeId) :
      Feeds { f with registry := f.registry.rekey old new } a b ↔ f.Feeds a b := by
    unfold Feeds
    simp only [Registry.caches_rekey]
  exact
    { successors := fun id m => by rw [Registry.caches_rekey]; exact h.successors id m
      consumers := fun id c => by rw [Registry.serves_rekey]; exact h.consumers id c
      reads := fun x hx m => by rw [hfeeds]; exact h.reads x hx m
      unread := fun _ hx => hx.elim
      used := fun id b hb => by
        obtain ⟨path, hpath⟩ := Registry.get?_rekey_eq (r := f.registry) (x := id)
        rw [hpath] at hb
        obtain ⟨b', hb', rfl⟩ := Option.map_eq_some_iff.1 hb
        exact h.used id b' hb'
      tidy := h.tidy
      anchors := h.anchors
      fresh := fun id b hb => by
        obtain ⟨path, hpath⟩ := Registry.get?_rekey_eq (r := f.registry) (x := id)
        rw [hpath] at hb
        obtain ⟨b', hb', rfl⟩ := Option.map_eq_some_iff.1 hb
        rw [Registry.serial_rekey]
        exact h.fresh id b' hb' }

end LiveForm.Form
