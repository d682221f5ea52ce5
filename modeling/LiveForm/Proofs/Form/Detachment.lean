import LiveForm.Form.Registration
import LiveForm.Proofs.Form.Circles
import LiveForm.Proofs.Formula.Bindings

/-!
# Taking a node out of the graph

A node leaves in three steps: its vertex goes, then its place in the caches that hold it, then the bindings
that only its formula used. `Parting` says how far this has come. In the end nothing refers to the node, all
else is as it was, and the formulas that read the node are pending.
-/

set_option autoImplicit false

namespace LiveForm.Form

variable {f g : Form} {n x : NodeId} {id i : BindingId} {ss bs : List BindingId}

/-- A node is about to leave. The first list holds the bindings whose caches still hold it, the second one
those that it still counts as a user of. -/
structure Parting (f : Form) (n : NodeId) (ss bs : List BindingId) (g : Form) : Prop where
  coherent : CoherentBut
    { lost := fun id m => m = n ∧ id ∈ ss, owed := fun id c => c = n ∧ id ∈ bs } g
  beside : SameBeside f g
  absent : g.graph.get? n = none
  formula : ∀ x, x ≠ n → g.graph.formula? x = f.graph.formula? x
  bound : ∀ i b, g.registry.bound? i = some b → f.registry.bound? i = some b
  caches : ∀ i x, g.registry.Caches i x → f.registry.Caches i x
  kept : ∀ i x, f.registry.Caches i x → x ≠ n → (g.registry.get? i).isSome → g.registry.Caches i x
  marked : ∀ i, f.registry.Caches i n → i ∈ ss ∨ ∀ c ≠ n, f.graph.Uses c i → c ∈ g.pending
  pending : ∀ x ∈ f.pending, x ∈ g.pending

/-- Nothing refers to a node any more, all else is as it was, and what read the node is pending. -/
structure Detached (n : NodeId) (f f' : Form) : Prop where
  coherent : Coherent f'
  beside : SameBeside f f'
  formula : ∀ x, f'.graph.formula? x = if x = n then none else f.graph.formula? x
  bound : ∀ i b, f'.registry.bound? i = some b → f.registry.bound? i = some b
  caches : ∀ i x, f'.registry.Caches i x ↔
    f.registry.Caches i x ∧ x ≠ n ∧ (f'.registry.get? i).isSome
  marks : Marks f f'
  levels : LevelsDue f f'

theorem Parting.formula?_self (h : Parting f n ss bs g) : g.graph.formula? n = none := by
  rw [Graph.formula?, h.absent, Option.bind_none]

theorem Parting.formula? (h : Parting f n ss bs g) (x : NodeId) :
    g.graph.formula? x = if x = n then none else f.graph.formula? x := by
  split
  next hx => rw [hx, h.formula?_self]
  next hx => exact h.formula x hx

section Erasing

variable {unread : NodeId → Prop} {v : Vertex} (h : CoherentBut { unread } f) (hunread : ∀ x, unread x → x = n)
  (hv : f.graph.get? n = some v)

include h hunread hv

/-- Without the vertex of the node, graph and registry agree but for the caches that hold the node, and for the bindings
that count it as a user. -/
theorem CoherentBut.erase : CoherentBut
    { lost := fun id m => m = n ∧ id ∈ v.successors.toList
      owed := fun id c => c = n ∧ id ∈ (v.formula.map (·.bindings)).getD [] }
    { f with graph := f.graph.erase n } where
  successors id m := by
    have hs := h.successors id m
    simp only [not_false_eq_true, and_true] at hs
    rw [Graph.successors_erase]
    by_cases hm : m = n
    · subst hm
      have hsucc : f.graph.successors m = v.successors := by
        rw [Graph.successors, hv]
        rfl
      rw [hsucc] at hs
      simp [← hs]
    · simp [hm, hs]
  consumers id c := by
    have hc := h.consumers id c
    simp only [or_false] at hc
    rw [show ({ f with graph := f.graph.erase n } : Form).registry = f.registry from rfl, hc]
    unfold Graph.Uses
    rw [Graph.formula?_erase]
    by_cases hcn : c = n
    · subst hcn
      have hformula : f.graph.formula? c = v.formula := by
        rw [Graph.formula?, hv, Option.bind_some]
      rw [hformula]
      cases v.formula <;> simp
    · simp [hcn]
  reads x _ m := by
    rw [Graph.predecessors_erase]
    by_cases hx : x = n
    · subst hx
      simp only [if_true, Std.ExtTreeSet.not_mem_empty, false_iff]
      intro hfeeds
      obtain ⟨F, hF⟩ := hfeeds.formula?
      rw [Graph.formula?_erase, if_pos rfl] at hF
      simp at hF
    · rw [if_neg hx, h.reads x (fun hu => hx (hunread x hu)) m]
      unfold Feeds Graph.Uses
      simp [Graph.formula?_erase, hx]
  unread := fun _ hx => hx.elim
  used := h.used
  tidy := h.tidy.erase
  anchors x F hF := by
    rw [Graph.formula?_erase] at hF
    split at hF
    · simp at hF
    · exact h.anchors x F hF
  fresh := h.fresh

/-- The vertex of the node is removed. -/
theorem CoherentBut.parting :
    Parting f n v.successors.toList ((v.formula.map (·.bindings)).getD []) { f with graph := f.graph.erase n } where
  coherent := h.erase hunread hv
  beside := ⟨rfl, rfl, rfl, rfl⟩
  absent := by rw [Graph.get?_erase, if_pos rfl]
  formula x hx := by rw [Graph.formula?_erase, if_neg hx]
  bound _ _ hb := hb
  caches _ _ hc := hc
  kept _ _ hc _ _ := hc
  marked i hi := by
    have hs := (h.successors i n).2 ⟨hi, not_false⟩
    rw [Graph.successors, hv] at hs
    exact .inl (by simpa using hs)
  pending _ hx := hx

end Erasing

section Forgetting

theorem mem_consumersOf_dropNode {m : NodeId} :
    x ∈ (f.registry.modify id (·.dropNode m)).consumersOf id ↔ f.registry.Serves id x := by
  rw [Registry.mem_consumersOf, Registry.serves_modify fun _ => Binding.consumers_dropNode _ _]

theorem get?_resetPredecessors_of_none {r : Registry} {m : NodeId} {G : Graph}
    (h : G.get? n = none) : (G.resetPredecessors r m).get? n = none := by
  unfold Graph.resetPredecessors
  split
  · exact h
  · rw [Graph.get?_modify, h, Option.map_none, ite_self]

theorem get?_readAgain_of_none (nodes : List NodeId) (h : f.graph.get? n = none) :
    (f.readAgain nodes).graph.get? n = none := by
  induction nodes generalizing f with
  | nil => exact h
  | cons a rest ih =>
    rw [readAgain_cons]
    exact ih (get?_resetPredecessors_of_none h)

theorem registry_forget :
    (f.forget n id).registry = f.registry.modify id (·.dropNode n) := by
  simp [forget]

theorem formula?_forget : (f.forget n id).graph.formula? x = f.graph.formula? x := by
  simp [forget]

theorem successors_forget : (f.forget n id).graph.successors x = f.graph.successors x := by
  simp [forget]

theorem uses_forget {i : BindingId} : (f.forget n id).graph.Uses x i ↔ f.graph.Uses x i := by
  unfold Graph.Uses
  rw [formula?_forget]

theorem caches_forget {i : BindingId} :
    (f.forget n id).registry.Caches i x ↔ f.registry.Caches i x ∧ ¬ (i = id ∧ x = n) := by
  rw [registry_forget, Registry.caches_dropNode]

theorem serves_forget {i : BindingId} : (f.forget n id).registry.Serves i x ↔ f.registry.Serves i x := by
  rw [registry_forget, Registry.serves_modify fun _ => Binding.consumers_dropNode _ _]

/-- The users of a binding are told that it has let go of a node, apart from that node. -/
theorem mem_told : x ∈ ((f.registry.modify id (·.dropNode n)).consumersOf id).filter (· ≠ n) ↔
    f.registry.Serves id x ∧ x ≠ n := by
  simp [mem_consumersOf_dropNode]

theorem mem_pending_forget :
    x ∈ (f.forget n id).pending ↔ x ∈ f.pending ∨ f.registry.Serves id x ∧ x ≠ n := by
  rw [← mem_told]
  exact mem_pending_readAgain

theorem sameBeside_forget : SameBeside f (f.forget n id) := by
  have hdropped : SameBeside f { f with registry := f.registry.modify id (·.dropNode n) } := ⟨rfl, rfl, rfl, rfl⟩
  exact hdropped.trans sameBeside_readAgain

variable {a : BindingId}

/-- What used the binding reads it again, so it knows that the node is not among what it reads any more. -/
theorem Parting.mem_predecessors_forget (h : Parting f n (a :: ss) bs g) (x m : NodeId) :
    m ∈ (g.forget n a).graph.predecessors x ↔ (g.forget n a).Feeds m x := by
  have hreads := h.coherent.reads x not_false m
  have hpred : (g.forget n a).graph.predecessors x =
      if x ∈ ((g.registry.modify a (·.dropNode n)).consumersOf a).filter (· ≠ n) then
        ((g.graph.formula? x).map
          (Graph.readings (g.registry.modify a (·.dropNode n)))).getD (g.graph.predecessors x)
      else g.graph.predecessors x := predecessors_readAgain
  rw [hpred]
  cases hF : g.graph.formula? x with
  | none =>
    have hno {f' : Form} (hf' : f'.graph.formula? x = none) : ¬ f'.Feeds m x := fun hc => by
      obtain ⟨F, hF'⟩ := hc.formula?
      simp [hf'] at hF'
    simp only [Option.map_none, Option.getD_none, ite_self]
    exact hreads.trans (iff_of_false (hno hF) (hno (by rw [formula?_forget, hF])))
  | some F =>
    have hF' : (g.forget n a).graph.formula? x = some F := by rw [formula?_forget, hF]
    have hxn : x ≠ n := by
      rintro rfl
      rw [h.formula?_self] at hF
      simp at hF
    rw [feeds_iff hF', registry_forget]
    by_cases hx : x ∈ ((g.registry.modify a (·.dropNode n)).consumersOf a).filter (· ≠ n)
    · rw [if_pos hx]
      simp
    · rw [if_neg hx, hreads, feeds_iff hF, Graph.mem_readings, Graph.mem_readings]
      refine exists_congr fun i => and_congr_right fun hi => ?_
      have hne : i ≠ a := by
        rintro rfl
        exact hx (mem_told.2 ⟨(h.coherent.consumers i x).2 (.inl ⟨F, hF, hi⟩), hxn⟩)
      rw [Registry.caches_dropNode]
      simp [hne]

theorem Parting.coherent_forget (h : Parting f n (a :: ss) bs g) : CoherentBut
    { lost := fun id m => m = n ∧ id ∈ ss, owed := fun id c => c = n ∧ id ∈ bs } (g.forget n a) where
  successors i m := by
    have hs := h.coherent.successors i m
    rw [successors_forget, hs, caches_forget]
    simp only [List.mem_cons]
    grind
  consumers i c := by
    rw [serves_forget, uses_forget]
    exact h.coherent.consumers i c
  reads x _ m := h.mem_predecessors_forget x m
  unread _ hx := hx.elim
  used i b hb := by
    rw [registry_forget, Registry.get?_modify] at hb
    split at hb
    · obtain ⟨b', hb', rfl⟩ := Option.map_eq_some_iff.1 hb
      exact h.coherent.used i b' hb'
    · exact h.coherent.used i b hb
  tidy := tidy_readAgain h.coherent.tidy
  anchors x F hF := h.coherent.anchors x F (by rwa [formula?_forget] at hF)
  fresh := by
    rw [registry_forget]
    exact h.coherent.fresh.modify _

/-- One of the caches that hold the node lets go of it. -/
theorem Parting.forget (h : Parting f n (a :: ss) bs g) : Parting f n ss bs (g.forget n a) where
  coherent := h.coherent_forget
  beside := h.beside.trans sameBeside_forget
  absent := get?_readAgain_of_none _ h.absent
  formula x hx := by
    rw [formula?_forget]
    exact h.formula x hx
  bound i b hb := by
    rw [registry_forget, Registry.bound?_modify fun _ => Binding.bound_dropNode _ _] at hb
    exact h.bound i b hb
  caches i x hx := h.caches i x (caches_forget.1 hx).1
  kept i x hx hxn hsome := by
    refine caches_forget.2 ⟨h.kept i x hx hxn ?_, fun hc => hxn hc.2⟩
    rw [registry_forget, Registry.get?_modify] at hsome
    split at hsome <;> simpa using hsome
  marked i hi := by
    rcases h.marked i hi with hin | hm
    · rcases List.mem_cons.1 hin with rfl | hin
      · refine .inr fun c hc huse => mem_pending_forget.2 (.inr ⟨?_, hc⟩)
        refine (h.coherent.consumers i c).2 (.inl ?_)
        obtain ⟨F, hF, hi⟩ := huse
        exact ⟨F, (h.formula c hc).trans hF, hi⟩
      · exact .inl hin
    · exact .inr fun c hc huse => mem_pending_forget.2 (.inl (hm c hc huse))
  pending x hx := mem_pending_forget.2 (.inl (h.pending x hx))

end Forgetting

section Giving

/-- What removing a binding from the nodes that it stood for leaves. -/
theorem unlinkAll_spec (fields : List NodeId) (h : f.graph.Tidy)
    (hread : ∀ x, f.graph.formula? x = none → f.graph.predecessors x = ∅) :
    (f.unlinkAll id fields).registry = f.registry ∧ SameBeside f (f.unlinkAll id fields) ∧
      (f.unlinkAll id fields).pending = f.pending ∧ (f.unlinkAll id fields).graph.Tidy ∧
      (∀ x, (f.unlinkAll id fields).graph.formula? x = f.graph.formula? x) ∧
      (∀ x, (f.unlinkAll id fields).graph.predecessors x = f.graph.predecessors x) ∧
      (∀ x i, i ∈ (f.unlinkAll id fields).graph.successors x ↔
        i ∈ f.graph.successors x ∧ ¬ (i = id ∧ x ∈ fields)) ∧
      ∀ x, f.graph.get? x = none → (f.unlinkAll id fields).graph.get? x = none := by
  induction fields generalizing f with
  | nil => exact ⟨rfl, .refl f, rfl, h, fun _ => rfl, fun _ => rfl, by simp [unlinkAll], fun _ hx => hx⟩
  | cons a rest ih =>
    have htidy : ((f.graph.dropSuccessor a id).prune a).Tidy := by
      refine Graph.Tidy.prune_of_but fun x v hx hv => ?_
      rw [Graph.dropSuccessor, Graph.get?_modify, if_neg hx] at hv
      exact h x v hv
    have hpred (x : NodeId) : ((f.graph.dropSuccessor a id).prune a).predecessors x =
        f.graph.predecessors x := by
      rw [Graph.predecessors_prune, Graph.predecessors_dropSuccessor]
      simpa using hread a
    have hnone (x : NodeId) (hx : f.graph.get? x = none) :
        ((f.graph.dropSuccessor a id).prune a).get? x = none := by
      rw [Graph.get?_prune]
      split
      · rfl
      · rw [Graph.dropSuccessor, Graph.get?_modify, hx, Option.map_none, ite_self]
    obtain ⟨hreg, hbeside, hpend, htidy', hformula, hpred', hsucc, habs⟩ :=
      ih (f := { f with graph := f.graph.dropSuccessor a id }.prune a) htidy fun x hx => by
        exact (hpred x).trans (hread x (by simpa [prune] using hx))
    have heq : f.unlinkAll id (a :: rest) =
        ({ f with graph := f.graph.dropSuccessor a id }.prune a).unlinkAll id rest := rfl
    rw [heq]
    have hpruned : SameBeside f ({ f with graph := f.graph.dropSuccessor a id }.prune a) := ⟨rfl, rfl, rfl, rfl⟩
    refine ⟨hreg, hpruned.trans hbeside, hpend, htidy', fun x => ?_, fun x => ?_, fun x i => ?_, fun x hx => ?_⟩
    · rw [hformula]
      simp [prune]
    · rw [hpred']
      exact hpred x
    · rw [hsucc]
      simp only [prune, Graph.successors_prune, Graph.successors_dropSuccessor, List.mem_cons]
      by_cases hx : x = a
      · simp [hx, @eq_comm _ id i]
        grind
      · simp [hx]
    · exact habs x (hnone x hx)

/-- A binding that the node gives up goes from the graph exactly if it goes from the registry. -/
theorem CoherentBut.giveUp_spec {gaps : Gaps} (h : CoherentBut gaps g) (a : BindingId) :
    (g.giveUp n a).registry = (g.registry.release a n).2 ∧ SameBeside g (g.giveUp n a) ∧
      (g.giveUp n a).pending = g.pending ∧ (g.giveUp n a).graph.Tidy ∧
      (∀ x, (g.giveUp n a).graph.formula? x = g.graph.formula? x) ∧
      (∀ x, (g.giveUp n a).graph.predecessors x = g.graph.predecessors x) ∧
      (∀ x i, i ∈ (g.giveUp n a).graph.successors x ↔
        i ∈ g.graph.successors x ∧ ((g.registry.release a n).2.get? i).isSome) ∧
      ∀ x, g.graph.get? x = none → (g.giveUp n a).graph.get? x = none := by
  have hread (x : NodeId) (hx : g.graph.formula? x = none) : g.graph.predecessors x = ∅ :=
    h.predecessors_of_none hx
  have hcached {i : BindingId} {x : NodeId} (hi : i ∈ g.graph.successors x) :
      g.registry.Caches i x := ((h.successors i x).1 hi).1
  have halive {i : BindingId} {x : NodeId} (hi : i ∈ g.graph.successors x) :
      (g.registry.get? i).isSome := by
    obtain ⟨c, hc, -⟩ := hcached hi
    rw [hc]
    rfl
  unfold Form.giveUp
  rcases hrel : g.registry.release a n with ⟨gone, r⟩
  have hr : r = (g.registry.release a n).2 := by rw [hrel]
  have hfst : (g.registry.release a n).1 = gone := by rw [hrel]
  cases gone with
  | none =>
    refine ⟨rfl, ⟨rfl, rfl, rfl, rfl⟩, rfl, h.tidy, fun _ => rfl, fun _ => rfl, fun x i => ?_,
      fun _ hx => hx⟩
    dsimp only
    rw [hr, Registry.fst_release_none hfst, iff_self_and]
    exact halive
  | some gone =>
    obtain ⟨b, hb, hcache, hnone⟩ := Registry.fst_release hfst
    obtain ⟨h1, h2, h3, h4, h5, h6, h7, h8⟩ := unlinkAll_spec (f := { g with registry := r })
      gone.cache.toList h.tidy hread
    refine ⟨h1, ⟨h2.tree, h2.schedule, h2.stopAtOverride, h2.cacheRefresh⟩, h3, h4, h5, h6,
      fun x i => ?_, h8⟩
    dsimp only
    rw [h7, Std.ExtTreeSet.mem_toList, hcache]
    refine and_congr_right fun hi => ?_
    by_cases hia : i = a
    · subst hia
      obtain ⟨c, hc, hx⟩ := hcached hi
      obtain rfl := Option.some.inj (hb.symm.trans hc)
      rw [hr, hnone]
      simp [hx]
    · rw [hr, Registry.get?_release, if_neg hia, halive hi]
      simp [hia]

variable {a : BindingId}

theorem Parting.not_uses (h : Parting f n ss bs g) (i : BindingId) : ¬ g.graph.Uses n i := by
  rintro ⟨F, hF, -⟩
  rw [h.formula?_self] at hF
  simp at hF

theorem Parting.coherent_giveUp (h : Parting f n [] (a :: bs) g) (ha : a ∉ bs) : CoherentBut
    { lost := fun id m => m = n ∧ id ∈ [], owed := fun id c => c = n ∧ id ∈ bs } (g.giveUp n a) := by
  obtain ⟨hreg, -, -, htidy, hformula, hpred, hsucc, -⟩ := h.coherent.giveUp_spec (n := n) a
  have huses (x : NodeId) (i : BindingId) : (g.giveUp n a).graph.Uses x i ↔ g.graph.Uses x i := by
    unfold Graph.Uses
    rw [hformula]
  refine ⟨fun i m => ?_, fun i c => ?_, fun x _ m => ?_, fun _ hx => hx.elim, fun i c hc => ?_, htidy,
    fun x F hF => ?_, ?_⟩
  · rw [hsucc, h.coherent.successors, hreg, Registry.caches_release]
    simp
  · rw [hreg, Registry.serves_release, h.coherent.consumers, huses]
    simp only [List.mem_cons]
    constructor
    · rintro ⟨huse | ⟨rfl, rfl | hi⟩, hne⟩
      · exact .inl huse
      · exact absurd ⟨rfl, rfl⟩ hne
      · exact .inr ⟨rfl, hi⟩
    · rintro (huse | ⟨rfl, hi⟩)
      · exact ⟨.inl huse, fun hc => h.not_uses i (hc.2 ▸ huse)⟩
      · exact ⟨.inr ⟨rfl, .inr hi⟩, fun hc => ha (hc.1 ▸ hi)⟩
  · rw [hpred, h.coherent.reads x not_false]
    unfold Feeds
    refine exists_congr fun i => ?_
    rw [huses, hreg, Registry.caches_release]
    constructor
    · rintro ⟨hc, huse⟩
      have hserve : (g.registry.release a n).2.Serves i x :=
        Registry.serves_release.2 ⟨(h.coherent.consumers i x).2 (.inl huse),
          fun hx => h.not_uses i (hx.2 ▸ huse)⟩
      obtain ⟨c, hc', -⟩ := hserve
      exact ⟨⟨hc, by rw [hc']; rfl⟩, huse⟩
    · rintro ⟨⟨hc, -⟩, huse⟩
      exact ⟨hc, huse⟩
  · rw [hreg] at hc
    obtain ⟨c', hc', -, -, hother, hself⟩ := Registry.of_get?_release hc
    by_cases hi : i = a
    · exact hself hi
    · rw [hother hi]
      exact h.coherent.used i c' hc'
  · exact h.coherent.anchors x F (by rwa [hformula] at hF)
  · rw [hreg]
    exact h.coherent.fresh.release

/-- The node stops using one of its bindings. -/
theorem Parting.giveUp (h : Parting f n [] (a :: bs) g) (ha : a ∉ bs) : Parting f n [] bs (g.giveUp n a) := by
  obtain ⟨hreg, hbeside, hpend, -, hformula, -, -, habsent⟩ := h.coherent.giveUp_spec (n := n) a
  exact
    { coherent := h.coherent_giveUp ha
      beside := h.beside.trans hbeside
      absent := habsent n h.absent
      formula := fun x hx => (hformula x).trans (h.formula x hx)
      bound := fun i d hd => h.bound i d (Registry.bound?_release (hreg ▸ hd))
      caches := fun i x hx => h.caches i x (Registry.caches_release.1 (hreg ▸ hx)).1
      kept := fun i x hx hxn hi => by
        rw [hreg] at hi ⊢
        exact Registry.caches_release.2 ⟨h.kept i x hx hxn (Registry.isSome_get?_of_release hi), hi⟩
      marked := fun i hi => by
        rw [hpend]
        exact h.marked i hi
      pending := fun x hx => by
        rw [hpend]
        exact h.pending x hx }

end Giving

/-- The node leaves the caches that hold it. -/
theorem Parting.forgetAll (h : Parting f n ss bs g) :
    Parting f n [] bs (ss.foldl (·.forget n ·) g) := by
  induction ss generalizing g with
  | nil => exact h
  | cons a rest ih => exact ih h.forget

/-- The node gives up its bindings. -/
theorem Parting.giveUpAll (h : Parting f n [] bs g) (hbs : bs.Nodup) :
    Parting f n [] [] (bs.foldl (·.giveUp n ·) g) := by
  induction bs generalizing g with
  | nil => exact h
  | cons a rest ih =>
    obtain ⟨ha, hrest⟩ := List.nodup_cons.1 hbs
    exact ih (h.giveUp ha) hrest

/-- A node that is not in the graph has nothing to leave. -/
theorem CoherentBut.detached_of_absent {unread : NodeId → Prop} (h : CoherentBut { unread } f)
    (hunread : ∀ x, unread x → x = n) (hv : f.graph.get? n = none) : Detached n f f := by
  have hformula : f.graph.formula? n = none := by rw [Graph.formula?, hv, Option.bind_none]
  have hnone (x : NodeId) : ¬ unread x := by
    intro hx
    have hread := h.unread x hx
    rw [hunread x hx, hformula] at hread
    simp at hread
  refine ⟨{ h with reads := fun x _ => h.reads x (hnone x), unread := fun _ hx => hx.elim }, .refl f, fun x => ?_,
    fun _ _ hb => hb, fun i x => ⟨fun hc => ⟨hc, ?_, ?_⟩, fun hc => hc.1⟩, .refl f, .refl f⟩
  · split
    next hx => rw [hx, hformula]
    next => rfl
  · rintro rfl
    have hs := (h.successors i x).2 ⟨hc, not_false⟩
    rw [Graph.successors, hv] at hs
    simp at hs
  · obtain ⟨b, hb, -⟩ := hc
    rw [hb]
    rfl

section Leaving

/-- Once a node has left everything, what is left is in agreement. -/
theorem Parting.coherent_end (h : Parting f n [] [] g) : Coherent g :=
  { h.coherent with
    successors := fun id m => by simpa using h.coherent.successors id m
    consumers := fun id c => by simpa using h.coherent.consumers id c }

/-- A formula that is not pending reads what it read before, and the node was not among that. -/
theorem Parting.marksBut (h : Parting f n [] [] g) :
    MarksBut (· = n) f { g with graph := g.graph.outdated, pending := g.pending.erase n } where
  formula x F hF hx := by
    rw [Graph.formula?_outdated] at hF
    have hxn : x ≠ n := by
      rintro rfl
      rw [h.formula?_self] at hF
      simp at hF
    have hxg : x ∉ g.pending := fun hc => hx (by simp [hc, Ne.symm hxn])
    have hF' : f.graph.formula? x = some F := by rwa [h.formula x hxn] at hF
    refine ⟨hF', hxn, fun id hid m => ?_⟩
    have hne (hm : f.registry.Caches id m) : m ≠ n := by
      rintro rfl
      rcases h.marked id hm with hc | hc
      · simp at hc
      · exact hxg (hc x hxn ⟨F, hF', hid⟩)
    obtain ⟨b, hb, -⟩ := (h.coherent_end.consumers id x).2 (.inl ⟨F, hF, hid⟩)
    refine ⟨⟨h.caches id m, fun hm => h.kept id m hm (hne hm) ?_⟩, hne⟩
    rw [hb]
    rfl
  pending x hx := by
    by_cases hxn : x = n
    · exact .inr hxn
    · exact .inl (by simp [h.pending x hx, Ne.symm hxn])

theorem Parting.detached (h : Parting f n [] [] g) :
    Detached n f { g with graph := g.graph.outdated, pending := g.pending.erase n } where
  coherent := h.coherent_end.congr rfl rfl
  beside := ⟨h.beside.tree, h.beside.schedule, h.beside.stopAtOverride, h.beside.cacheRefresh⟩
  formula := h.formula?
  bound := h.bound
  caches i x := by
    constructor
    · intro hc
      refine ⟨h.caches i x hc, ?_, ?_⟩
      · rintro rfl
        have hs := (h.coherent_end.successors i x).2 ⟨hc, not_false⟩
        rw [Graph.successors, h.absent] at hs
        simp at hs
      · obtain ⟨b, hb, -⟩ := hc
        rw [hb]
        rfl
    · rintro ⟨hc, hx, hi⟩
      exact h.kept i x hc hx hi
  marks := ⟨_, h.marksBut⟩
  levels := .of_none rfl

/-- What taking a node out of the graph does. -/
theorem CoherentBut.detach_spec {unread : NodeId → Prop} (h : CoherentBut { unread } f)
    (hunread : ∀ x, unread x → x = n) : Detached n f (f.detach n) := by
  unfold detach
  cases hv : f.graph.get? n with
  | none => exact h.detached_of_absent hunread hv
  | some v =>
    have hnodup : ((v.formula.map (·.bindings)).getD []).Nodup := by
      cases v.formula with
      | none => exact List.nodup_nil
      | some F => exact F.nodup_bindings
    exact ((h.parting hunread hv).forgetAll.giveUpAll hnodup).detached

end Leaving

end LiveForm.Form
