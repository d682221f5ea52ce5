import LiveForm.Proofs.Form.Ordering

/-!
# Settling while caches are out of date

What is pending is followed up after each report, and so also while some bindings do not hold yet what they should. The
values are right then for what the bindings hold: a formula is evaluated if it is pending, if it reads a field that is, or
if one of its bindings loses or gains a field in the course of it, and otherwise it has the value that it had.
-/

set_option autoImplicit false

namespace LiveForm.Form

variable {f g : Form} {n m : NodeId} {F : Formula} {order : VisitOrder} {report : Report}

/-- A formula is followed up next: it is pending, or reads a field that is. -/
def Impending (f : Form) (n : NodeId) : Prop :=
  n ∈ f.pending ∨ ∃ m ∈ f.pending, f.Feeds m n

/-- The bindings of a formula hold the same fields in two forms. -/
def SameInputs (f g : Form) (n : NodeId) : Prop :=
  ∀ id, f.graph.Uses n id → ∀ m, g.registry.Caches id m ↔ f.registry.Caches id m

/-- A formula has the same value if its bindings hold the same fields. -/
theorem CoherentBut.evaluateCached_of_sameInputs (h : Coherent f) (hF : f.graph.formula? n = some F)
    (hselector : ∀ id, (g.registry.bound? id).map Bound.selector = (f.registry.bound? id).map Bound.selector)
    (hsame : f.SameInputs g n) (t : FieldTree) : F.evaluateCached g.registry t = F.evaluateCached f.registry t := by
  refine Formula.evaluateCached_congr fun id hid => ?_
  obtain ⟨b, hb⟩ := h.exists_get? hF hid
  have hbound := hselector id
  rw [Registry.bound?, Registry.bound?, hb, Option.map_some, Option.map_some, Option.map_map,
    Option.map_eq_some_iff] at hbound
  obtain ⟨b', hb', hselector'⟩ := hbound
  have hcaches (m : NodeId) : m ∈ b'.cache ↔ m ∈ b.cache := by
    have hiff := hsame id ⟨F, hF, hid⟩ m
    simpa [Registry.Caches, hb, hb'] using hiff
  exact ⟨b, b', hb, hb', hselector', Std.ExtTreeSet.ext_mem hcaches, fun _ _ => rfl, fun _ _ _ _ => rfl,
    fun _ _ => rfl⟩

/-- What is followed up next is affected. -/
theorem Impending.affected (h : f.Impending n) (hf : Coherent f) (hcached : ∀ id m, f.registry.Caches id m → f.tree.contains m = true)
    (hF : f.graph.formula? n = some F) (hn : f.tree.contains n = true) : n ∈ f.affected f.seeds := by
  have hseed {x : NodeId} (hx : x ∈ f.pending) (hg : f.graph.contains x = true) (ht : f.tree.contains x = true) :
      x ∈ f.seeds := by
    simp [seeds, Std.ExtTreeSet.mem_filter, hx, hg, ht]
  rcases h with hp | ⟨m, hm, hfeeds⟩
  · exact mem_affected.2 (.inl (hseed hp (Graph.contains_of_formula? hF) hn))
  · obtain ⟨id, hcache, -⟩ := id hfeeds
    have hcontains : f.graph.contains m = true :=
      hf.tidy.contains_iff.2 (.inr ⟨id, (hf.successors id m).2 ⟨hcache, not_false⟩⟩)
    have hs := hseed hm hcontains (hcached id m hcache)
    exact hf.affected_of_feeds (mem_affected.2 (.inl hs)) (.inl hs) hfeeds

/-- What following up does to a formula: it is evaluated, or it was not about to be, and then nothing that it reads changes. -/
def AttendedAt (f g : Form) (n : NodeId) : Prop :=
  g.Evaluated n ∨ ¬ f.Impending n ∧ f.SameInputs g n ∧ (f.Evaluated n → g.Evaluated n)

/-- Everything pending has been followed up. -/
structure Attended (f g : Form) : Prop where
  consistent : Consistent g
  pending : g.pending = ∅
  blank : g.tree.blank = f.tree.blank
  schedule : g.schedule = f.schedule
  formula : ∀ n, g.graph.formula? n = f.graph.formula? n
  bound : ∀ id, g.registry.bound? id = f.registry.bound? id
  caches : ∀ id b, f.registry.get? id = some b → (∀ m, g.registry.Caches id m ↔ m ∈ b.cache) ∨
    ∀ m, g.registry.Caches id m ↔ m ∈ b.fresh f.tree f.cacheRefresh
  values : ∀ n, (f.graph.formula? n).isSome → f.tree.contains n = true → AttendedAt f g n

/-- Nothing that is in the graph and in the tree was pending. -/
theorem Consistent.attended_idle (h : Consistent f)
    (hnot : ∀ n, (f.graph.formula? n).isSome → f.tree.contains n = true → ¬ f.Impending n) : Attended f f.clearPending where
  consistent := h.congr rfl rfl h.levels
  pending := rfl
  blank := rfl
  schedule := rfl
  formula _ := rfl
  bound _ := rfl
  caches id b hb := .inl fun m => by simp [Registry.Caches, clearPending, hb]
  values n hn ht := .inr ⟨hnot n hn ht, fun _ _ _ => .rfl, id⟩

/-- A formula that bringing caches up to date does not make pending goes on to read the same fields. -/
theorem Refreshed.sameInputs {done : List BindingId} (h : Refreshed f done g) (hf : Coherent f) (hn : n ∉ g.pending) :
    SameInputs f g n := by
  intro id hid m
  obtain ⟨b, hb, hserves⟩ := (hf.consumers id n).2 (.inl hid)
  have hcache : f.cacheAfter done id b = b.cache := by
    unfold cacheAfter
    split
    next hdone =>
      by_contra hne
      exact hn ((h.pending n).2 (.inr ⟨id, hdone, b, hb, hne, b, hb, hserves⟩))
    next => rfl
  rw [h.caches]
  refine exists_congr fun b' => and_congr_right fun hb' => ?_
  obtain rfl := Option.some.inj (hb.symm.trans hb')
  rw [hcache]

theorem SameInputs.feeds (h : SameInputs f g n) (hformula : g.graph.formula? n = f.graph.formula? n) :
    g.Feeds m n ↔ f.Feeds m n := by
  have huses (id : BindingId) : g.graph.Uses n id ↔ f.graph.Uses n id := by
    unfold Graph.Uses
    rw [hformula]
  exact exists_congr fun id => by
    rw [huses]
    exact and_congr_left fun hid => h id hid m

/-- A formula that is not evaluated is not affected, neither from the beginning nor by what bringing caches up to date
has made pending. -/
theorem not_affected_of_followed {f₀ : Form} (hF : (f₀.graph.formula? n).isSome) (hn : n ∉ f.followed f₀) :
    n ∉ f.affected f.seeds ∧ n ∉ f₀.affected (f₀.late (f.affected f.seeds)) ∧ n ∉ f₀.pending := by
  obtain ⟨F, hF⟩ := Option.isSome_iff_exists.1 hF
  have hboth : n ∉ f.affected f.seeds ∧ n ∉ f₀.affected (f₀.late (f.affected f.seeds)) := by
    unfold followed at hn
    simpa using hn
  refine ⟨hboth.1, hboth.2, fun hp => hboth.2 (mem_affected.2 (.inl ?_))⟩
  have hgraph : f₀.graph.contains n = true := Graph.contains_of_formula? hF
  have hnot : (f.affected f.seeds).contains n = false := Binding.contains_eq_false_iff.2 hboth.1
  simp [late, Std.ExtTreeSet.mem_filter, hp, hgraph, hnot]

/-- Of the fields that a formula reads which is not followed up, none is, unless recomputing stops there. -/
theorem Refreshed.passes_eq_false {f₀ : Form} {done : List BindingId} (h : Refreshed f.clearPending done f₀)
    (hf : Coherent f) (hF : (f₀.graph.formula? n).isSome) (hn : n ∉ f.followed f₀) (hm : m ∈ f.followed f₀)
    (hfeeds : f₀.Feeds m n) : f₀.passes m = false := by
  obtain ⟨hfirst, hlate, hpending⟩ := not_affected_of_followed hF hn
  have hclear : Coherent f.clearPending := hf.congr rfl rfl
  have hinputs : SameInputs f f₀ n := h.sameInputs hclear hpending
  by_contra hpass
  rw [Bool.not_eq_false] at hpass
  have hmem : m ∈ f.affected f.seeds ∨ m ∈ f₀.affected (f₀.late (f.affected f.seeds)) := by
    unfold followed at hm
    simpa using hm
  rcases hmem with hm | hm
  · have hpass' : f.passes m = true := by
      have htree : f₀.tree = f.tree := h.relinked.beside.tree
      unfold passes at hpass ⊢
      rwa [htree, h.relinked.beside.stopAtOverride] at hpass
    exact hfirst (hf.affected_of_feeds hm (.inr hpass') ((hinputs.feeds (h.relinked.formula n)).1 hfeeds))
  · exact hlate (h.coherent.affected_of_feeds hm (.inr hpass) hfeeds)

section Concluding

variable (h : Concluded f order report g)

include h

theorem Concluded.formula?_eq (n : NodeId) : g.graph.formula? n = f.graph.formula? n := by
  obtain ⟨f₀, levels, href, -, ⟨hvalued, -⟩, -⟩ := h.refreshed
  have hgraph : g.graph.formula? n = f₀.graph.formula? n := by
    rw [hvalued.same]
    rfl
  exact hgraph.trans (href.relinked.formula n)

theorem Concluded.bound?_eq (id : BindingId) : g.registry.bound? id = f.registry.bound? id := by
  obtain ⟨f₀, levels, href, -, ⟨hvalued, -⟩, -⟩ := h.refreshed
  have hregistry : g.registry.bound? id = f₀.registry.bound? id := by
    rw [hvalued.same]
    rfl
  exact hregistry.trans (href.relinked.bound id)

/-- Of a formula that is not evaluated, nothing changes that it reads, neither the fields nor their values. -/
theorem Concluded.attendedAt (hf : Consistent f) (hcached : ∀ id m, f.registry.Caches id m → f.tree.contains m = true)
    (hF : f.graph.formula? n = some F) (ht : f.tree.contains n = true) : AttendedAt f g n := by
  obtain ⟨f₀, levels, href, hcompute, ⟨hvalued, -⟩, hevaluated⟩ := h.refreshed
  by_cases hdone : n ∈ report.evaluated
  · exact .inl (hvalued.evaluated n hdone)
  have hclear : Consistent f.clearPending := hf.congr rfl rfl hf.levels
  have hleveled := (href.consistent hclear).leveled hcompute
  have htree : f₀.tree = f.tree := href.relinked.beside.tree
  have hregistry : g.registry = f₀.registry := by
    rw [hvalued.same]
    rfl
  have hF₀ : f₀.graph.formula? n = some F := (href.relinked.formula n).trans hF
  have hnot : n ∉ f.followed f₀ := fun hc => by
    rw [hevaluated, mem_evaluationOrder] at hdone
    exact hdone ⟨hc, (congrArg (·.contains n) htree).trans ht, congrArg Option.isSome hF₀⟩
  obtain ⟨hfirst, -, hpending⟩ := not_affected_of_followed (by rw [hF₀]; rfl) hnot
  have hinputs : SameInputs f f₀ n := href.sameInputs hclear.coherent hpending
  refine .inr ⟨fun hi => hfirst (hi.affected hf.coherent hcached hF ht), fun id hid m => ?_, ?_⟩
  · rw [hregistry]
    exact hinputs id hid m
  rintro ⟨F', q, hF', hq, hvalue⟩
  obtain rfl := Option.some.inj (hF.symm.trans hF')
  refine ⟨F, q, (h.formula?_eq n).trans hF, ?_, ?_⟩
  · rw [hvalued.others n hdone]
    exact (congrArg (·.place? n) htree).trans hq
  have hstop : ∀ m ∈ report.evaluated, (f₀.leveled levels).Feeds m n → (f₀.leveled levels).passes m = false := by
    intro m hm hfeeds
    rw [hevaluated, mem_evaluationOrder] at hm
    exact href.passes_eq_false hf.coherent (by rw [hF₀]; rfl) hnot hm.1 hfeeds
  have hkept := hleveled.coherent.evaluateCached_of_others hvalued.blank hvalued.others hF₀ hstop
  rw [hvalue, hregistry]
  calc F.evaluateCached f.registry f.tree
      = F.evaluateCached f₀.registry f.tree :=
        (hf.coherent.evaluateCached_of_sameInputs hF (fun id => by rw [href.relinked.bound]; rfl) hinputs f.tree).symm
    _ = F.evaluateCached f₀.registry f₀.tree := by rw [htree]
    _ = F.evaluateCached f₀.registry g.tree := hkept.symm

/-- What a recomputation comes to. -/
theorem Concluded.attended (hf : Consistent f) (hg : Steady f.tree.blank f.schedule g)
    (hcached : ∀ id m, f.registry.Caches id m → f.tree.contains m = true) : Attended f g where
  consistent := hg.consistent
  pending := by
    obtain ⟨_, _, -, -, ⟨hvalued, -⟩, -⟩ := h.refreshed
    rw [hvalued.same]
    rfl
  blank := hg.tree
  schedule := hg.schedule
  formula := h.formula?_eq
  bound := h.bound?_eq
  caches id b hb := by
    obtain ⟨f₀, levels, href, -, ⟨hvalued, -⟩, -⟩ := h.refreshed
    have hcaches (m : NodeId) : g.registry.Caches id m ↔ m ∈ f.clearPending.cacheAfter (order.bindings f.due) id b := by
      have hb' : f.clearPending.registry.get? id = some b := hb
      have hregistry : g.registry = f₀.registry := by
        rw [hvalued.same]
        rfl
      rw [hregistry, href.caches, hb']
      simp
    unfold cacheAfter at hcaches
    split at hcaches
    · exact .inr hcaches
    · exact .inl hcaches
  values n hn ht := by
    obtain ⟨F, hF⟩ := Option.isSome_iff_exists.1 hn
    exact h.attendedAt hf hcached hF ht

end Concluding

/-- A recomputation follows up all that is pending. -/
theorem Consistent.recomputePending_attended (h : Consistent f)
    (hcached : ∀ id m, f.registry.Caches id m → f.tree.contains m = true) :
    Ends (Form.recomputePending f) (fun _ g => Attended f g) (fun _ _ => True) := by
  have hsteady : Ends (Form.recomputePending f) _ _ := Steady.recomputePendingBy f (Steady.start h)
  unfold Form.recomputePending at hsteady ⊢
  cases hseeds : f.seeds.isEmpty with
  | false =>
    exact ((h.concluded hseeds .ascending).and hsteady).mono (fun _ _ hg => hg.1.attended h hg.2 hcached)
      fun _ _ _ => trivial
  | true =>
    unfold Form.recomputePendingBy
    rw [if_pos hseeds]
    refine h.attended_idle fun n hn ht hi => ?_
    obtain ⟨F, hF⟩ := Option.isSome_iff_exists.1 hn
    have hmem := hi.affected h.coherent hcached hF ht
    rw [Std.ExtTreeSet.isEmpty_iff.1 hseeds, affected_empty] at hmem
    simp at hmem

/-- What is pending is followed up after a report, whatever the bindings hold. -/
theorem Consistent.settle (h : Consistent f) (heager : f.isSet .recomputeEagerly = true)
    (hcached : ∀ id m, f.registry.Caches id m → f.tree.contains m = true) :
    Ends (Form.settle f) (fun _ g => Attended f g) (fun _ _ => True) := by
  unfold Form.settle
  rw [heager, Bool.true_and]
  split
  · exact Ends.bind (h.recomputePending_attended hcached)
  next hpending =>
    have hempty : f.pending = ∅ := Std.ExtTreeSet.isEmpty_iff.1 (by simpa using hpending)
    have hidle := h.attended_idle fun n _ _ hi => by
      rcases hi with hp | ⟨m, hm, -⟩
      · simp [hempty] at hp
      · simp [hempty] at hm
    have hsame : f.clearPending = f := by rw [clearPending, ← hempty]
    exact hsame ▸ hidle

end LiveForm.Form
