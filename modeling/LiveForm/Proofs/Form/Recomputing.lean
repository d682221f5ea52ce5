import LiveForm.Proofs.Form.Evaluation

/-!
# Recomputing

A recomputation of a settled form evaluates what is affected by the pending nodes, in the order of the levels. It
cannot fail, and no stale formula is left: a formula is evaluated after those that it reads, and one that is not
evaluated reads nothing that has changed.
-/

set_option autoImplicit false

namespace LiveForm.Form

variable {f f' g : Form} {n m c : NodeId} {id : BindingId} {F : Formula} {seeds : NodeSet}
  {order : VisitOrder}

section Affected

theorem mem_affected : n ∈ f.affected seeds ↔ n ∈ seeds ∨
    n ∈ Search.reach f.dependents f.passes (f.consumers.toList.filter (!seeds.contains ·))
      (seeds.toList.flatMap f.dependents) := by
  unfold affected
  simp

theorem mem_seeds : n ∈ f.seeds ↔ n ∈ f.pending ∧ f.graph.contains n = true ∧ f.tree.contains n = true := by
  simp [seeds, and_left_comm]

/-- What depends on an affected node is affected, unless that node has been overridden. -/
theorem CoherentBut.affected_of_feeds (h : Coherent f) (hn : n ∈ f.affected seeds)
    (hpass : n ∈ seeds ∨ f.passes n = true) (hfeeds : f.Feeds n c) : c ∈ f.affected seeds := by
  have hdep : c ∈ f.dependents n := h.mem_dependents.2 hfeeds
  by_cases hc : c ∈ seeds
  · exact mem_affected.2 (.inl hc)
  have hunseen : c ∈ f.consumers.toList.filter (!seeds.contains ·) := by
    obtain ⟨id, -, huse⟩ := hfeeds
    have hserve : f.registry.Serves id c := (h.consumers id c).2 (.inl huse)
    rw [List.mem_filter, Std.ExtTreeSet.mem_toList]
    exact ⟨mem_consumers.2 ⟨id, hserve⟩, by simpa [Binding.contains_eq_false_iff] using hc⟩
  have htarget (hs : n ∈ seeds) : c ∈ f.affected seeds :=
    mem_affected.2 (.inr (Search.mem_reach_of_mem hunseen
      (List.mem_flatMap.2 ⟨n, Std.ExtTreeSet.mem_toList.2 hs, hdep⟩)))
  rcases mem_affected.1 hn with hs | hr
  · exact htarget hs
  · rcases hpass with hs | hp
    · exact htarget hs
    · exact mem_affected.2 (.inr (Search.mem_reach_of_next hr hp hdep hunseen))

/-- Nothing is affected by nothing. -/
theorem affected_empty : f.affected ∅ = ∅ := by
  rw [Std.ExtTreeSet.eq_empty_iff_forall_not_mem]
  intro n hn
  rcases mem_affected.1 hn with hs | hr
  · simp at hs
  · have hreached := Search.reached_of_mem_reach hr
    clear hr hn
    induction hreached with
    | target ht => simp at ht
    | step _ _ _ ih => exact ih

end Affected

section Syncing

theorem Upkept.congr {new : NodeId → Prop} (h : Upkept new f) (htree : f'.tree = f.tree)
    (hregistry : f'.registry = f.registry) (hvertices : f'.graph.vertices = f.graph.vertices)
    (hlevels : f'.graph.LevelsRight) : Upkept new f' :=
  (h.consistent.congr hregistry hvertices hlevels).upkept
    ((h.current.follows.congr htree hregistry hvertices).current (htree ▸ h.current.tree))

/-- If a form holds what the tree asks for, all caches are up to date. -/
theorem Tracking.syncBy (h : Tracking f) (mode : Refresh) (id : BindingId) : syncBy order mode id f = .ok () f := by
  cases hb : f.registry.get? id with
  | none => exact syncBy_of_none hb order
  | some b =>
    refine syncBy_of_current hb order fun m => ?_
    cases mode with
    | incremental => exact h.follows.mem_fresh_incremental hb
    | fromScratch => rw [h.follows.mem_fresh_fromScratch h.keyed hb, h.follows.caches_iff hb]

theorem syncAll_of_current {mode : Refresh} (h : ∀ id, Form.syncBy order mode id f = .ok () f) (ids : List BindingId) :
    ids.forM (Form.syncBy order mode) f = .ok () f := by
  induction ids with
  | nil => rfl
  | cons a rest ih =>
    have heq : (a :: rest).forM (Form.syncBy order mode) f =
        EStateM.bind (Form.syncBy order mode a) (fun _ => rest.forM (Form.syncBy order mode)) f := rfl
    rw [heq, EStateM.bind, h a]
    exact ih

end Syncing

section Evaluating

variable {done rest : List NodeId}

/-- Some formulas of a settled form have been evaluated, and nothing else has changed. -/
structure Evaluating (f g : Form) (done : List NodeId) : Prop where
  same : g = f.withTree g.tree
  blank : g.tree.blank = f.tree.blank
  tree : g.tree.WellFormed
  shaped : f.tree.Shaped → g.tree.Shaped
  others : ∀ x, x ∉ done → g.tree.place? x = f.tree.place? x
  evaluated : ∀ x ∈ done, g.Evaluated x

theorem Valued.evaluating (h : Valued f g done) (hf : Settled f) : Evaluating f g done :=
  { h with
    tree := hf.current.tree.of_blank h.blank
    shaped := fun hs => hs.of_blank h.blank }

/-- What is settled stays so. -/
theorem Evaluating.settled (h : Evaluating f g done) (hf : Settled f) : Settled g := by
  have htracking := hf.tracking.of_blank h.blank
  rw [← h.same] at htracking
  exact htracking.upkept h.tree

end Evaluating

section Recomputation

/-- Nothing is pending any more, and perhaps the levels have been determined. -/
structure Cleared (f f₀ : Form) : Prop where
  beside : SameBeside f f₀
  registry : f₀.registry = f.registry
  vertices : f₀.graph.vertices = f.graph.vertices
  levels : f₀.graph.LevelsRight
  known : ∀ levels, f.graph.levels = some levels → f₀.graph.levels = some levels
  pending : f₀.pending = ∅

/-- If levels are known then following up what is pending starts with taking it away, and changes nothing else. -/
theorem Cleared.eq {levels : Std.ExtTreeMap NodeId Nat} (h : Cleared f g) (hlevels : f.graph.levels = some levels) :
    g = f.clearPending := by
  have hgraph : g.graph = f.graph := by
    calc g.graph = ⟨g.graph.vertices, g.graph.levels⟩ := rfl
      _ = f.graph := by rw [h.vertices, h.known levels hlevels, ← hlevels]
  calc g = ⟨g.tree, g.registry, g.graph, g.pending, g.schedule, g.stopAtOverride, g.cacheRefresh⟩ := rfl
    _ = f.clearPending := by
      rw [h.beside.tree, h.registry, hgraph, h.pending, h.beside.schedule, h.beside.stopAtOverride,
        h.beside.cacheRefresh]
      rfl

theorem Consistent.cleared_leveled (h : Consistent f) {levels : Std.ExtTreeMap NodeId Nat}
    (hlevels : f.graph.computeLevels = .ok levels) : Cleared f (f.leveled levels) where
  beside := ⟨rfl, rfl, rfl, rfl⟩
  registry := rfl
  vertices := rfl
  levels := (h.leveled hlevels).levels
  known levels' hlevels' := by
    obtain rfl := Except.ok.inj (hlevels.symm.trans (h.levels levels' hlevels'))
    rfl
  pending := rfl

/-- If no cache changes when it is brought up to date, a recomputation succeeds and evaluates the affected formulas. -/
theorem Consistent.recomputePendingBy_of_current (h : Consistent f) (order : VisitOrder)
    (hcurrent : ∀ id, Form.syncBy order f.cacheRefresh id f.clearPending = .ok () f.clearPending) : ∃ f₀ report g,
    Form.recomputePendingBy order f = .ok report g ∧ Cleared f f₀ ∧ Reported f₀ report g ∧
      ∀ x, x ∈ report.evaluated ↔
        x ∈ f.affected f.seeds ∧ f.tree.contains x = true ∧ (f.graph.formula? x).isSome := by
  have hclear : Consistent f.clearPending := h.congr rfl rfl h.levels
  unfold Form.recomputePendingBy
  split
  next hidle =>
    refine ⟨f.clearPending, {}, f.clearPending, rfl, ⟨⟨rfl, rfl, rfl, rfl⟩, rfl, rfl, h.levels, fun _ => id, rfl⟩, .start _,
      fun x => ?_⟩
    rw [Std.ExtTreeSet.isEmpty_iff.1 hidle, affected_empty]
    simp
  next =>
    dsimp only
    rw [syncAll_of_current hcurrent]
    dsimp only
    obtain ⟨levels, report, g, hcompute, hrun, hreported, hevaluated⟩ :=
      hclear.evaluateAffected order (f.affected f.seeds)
    refine ⟨f.clearPending.leveled levels, report, g, hrun, ?_, hreported, fun x => ?_⟩
    · exact h.cleared_leveled hcompute
    · -- Bringing caches up to date has made nothing else pending.
      have hlate : f.clearPending.late (f.affected f.seeds) = ∅ := by
        rw [Std.ExtTreeSet.eq_empty_iff_forall_not_mem]
        intro n hn
        simp [late, clearPending] at hn
      have hsame : (f.affected f.seeds).insertMany (f.clearPending.affected ∅).toList = f.affected f.seeds := by
        rw [affected_empty]
        exact Std.ExtTreeSet.ext_mem fun n => by simp
      rw [hevaluated, hlate, hsame, mem_evaluationOrder]
      rfl

/-- A recomputation of a form that holds what the tree asks for succeeds, and evaluates the affected formulas. -/
theorem Tracking.recomputePendingBy (h : Tracking f) (order : VisitOrder) : ∃ f₀ report g,
    Form.recomputePendingBy order f = .ok report g ∧ Cleared f f₀ ∧ Reported f₀ report g ∧
      ∀ x, x ∈ report.evaluated ↔
        x ∈ f.affected f.seeds ∧ f.tree.contains x = true ∧ (f.graph.formula? x).isSome := by
  have hclear : Tracking f.clearPending := h.congr rfl rfl rfl h.levels
  exact h.consistent.recomputePendingBy_of_current order (hclear.syncBy f.cacheRefresh)

/-- What a recomputation of a settled form does: the registry, the vertices and all of the tree but the values of
formulas stay as they are. -/
structure Recomputed (f : Form) (report : Report) (f' : Form) : Prop where
  settled : Settled f'
  pending : f'.pending = ∅
  fresh : Covered f → ∀ n, ¬ f'.Stale n
  evaluated : Covered f → ∀ n, f.Stale n → n ∈ report.evaluated
  blank : f'.tree.blank = f.tree.blank
  shaped : f.tree.Shaped → f'.tree.Shaped
  registry : f'.registry = f.registry
  vertices : f'.graph.vertices = f.graph.vertices
  schedule : f'.schedule = f.schedule

/-- A pending node that is stale, or that a stale node reads, is followed up. -/
theorem Covered.affected (hc : Covered f) (h : Settled f) (hn : f.Stale n) : n ∈ f.affected f.seeds := by
  have hseed (m : NodeId) (hm : m ∈ f.pending) (hcontains : f.graph.contains m = true)
      (hplaced : ∃ q, f.tree.place? m = some q) : m ∈ f.seeds := by
    obtain ⟨q, hq⟩ := hplaced
    exact mem_seeds.2 ⟨hm, hcontains, by rw [FieldTree.contains_eq, hq]; rfl⟩
  rcases hc n hn with hp | ⟨m, hm, hfeeds⟩
  · obtain ⟨F, q, hF, hq, -⟩ := h.stale_iff.1 hn
    exact mem_affected.2 (.inl (hseed n hp (Graph.contains_of_formula? hF) ⟨q, hq⟩))
  · have ⟨id, hcache, _⟩ := hfeeds
    obtain ⟨q, hq, -⟩ := h.current.place?_of_caches hcache
    have hs := hseed m hm (h.coherent.contains_of_feeds hfeeds) ⟨q, hq⟩
    exact h.coherent.affected_of_feeds (mem_affected.2 (.inl hs)) (.inl hs) hfeeds

/-- Once all that is affected has been evaluated, nothing is stale. -/
theorem Evaluating.not_stale {nodes : List NodeId} {affected : NodeSet} (hf : Settled f)
    (h : Evaluating f g nodes) (hstale : ∀ n, f.Stale n → n ∈ affected)
    (hclosed : ∀ m n, m ∈ affected → f.passes m = true → f.Feeds m n → n ∈ affected)
    (hnodes : ∀ x, x ∈ nodes ↔ x ∈ affected ∧ f.tree.contains x = true ∧
      (f.graph.formula? x).isSome) (n : NodeId) : ¬ g.Stale n := by
  intro hn'
  have hg := h.settled hf
  have hregistry : g.registry = f.registry := by rw [h.same]; rfl
  have hgraph : g.graph = f.graph := by rw [h.same]; rfl
  obtain ⟨F, q, hF, hq, hvalue⟩ := hg.stale_iff.1 hn'
  by_cases hn : n ∈ nodes
  · obtain ⟨F', q', hF', hq', hv⟩ := h.evaluated n hn
    obtain rfl := Option.some.inj (hF.symm.trans hF')
    obtain rfl := Option.some.inj (hq.symm.trans hq')
    exact hvalue hv
  · rw [h.others n hn] at hq
    have hF' : f.graph.formula? n = some F := hgraph ▸ hF
    have hunaffected : n ∉ affected := fun ha => hn <| (hnodes n).2
      ⟨ha, by rw [FieldTree.contains_eq, hq]; rfl, by rw [hF']; rfl⟩
    refine hunaffected (hstale n (hf.stale_iff.2 ⟨F, q, hF', hq, ?_⟩))
    have hsame := hf.coherent.evaluateCached_of_others h.blank h.others hF' fun m hmn hm => by
      by_contra hpass
      exact hunaffected (hclosed m n ((hnodes m).1 hmn).1 (by simpa using hpass) hm)
    rw [← hsame, ← hregistry]
    exact hvalue

/-- A recomputation of a settled form succeeds, and leaves nothing stale if all that is stale was going to be followed
up. -/
theorem Settled.recomputePendingBy (h : Settled f) :
    ∃ report f', recomputePendingBy order f = .ok report f' ∧ Recomputed f report f' := by
  obtain ⟨f₀, report, g, hrun, hclear, hreported, hevaluated⟩ := h.tracking.recomputePendingBy order
  have hset : Settled f₀ := h.congr hclear.beside.tree hclear.registry hclear.vertices hclear.levels
  have heval := hreported.valued.evaluating hset
  have hsame := heval.same
  have hstale (n : NodeId) : f₀.Stale n ↔ f.Stale n := by
    unfold Stale
    rw [hclear.beside.tree]
  have hfeeds {m n : NodeId} (hm : f₀.Feeds m n) : f.Feeds m n := by
    unfold Feeds Graph.Uses Graph.formula? Graph.get? at hm ⊢
    rwa [hclear.registry, hclear.vertices] at hm
  have hformula (x : NodeId) : f₀.graph.formula? x = f.graph.formula? x := by
    rw [Graph.formula?, Graph.get?, hclear.vertices, Graph.formula?, Graph.get?]
  refine ⟨report, g, hrun,
    { settled := heval.settled hset, pending := ?_, fresh := fun hc => ?_, evaluated := fun hc n hn => ?_,
      blank := ?_, shaped := fun hs => ?_, registry := ?_, vertices := ?_, schedule := ?_ }⟩
  · rw [hsame]
    exact hclear.pending
  · refine heval.not_stale hset (fun n hn => hc.affected h ((hstale n).1 hn)) (fun m n hm hp hmn => ?_) fun x => ?_
    · refine h.coherent.affected_of_feeds hm (.inr ?_) (hfeeds hmn)
      unfold Form.passes at hp ⊢
      rwa [hclear.beside.tree, hclear.beside.stopAtOverride] at hp
    · rw [hevaluated, hclear.beside.tree, hformula]
  · obtain ⟨F, q, hF, hq, -⟩ := h.stale_iff.1 hn
    refine (hevaluated n).2 ⟨hc.affected h hn, ?_, by rw [hF]; rfl⟩
    rw [FieldTree.contains_eq, hq]
    rfl
  · rw [heval.blank, hclear.beside.tree]
  · exact heval.shaped (hclear.beside.tree ▸ hs)
  · rw [hsame]
    exact hclear.registry
  · rw [hsame]
    exact hclear.vertices
  · rw [hsame]
    exact hclear.beside.schedule

end Recomputation

end LiveForm.Form
