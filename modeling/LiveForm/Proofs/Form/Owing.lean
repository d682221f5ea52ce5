import LiveForm.Proofs.Form.Ordering
import LiveForm.Proofs.Form.Watching

/-!
# A recomputation that is given up

A recomputation fails if bringing a cache up to date would close a circle. Then no value has been touched, and
everything that was to be followed up is pending again. It stays so, whatever is reported in the meantime, until a
recomputation goes through, and this one follows it up.
-/

set_option autoImplicit false

namespace LiveForm

variable {f g : Form} {n m : NodeId} {order : VisitOrder} {e : FormError} {report : Report}

namespace Form

/-- If a node has a formula, then that is going to be followed up. -/
def Owed (f : Form) (n : NodeId) : Prop :=
  (f.graph.formula? n).isSome → n ∈ f.pending

section Reports

theorem Owed.addPending (h : f.Owed n) (nodes : List NodeId) : (f.addPending nodes).Owed n :=
  fun hF => mem_addPending.2 (.inl (h hF))

theorem Tells.owed (h : Tells f g) (hn : f.Owed n) : g.Owed n := fun hF =>
  h.kept n (hn (h.formula n ▸ hF))

/-- What is owed stays so when a node is reported. -/
theorem carried_owed : Carried m fun f g => f.Owed n → g.Owed n where
  refl _ hn := hn
  trans _ _ _ h h' hn := h' (h hn)
  tells _ _ _ _ h := h.owed
  detach _ f hco hunread hn hF := by
    have hformula := (hco.detach_spec hunread).formula n
    by_cases hnm : n = m
    · rw [hformula, if_pos hnm] at hF
      cases hF
    · rw [hformula, if_neg hnm] at hF
      have hminds : Minds (fun _ => True) (· = m) f (f.detach m) := hco.minds_detach hunread rfl
      exact (hminds.kept n (hn hF)).resolve_right hnm
  seats _ _ hn := hn
  withFormula f F r hn hF := by
    rw [formula?_withFormula] at hF
    split at hF
    next hnm => exact mem_addPending.2 (.inr (List.mem_singleton.2 hnm))
    next => exact mem_addPending.2 (.inl (hn hF))
  read _ _ hn := hn.addPending _

end Reports

section Failing

/-- A recomputation has been given up. -/
structure GivenUp (f g : Form) : Prop where
  consistent : Consistent g
  beside : SameBeside f g
  formula : ∀ n, g.graph.formula? n = f.graph.formula? n
  kept : ∀ n ∈ f.affected f.seeds, n ∈ g.pending
  read : ∀ n, n ∉ g.pending → g.graph.predecessors n = f.graph.predecessors n

/-- A formula that is not pending reads what it read before. -/
theorem Relinked.predecessors_eq (h : Relinked f g) (hf : Coherent f) (hg : Coherent g) (hn : n ∉ g.pending) :
    g.graph.predecessors n = f.graph.predecessors n := by
  obtain ⟨gone, hmarks⟩ := h.marks
  refine Std.ExtTreeSet.ext_mem fun m => ?_
  rw [hg.reads n not_false, hf.reads n not_false]
  constructor
  · rintro ⟨id, hcache, F, hF, hid⟩
    obtain ⟨hF', -, hcaches⟩ := hmarks.formula n F hF hn
    exact ⟨id, (hcaches id hid m).1.1 hcache, F, hF', hid⟩
  · rintro ⟨id, hcache, F, hF, hid⟩
    have hF' : g.graph.formula? n = some F := (h.formula n).trans hF
    obtain ⟨-, -, hcaches⟩ := hmarks.formula n F hF' hn
    exact ⟨id, (hcaches id hid m).1.2 hcache, F, hF', hid⟩

theorem Consistent.givenUp (h : Consistent f) (hrun : recomputePendingBy order f = .error e g) : GivenUp f g := by
  have hclear : Consistent f.clearPending := h.congr rfl rfl h.levels
  have hsync := Preserves.forM (fun id => (preserves_relinked_syncBy f.clearPending f.cacheRefresh id :
    Preserves _ (Form.syncBy order f.cacheRefresh id)))
    (order.bindings (f.bindingsUsed (f.affected f.seeds)).toList) f.clearPending ⟨hclear, .refl _⟩
  unfold Form.recomputePendingBy at hrun
  split at hrun
  · cases hrun
  dsimp only at hrun
  split at hrun
  next hforM =>
    obtain ⟨rfl, rfl⟩ := EStateM.Result.error.inj hrun
    obtain ⟨hcons, hrel⟩ := hsync.of_error hforM
    exact
      { consistent := hcons.congr rfl rfl hcons.levels
        beside := ⟨hrel.beside.tree, hrel.beside.schedule, hrel.beside.stopAtOverride, hrel.beside.cacheRefresh⟩
        formula := hrel.formula
        kept := fun n hn => mem_addPending.2 (.inr (Std.ExtTreeSet.mem_toList.2 hn))
        read := fun n hn => hrel.predecessors_eq hclear.coherent hcons.coherent fun hp => hn (mem_addPending.2 (.inl hp)) }
  next hforM =>
    obtain ⟨levels, report, g', -, hevaluate, -⟩ :=
      (hsync.of_ok hforM).1.evaluateAffected order (f.affected f.seeds)
    rw [hevaluate] at hrun
    cases hrun

/-- What was owed before, and is in the tree, is so afterwards. -/
theorem GivenUp.owed (h : GivenUp f g) (hplaced : f.tree.contains n = true) (hn : f.Owed n) : g.Owed n := by
  intro hF
  rw [h.formula] at hF
  obtain ⟨F, hF'⟩ := Option.isSome_iff_exists.1 hF
  exact h.kept n (mem_affected.2 (.inl (mem_seeds.2 ⟨hn hF, Graph.contains_of_formula? hF', hplaced⟩)))

end Failing

end Form

namespace Call

/-- A call does not follow up what is pending: it is no recomputation unless that fails, and recomputations are not done
eagerly. -/
def Defers (f : Form) : Call → Prop
  | recomputePending order => succeeds (Form.recomputePendingBy order f) = false
  | recomputeAll => succeeds (Form.recomputeAll f) = false
  | rebuild _ => False
  | edit _ | moveBindings .. | openScope .. | closeScope _ => True
  | _ => f.isSet .recomputeEagerly = false

/-- None of some calls that are made one after the other follows up what is pending, and a node is in the tree all the
time. -/
def AllDefer (n : NodeId) : List Call → Form → Prop
  | [], f => f.tree.contains n = true
  | call :: rest, f => f.tree.contains n = true ∧ call.Defers f ∧ AllDefer n rest (after call.run f)

end Call

namespace Form

section Waiting

/-- What is owed stays so by a recomputation that fails. -/
theorem Consistent.owed_of_refusal (h : Consistent f) (hplaced : f.tree.contains n = true)
    (hfails : succeeds (recomputePendingBy order f) = false) :
    Ends (recomputePendingBy order f) (fun _ _ => False) (fun _ g => f.Owed n → g.Owed n) := by
  cases hrun : recomputePendingBy order f with
  | ok report g =>
    rw [hrun] at hfails
    cases hfails
  | error e g => exact (h.givenUp hrun).owed hplaced

theorem settle_of_lazy (hlazy : f.isSet .recomputeEagerly = false) : settle f = .ok () f := by
  simp [settle, hlazy]

/-- What is owed stays so by a call that does not follow it up. -/
theorem Consistent.owed_call (h : Consistent f) (hplaced : f.tree.contains n = true) (hn : f.Owed n) {call : Call}
    (hdefers : call.Defers f) : (after call.run f).Owed n := by
  have hsettle (hlazy : f.isSet .recomputeEagerly = false) (g : Form) (hg : Steady f.tree.blank f.schedule g) :
      Ends (settle g) (fun _ g' => g.Owed n → g'.Owed n) (fun _ g' => g.Owed n → g'.Owed n) := by
    rw [settle_of_lazy (by rwa [isSet, hg.schedule])]
    exact id
  have hreport {x : FormM Unit} (hx : Ends (x f) (fun _ g => f.Owed n → g.Owed n) (fun _ g => f.Owed n → g.Owed n)) :
      (after x f).Owed n := hx.after hn
  cases call with
  | edit change => exact hreport (FormM.ends_editTree (fun _ _ hn => hn) fun _ _ hn => hn)
  | register node expression => exact hreport (h.carried_register carried_owed (hsettle hdefers) expression)
  | unregister node => exact hreport (h.carried_unregister carried_owed (hsettle hdefers))
  | moveBindings old node => exact hreport (h.carried_moveBindings carried_owed old)
  | updateLinks node => exact hreport (h.carried_updateLinks carried_owed (hsettle hdefers))
  | rename old node => exact hreport (h.carried_rename carried_owed (hsettle hdefers) old)
  | valueChanged node =>
    refine hreport (Ends.bind (FormM.ends_update ?_))
    split
    · exact (hsettle hdefers _ ((Steady.start h).addPending [node])).mono (fun _ _ hg hn => hg (hn.addPending _))
        fun _ _ hg hn => hg (hn.addPending _)
    · exact hsettle hdefers f (.start h)
  | rebuild recompute => exact hdefers.elim
  | recomputePending order =>
    exact hreport (Ends.bind ((h.owed_of_refusal hplaced hdefers).mono (fun _ _ hg => hg.elim) fun _ _ hg => hg))
  | recomputeAll =>
    have hcons : Consistent (f.addPending f.graph.formulaNodes) := h.congr rfl rfl h.levels
    have hall : Ends (Form.recomputeAll f) (fun _ _ => False)
        (fun _ g => (f.addPending f.graph.formulaNodes).Owed n → g.Owed n) := hcons.owed_of_refusal hplaced hdefers
    exact hreport (Ends.bind (hall.mono (fun _ _ hg => hg.elim) fun _ _ hg hn => hg (hn.addPending _)))
  | openScope switch value => exact hn
  | closeScope switch => exact hn

theorem Drivable.owed_runAll {calls : List Call} (h : Drivable f) (hn : f.Owed n) (hall : Call.AllDefer n calls f) :
    (Call.runAll calls f).Owed n ∧ (Call.runAll calls f).tree.contains n = true := by
  induction calls generalizing f with
  | nil => exact ⟨hn, hall⟩
  | cons call rest ih =>
    obtain ⟨hplaced, hdefers, hrest⟩ := hall
    exact ih (h.call call) (h.consistent.owed_call hplaced hn hdefers) hrest

end Waiting

/-- However the graph of a form has been driven: if a recomputation fails then no value has been touched. What was
pending, and all that was to be followed up, is pending again, and so are the formulas that read other fields now. It
stays so until a recomputation goes through, which evaluates what the failed one owed. -/
theorem owed_after_failure (s : Settings) (calls : List Call) (order : VisitOrder)
    (hrun : recomputePendingBy order (Call.runAll calls (ofSettings s)) = .error e g) :
    let f := Call.runAll calls (ofSettings s)
    g.tree = f.tree ∧
    (∀ n ∈ f.pending, f.graph.contains n = true → f.tree.contains n = true → n ∈ g.pending) ∧
    (∀ n ∈ f.affected f.seeds, n ∈ g.pending) ∧
    (∀ n, n ∉ g.pending → g.graph.predecessors n = f.graph.predecessors n) ∧
    ∀ n ∈ f.affected f.seeds, ∀ later, Call.AllDefer n later g → ∀ order' report h,
      recomputePendingBy order' (Call.runAll later g) = .ok report h →
        ((Call.runAll later g).graph.formula? n).isSome → n ∈ report.evaluated := by
  intro f
  have hf : Drivable f := (Drivable.ofSettings s).runAll calls
  have hgiven : GivenUp f g := hf.consistent.givenUp hrun
  have hg : Drivable g := ⟨hgiven.consistent, hgiven.beside.tree ▸ hf.handled⟩
  refine ⟨hgiven.beside.tree, fun n hn hvertex hplaced => ?_, hgiven.kept, hgiven.read,
    fun n hn later hdefer order' report h hlater hF => ?_⟩
  · exact hgiven.kept n (mem_affected.2 (.inl (mem_seeds.2 ⟨hn, hvertex, hplaced⟩)))
  · have hpending : g.Owed n := fun _ => hgiven.kept n hn
    obtain ⟨howed, hplaced⟩ := hg.owed_runAll hpending hdefer
    obtain ⟨F, hF'⟩ := Option.isSome_iff_exists.1 hF
    refine (hg.runAll later).consistent.evaluated_of_affected hlater (mem_affected.2 (.inl ?_)) hplaced hF
    exact mem_seeds.2 ⟨howed hF, Graph.contains_of_formula? hF', hplaced⟩

/-- Two formulas have been refused in one order. -/
def refused : Form :=
  after (recomputePendingBy .descending) (reversed .fromScratch)

/-- The first of two formulas is taken out. -/
def amendments : List Call :=
  [.edit (.setFormula 1 none), .register 1 none]

theorem allDefer_amendments : Call.AllDefer 2 amendments refused := by
  have hplaced : refused.tree.contains 2 = true := by cbv
  have hplaced' : (after (Call.edit (.setFormula 1 none)).run refused).tree.contains 2 = true := by cbv
  have hlazy : (after (Call.edit (.setFormula 1 none)).run refused).isSet .recomputeEagerly = false := by cbv
  have hplaced'' : (Call.runAll amendments refused).tree.contains 2 = true := by cbv
  exact ⟨hplaced, trivial, hplaced', hlazy, hplaced''⟩

/-- Once the first formula is out, the second one is evaluated. -/
theorem evaluated_after_refusal :
    (∃ e, recomputePendingBy .descending (reversed .fromScratch) = .error e refused) ∧
      refused.tree = (reversed .fromScratch).tree ∧ Call.AllDefer 2 amendments refused ∧
      ∃ report h, recomputePendingBy .descending (Call.runAll amendments refused) = .ok report h ∧
        2 ∈ report.evaluated := by
  have hfails : succeeds (recomputePendingBy .descending (reversed .fromScratch)) = false := by cbv
  have haffected : ((reversed .fromScratch).affected (reversed .fromScratch).seeds).contains 2 = true := by cbv
  have hpasses : succeeds (recomputePendingBy .descending (Call.runAll amendments refused)) = true := by cbv
  have hformula : ((Call.runAll amendments refused).graph.formula? 2).isSome = true := by cbv
  obtain ⟨e, g, hrun⟩ := exists_error_of_fails hfails
  obtain rfl : refused = g := after_of_error hrun
  obtain ⟨report, h, hpass⟩ := exists_ok_of_succeeds hpasses
  obtain ⟨htree, -, -, -, howed⟩ := owed_after_failure { recomputeEagerly := false, cacheRefresh := .fromScratch }
    [.edit (.insert 0 (.name "p") .field), .edit (.insert 0 (.name "q") .field),
      .edit (.setFormula 1 (some "ref /q")), .register 1 (some "ref /q"), .edit (.setFormula 2 (some "ref /s")),
      .register 2 (some "ref /s"), .openScope .updateGraph false, .edit (.rekey 1 (.name "s")),
      .edit (.rekey 2 (.name "r")), .closeScope .updateGraph] .descending hrun
  exact ⟨⟨e, hrun⟩, htree, allDefer_amendments, report, h, hpass,
    howed 2 haffected amendments allDefer_amendments .descending report h hpass hformula⟩

end Form

end LiveForm
