import LiveForm.Proofs.Form.Composition
import LiveForm.Proofs.Form.Detachment
import Mathlib.Logic.Function.Basic

/-!
# Scopes of the schedule

A scope is closed however the code inside it ends, so code that opens scopes leaves the schedule as it found it, whether
it runs to its end or is left from within several scopes at once. In each scope a switch has the value of the innermost
scope that sets it, whatever is set for the other switch. No operation on a form changes the schedule in any other way.
-/

set_option autoImplicit false

namespace LiveForm

section Nesting

/-- Code that opens scopes and reads the switches. -/
inductive ScopeTree where
  /-- Nothing more is done. -/
  | done
  /-- The code is left early, from within all the scopes that it has opened. -/
  | leave
  /-- The switches are read. -/
  | read (rest : ScopeTree)
  /-- A scope is opened in which a switch has the given value. -/
  | scope (switch : Switch) (value : Bool) (inner rest : ScopeTree)
  /-- Other code is called. If that is left early, its caller goes on. -/
  | call (inner rest : ScopeTree)

/-- A form, and the values of the switches whenever they were read. -/
structure Watched where
  form : Form
  seen : List (Switch → Bool) := []

instance : Scheduled Watched where
  schedule w := w.form.schedule
  withSchedule w schedule := { w with form := Scheduled.withSchedule w.form schedule }

namespace ScopeTree

/-- Runs the code. It fails if it is left early. -/
def run : ScopeTree → EStateM Unit Watched Unit
  | done => pure ()
  | leave => throw ()
  | read rest => do
    modify fun w => { w with seen := w.seen ++ [w.form.isSet] }
    rest.run
  | scope switch value inner rest => do
    inScope switch value inner.run
    rest.run
  | call inner rest => do
    tryCatch inner.run fun _ => pure ()
    rest.run

/-- Whether the code runs to its end. -/
def completes : ScopeTree → Bool
  | done => true
  | leave => false
  | read rest => rest.completes
  | scope _ _ inner rest => inner.completes && rest.completes
  | call _ rest => rest.completes

/-- What is read where the switches have the given values around the code. -/
def reads : ScopeTree → (Switch → Bool) → List (Switch → Bool)
  | done, _ => []
  | leave, _ => []
  | read rest, values => values :: rest.reads values
  | scope switch value inner rest, values =>
    inner.reads (Function.update values switch value) ++ if inner.completes then rest.reads values else []
  | call inner rest, values => inner.reads values ++ rest.reads values

end ScopeTree

/-- In a scope the innermost value counts, and the other switch is as before. -/
theorem Schedule.isSet_push (s : Schedule) (switch : Switch) (value : Bool) :
    (s.push switch value).isSet = Function.update s.isSet switch value := by
  funext other
  cases switch <;> cases other <;> rfl

namespace ScopeTree

/-- What becomes of some code that has been run. -/
def outcome (t : ScopeTree) (w : Watched) : EStateM.Result Unit Watched Unit :=
  let left : Watched := { w with seen := w.seen ++ t.reads w.form.isSet }
  bif t.completes then .ok () left else .error () left

theorem outcome_of_completes {t : ScopeTree} {w : Watched} (h : t.completes = true) :
    t.outcome w = .ok () { w with seen := w.seen ++ t.reads w.form.isSet } := by
  simp [outcome, h]

theorem outcome_of_leaves {t : ScopeTree} {w : Watched} (h : t.completes = false) :
    t.outcome w = .error () { w with seen := w.seen ++ t.reads w.form.isSet } := by
  simp [outcome, h]

/-- Code in a scope reads the value of the scope, and leaves the form as it was, whether it runs to its end or not. -/
theorem inScope_eq {inner : ScopeTree} (ih : ∀ w, inner.run w = inner.outcome w) (switch : Switch) (value : Bool)
    (w : Watched) : inScope switch value inner.run w =
      let left : Watched := { w with seen := w.seen ++ inner.reads (Function.update w.form.isSet switch value) }
      bif inner.completes then .ok () left else .error () left := by
  have hvalues : Form.isSet { w.form with schedule := w.form.schedule.push switch value } =
      Function.update w.form.isSet switch value :=
    Schedule.isSet_push _ _ _
  simp only [inScope, Scheduled.withSchedule, Scheduled.schedule, ih, outcome, hvalues]
  cases inner.completes <;> simp only [cond_true, cond_false, Schedule.pop_push]

/-- By induction on the code: each scope hands the values that hold inside it to the code inside it, and what comes after
the scope finds the form as it was before. -/
theorem run_eq (t : ScopeTree) (w : Watched) : t.run w = t.outcome w := by
  induction t generalizing w with
  | done =>
    rw [outcome_of_completes rfl, reads, List.append_nil]
    rfl
  | leave =>
    rw [outcome_of_leaves rfl, reads, List.append_nil]
    rfl
  | read rest ih =>
    have hrun : (read rest).run w = rest.run { w with seen := w.seen ++ [w.form.isSet] } := rfl
    rw [hrun, ih]
    simp [outcome, reads, completes]
  | scope switch value inner rest ihi ihr =>
    have hinner := inScope_eq ihi switch value w
    rw [run]
    cases hc : inner.completes with
    | false =>
      simp only [hc, cond_false] at hinner
      rw [bind_of_error hinner, outcome_of_leaves (by simp [completes, hc])]
      simp [reads, hc]
    | true =>
      simp only [hc, cond_true] at hinner
      rw [bind_of_ok hinner, ihr]
      simp [outcome, reads, completes, hc]
  | call inner rest ihi ihr =>
    have hcalled : tryCatch inner.run (fun _ => pure ()) w =
        .ok () { w with seen := w.seen ++ inner.reads w.form.isSet } := by
      simp only [tryCatch, tryCatchThe, MonadExceptOf.tryCatch, EStateM.tryCatch, ihi, outcome]
      cases inner.completes <;> rfl
    rw [run, bind_of_ok hcalled, ihr]
    simp [outcome, reads, completes]

/-- The code is left from within two scopes, so neither of the reads that follow them takes place. -/
example : ((scope .recomputeEagerly false (read (scope .recomputeEagerly true (read leave) (read done))) (read done)).reads
    fun _ => true).map (fun values => (values .updateGraph, values .recomputeEagerly)) = [(true, false), (true, true)] :=
  rfl

end ScopeTree

end Nesting

namespace Form

section Keeping

variable {f : Form}

theorem schedule_foldl {ι : Type} {g : Form → ι → Form} (h : ∀ f i, (g f i).schedule = f.schedule) (l : List ι)
    (f : Form) : (l.foldl g f).schedule = f.schedule := by
  induction l generalizing f with
  | nil => rfl
  | cons i rest ih => exact (ih _).trans (h f i)

theorem schedule_unlinkAll (f : Form) (id : BindingId) (nodes : List NodeId) :
    (f.unlinkAll id nodes).schedule = f.schedule := by
  refine schedule_foldl (fun g node => ?_) nodes f
  rfl

theorem schedule_giveUp (f : Form) (node : NodeId) (id : BindingId) : (f.giveUp node id).schedule = f.schedule := by
  unfold giveUp
  split
  · rfl
  · exact schedule_unlinkAll _ _ _

theorem schedule_detach (f : Form) (node : NodeId) : (f.detach node).schedule = f.schedule := by
  unfold detach
  split
  · rfl
  · exact (schedule_foldl (fun g id => schedule_giveUp g node id) _ _).trans
      (schedule_foldl (fun _ _ => sameBeside_forget.schedule) _ _)

theorem schedule_linkFields (f : Form) (id : BindingId) : (f.linkFields id).schedule = f.schedule := by
  unfold linkFields
  split <;> rfl

theorem schedule_dropSubtree (f : Form) (id : NodeId) : (f.dropSubtree id).schedule = f.schedule := by
  unfold dropSubtree
  split <;> rfl

theorem schedule_evaluate (f : Form) (node : NodeId) : (f.evaluate node).2.schedule = f.schedule := by
  unfold evaluate
  split
  · rfl
  · split <;> rfl

theorem schedule_evaluateAll (f : Form) (nodes : List NodeId) : (f.evaluateAll nodes).2.schedule = f.schedule := by
  unfold evaluateAll
  generalize ({} : Report) = report
  induction nodes generalizing f report with
  | nil => rfl
  | cons node rest ih => exact (ih _ _).trans (schedule_evaluate f node)

end Keeping

/-- An operation leaves the schedule as it found it, whether it returns or fails. -/
def Balanced {α : Type} (x : FormM α) : Prop :=
  ∀ s, Preserves (fun f => f.schedule = s) x

namespace Balanced

variable {α β : Type}

section Combining

theorem of_ends {x : FormM α}
    (h : ∀ f, Ends (x f) (fun _ g => g.schedule = f.schedule) fun _ g => g.schedule = f.schedule) : Balanced x := by
  rintro _ f rfl
  exact h f

theorem ends {x : FormM α} (hx : Balanced x) (f : Form) :
    Ends (x f) (fun _ g => g.schedule = f.schedule) fun _ g => g.schedule = f.schedule :=
  hx _ f rfl

/-- It is enough to know for each form what is done then. -/
theorem of_cases {x : FormM α} (y : Form → FormM α) (hy : ∀ f, Balanced (y f)) (hx : ∀ f, x f = y f f) :
    Balanced x :=
  of_ends fun f => hx f ▸ (hy f).ends f

theorem pure (a : α) : Balanced (Pure.pure a) :=
  fun _ => .pure a

theorem throw (e : FormError) : Balanced (MonadExcept.throw e : FormM α) :=
  fun _ _ h => h

theorem get : Balanced (MonadState.get : FormM Form) :=
  fun _ _ h => h

theorem bind {x : FormM α} {k : α → FormM β} (hx : Balanced x) (hk : ∀ a, Balanced (k a)) : Balanced (x >>= k) :=
  fun s => .bind (hx s) fun a => hk a s

theorem discard {x : FormM α} (hx : Balanced x) : Balanced (discard x) :=
  fun s => .discard (hx s)

theorem forM {ι : Type} {body : ι → FormM PUnit} (h : ∀ a, Balanced (body a)) (l : List ι) : Balanced (l.forM body) :=
  fun s => .forM (fun a => h a s) l

theorem update {g : Form → Form} (h : ∀ f, (g f).schedule = f.schedule) : Balanced (FormM.update g) :=
  fun _ => FormM.preserves_update fun f hf => (h f).trans hf

theorem onTree (action : FieldTree → Except FormError (α × FieldTree)) : Balanced (FormM.onTree action) :=
  of_ends fun _ => FormM.ends_onTree (fun _ _ _ => rfl) fun _ _ => rfl

theorem onRegistry (action : EStateM FormError Registry α) : Balanced (FormM.onRegistry action) := by
  refine of_ends fun f => ?_
  unfold FormM.onRegistry
  cases action f.registry <;> rfl

theorem recovering {x : FormM α} {y : FormM Unit} (hx : Balanced x) (hy : Balanced y) :
    Balanced (FormM.recovering x y) :=
  fun s => .recovering (hx s) (hy s)

theorem orUndo {x : FormM α} (hx : Balanced x) {undo : Form → Form} (hundo : ∀ f, (undo f).schedule = f.schedule) :
    Balanced (FormM.orUndo x undo) := by
  rw [orUndo_eq]
  exact recovering hx (update hundo)

/-- A scope takes back the value that it has set, however the code inside it ends. -/
theorem inScope {x : FormM α} (hx : Balanced x) (switch : Switch) (value : Bool) :
    Balanced (LiveForm.inScope switch value x) := by
  have hclosed {f g : Form} (hg : g.schedule = f.schedule.push switch value) : g.schedule.pop switch = f.schedule := by
    rw [hg, Schedule.pop_push]
  exact of_ends fun f => ends_inScope ((hx.ends _).mono (fun _ _ => hclosed) fun _ _ => hclosed)

theorem whenUpdating {x : FormM Unit} (hx : Balanced x) : Balanced (whenUpdating x) := by
  refine of_ends fun f => ?_
  unfold Form.whenUpdating
  split
  · exact hx.ends f
  · exact rfl

end Combining

section Following

theorem levels : Balanced levels := by
  refine of_ends fun f => ?_
  rw [levels_eq]
  split
  · exact rfl
  · split <;> exact rfl

theorem link (id : BindingId) (field : NodeId) : Balanced (link id field) := by
  refine of_ends fun f => ?_
  unfold Form.link
  dsimp only
  split <;> exact rfl

theorem syncBy (order : VisitOrder) (mode : Refresh) (id : BindingId) : Balanced (syncBy order mode id) := by
  refine of_ends fun f => ?_
  unfold Form.syncBy
  split
  · exact rfl
  · exact forM (link id) _ _ _ (schedule_foldl (fun _ _ => sameBeside_unlink.schedule) _ f)

theorem evaluateAffected (order : VisitOrder) (affected : NodeSet) : Balanced (evaluateAffected order affected) := by
  refine of_ends fun f => ?_
  unfold Form.evaluateAffected
  dsimp only
  have hlevels := levels.ends f.clearPending
  split
  next hrun =>
    have hkept := hlevels.of_error hrun
    exact hkept
  next hrun => exact (schedule_evaluateAll _ _).trans (hlevels.of_ok hrun)

theorem recomputePendingBy (order : VisitOrder) : Balanced (recomputePendingBy order) := by
  refine of_ends fun f => ?_
  unfold Form.recomputePendingBy
  split
  · exact rfl
  · dsimp only
    have hsynced := (forM (syncBy order f.cacheRefresh)
      (order.bindings (f.bindingsUsed (f.affected f.seeds)).toList)).ends f.clearPending
    split
    next hrun =>
      have hkept := hsynced.of_error hrun
      exact hkept
    next hrun => exact evaluateAffected order (f.affected f.seeds) _ _ (hsynced.of_ok hrun)

theorem recomputePending : Balanced recomputePending :=
  recomputePendingBy .ascending

theorem settle : Balanced settle := by
  refine of_ends fun f => ?_
  unfold Form.settle
  split
  · exact (discard recomputePending).ends f
  · exact rfl

theorem valueChanged (node : NodeId) : Balanced (valueChanged node) := by
  refine bind (update fun f => ?_) fun _ => settle
  split <;> rfl

end Following

section Reporting

theorem connect (node : NodeId) (bindings : List BindingId) : Balanced (connect node bindings) := by
  refine bind (forM (fun id => bind (of_ends fun f => ?_) fun _ => syncBy _ _ id) bindings) fun _ => update fun _ => rfl
  unfold refuseCircle
  dsimp only
  split <;> exact rfl

theorem attachFormula (node : NodeId) (expression : String) : Balanced (attachFormula node expression) :=
  bind get fun _ => bind (onRegistry _) fun formula => bind (update fun _ => rfl) fun _ =>
    orUndo (connect node formula.bindings) fun f => schedule_detach f node

theorem linkOnce (node : NodeId) (id : BindingId) : Balanced (linkOnce node id) := by
  refine of_ends fun f => ?_
  unfold Form.linkOnce
  split
  · exact rfl
  · exact (orUndo (link id node) fun f => schedule_detach f node).ends f

theorem attach (node : NodeId) (expression : Option String) : Balanced (attach node expression) := by
  have haction : Balanced (do
      expression.forM (Form.attachFormula node)
      let f ← MonadState.get
      (f.registry.accepting f.tree node).forM (Form.linkOnce node)
      FormM.update (·.prune node) : FormM Unit) := by
    refine bind ?_ fun _ => bind get fun _ => bind (forM (linkOnce node) _) fun _ => update fun _ => rfl
    cases expression with
    | none => exact pure _
    | some expression => exact attachFormula node expression
  refine of_ends fun f => ?_
  unfold Form.attach
  split
  · exact rfl
  · split
    · exact rfl
    · have hattached := haction.ends (if (f.graph.formula? node).isSome then f.detach node else f)
      have hdetached : (if (f.graph.formula? node).isSome then f.detach node else f).schedule = f.schedule := by
        split
        · exact schedule_detach f node
        · rfl
      rw [hdetached] at hattached
      exact hattached

theorem register (node : NodeId) (expression : Option String) : Balanced (register node expression) :=
  whenUpdating (bind (attach node expression) fun _ => settle)

theorem unregister (node : NodeId) : Balanced (unregister node) :=
  whenUpdating (bind (update fun f => schedule_detach f node) fun _ => settle)

theorem relinkFormula (node : NodeId) : Balanced (relinkFormula node) := by
  refine of_ends fun f => ?_
  unfold Form.relinkFormula
  split
  · exact rfl
  · refine bind (forM (syncBy _ _) _) (fun _ => update fun g => ?_) _ f rfl
    rfl

theorem relinkNode (node : NodeId) : Balanced (relinkNode node) := by
  refine of_ends fun f => ?_
  unfold Form.relinkNode
  exact forM (link · node) _ _ _ (schedule_foldl (fun _ _ => sameBeside_unlink.schedule) _ f)

theorem relink (node : NodeId) : Balanced (relink node) := by
  refine of_ends fun f => ?_
  unfold Form.relink
  split
  · exact rfl
  · refine bind (relinkFormula node) (fun _ => bind (relinkNode node) fun _ => update fun g => ?_) _ f rfl
    rfl

theorem rename (old : Path) (node : NodeId) : Balanced (rename old node) := by
  have hmoved : Balanced (moveBindings old node) := by
    refine whenUpdating (update fun f => ?_)
    rfl
  exact bind hmoved fun _ => whenUpdating (bind (relink node) fun _ => settle)

theorem addFormula (node : NodeId) (expression : String) : Balanced (addFormula node expression) := by
  refine bind get fun _ => bind (onRegistry _) fun formula => update fun f => ?_
  rfl

theorem derive : Balanced derive := by
  unfold Form.derive
  refine bind (update fun f => ?_) fun _ => bind get fun f => bind (forM (fun anchor => addFormula _ _) _) fun _ =>
    bind (update fun f => schedule_foldl schedule_linkFields _ f) fun _ =>
      bind (update fun f => schedule_foldl (fun g node => ?_) _ f) fun _ => discard levels
  · rfl
  · rfl

theorem rebuild : Balanced rebuild := by
  have hclear (f : Form) : f.clear.schedule = f.schedule := rfl
  exact bind (update hclear) fun _ => bind (orUndo derive hclear) fun _ => discard recomputePending

end Reporting

section Editing

/-- All that additions are put together from leaves the schedule as it found it. -/
theorem of_composed {x : FormM α} (hx : Composed (fun _ => True) x) : Balanced x := by
  induction hx with
  | pure a => exact pure a
  | throw e => exact throw e
  | bind _ _ ihx ihk => exact bind ihx ihk
  | pick y _ hx ihy => exact of_cases y ihy hx
  | recovering _ _ ihx ihy => exact recovering ihx ihy
  | inScope _ switch value ihx => exact inScope ihx switch value
  | insert | insertTemplate | copySubtree | removeSubtree | setFormula | setValue => exact onTree _
  | dropSubtree id => exact update fun f => schedule_dropSubtree f id
  | register node expression => exact register node expression
  | unregister node => exact unregister node
  | valueChanged node => exact valueChanged node
  | recomputePending => exact recomputePending

theorem renameSubtree (id : NodeId) (key : Step) : Balanced (renameSubtree id key) :=
  bind get fun _ => bind (discard (onTree _)) fun _ => forM (fun ⟨node, old⟩ => rename old node) _

theorem batch {x : FormM α} (hx : Balanced x) : Balanced (batch x) := by
  refine bind get fun f => bind (inScope hx _ _) fun a => ?_
  dsimp only
  split
  · exact bind (discard recomputePending) fun _ => pure a
  · exact pure a

theorem removeElement (path : String) (index : UInt64) : Balanced (removeElement path index) := by
  unfold Form.removeElement
  refine bind (of_composed (.resolve path)) fun array =>
    bind (of_composed (.expectArray array)) fun _ => bind get fun f => ?_
  split
  · exact throw _
  next element _ =>
    refine batch (bind (of_composed (.discardSubtree element)) fun _ => bind get fun g => ?_)
    exact forM (fun ⟨i, id⟩ => renameSubtree id (.index (i - 1))) _

/-- Loading definitions, whatever they are. -/
theorem loadAll (parent : NodeId) (defs : List FieldDef) : Balanced (loadAll parent defs) :=
  of_composed (.loadAll parent defs (FieldDef.keysAll_of_forall (fun _ => trivial) defs))

theorem load (document : Document) : Balanced (load document) := by
  unfold Form.load
  split
  · exact throw _
  · exact bind (inScope (loadAll rootId document.fields) _ _) fun _ => rebuild

theorem schedule_after {x : FormM α} (hx : Balanced x) (f : Form) : (after x f).schedule = f.schedule :=
  (hx.ends f).after

end Editing

end Balanced

/-- Scopes may be nested in any way, and left in any way: what is read in a scope is what the innermost scope of each
switch sets, and in the end the form, with both stacks of its schedule, is what it was. No operation on a form leaves
anything in these stacks or takes anything out of them, whatever the form is like, and wherever the operation fails. -/
theorem schedule_restored :
    (∀ (t : ScopeTree) (w : Watched), (after t.run w).form = w.form ∧
      (after t.run w).seen = w.seen ++ t.reads w.form.isSet ∧ succeeds (t.run w) = t.completes) ∧
    ∀ f : Form,
      (∀ parent key kind formula, (after (addField parent key kind formula) f).schedule = f.schedule) ∧
      (∀ path, (after (pushElement path) f).schedule = f.schedule) ∧
      (∀ path index, (after (removeElement path index) f).schedule = f.schedule) ∧
      (∀ path value, (after (setValue path value) f).schedule = f.schedule) ∧
      (∀ path, (after (clearOverride path) f).schedule = f.schedule) ∧
      (∀ document : Document,
        (after (inScope .updateGraph false (loadAll rootId document.fields)) f).schedule = f.schedule ∧
        (after (load document) f).schedule = f.schedule) := by
  refine ⟨fun t w => ?_, fun f => ⟨?_, ?_, ?_, ?_, ?_, ?_⟩⟩
  · unfold after
    rw [t.run_eq w, ScopeTree.outcome]
    cases t.completes <;> exact ⟨rfl, rfl, rfl⟩
  · intro parent key kind formula
    exact (Balanced.of_composed (.addField parent key kind formula trivial)).schedule_after f
  · intro path
    exact (Balanced.of_composed (.pushElement path)).schedule_after f
  · intro path index
    exact (Balanced.removeElement path index).schedule_after f
  · intro path value
    exact (Balanced.of_composed (.setValueByPath path value)).schedule_after f
  · intro path
    exact (Balanced.of_composed (.setValueByPath path .void)).schedule_after f
  · intro document
    exact ⟨((Balanced.loadAll rootId document.fields).inScope _ _).schedule_after f,
      (Balanced.load document).schedule_after f⟩

end Form

end LiveForm
