import LiveForm.Form.Load
import LiveForm.Proofs.Outcome

/-!
# What edits are put together from

Adding a field, adding an element, entering a value and loading definitions are put together from few things: changes of
the tree, reports to the graph, recomputations, scopes, and what is done when one of these fails. What holds of each of
them, and is passed on by the ways in which they are put together, holds of the edits.
-/

set_option autoImplicit false

namespace LiveForm

namespace FieldDef

variable {P : String → Prop}

mutual

/-- The keys of some definitions and of all those below them are as they should be. -/
def KeysAll (P : String → Prop) : List FieldDef → Prop
  | [] => True
  | d :: rest => KeysDeep P d ∧ KeysAll P rest

/-- The keys of a definition and of all those below it are as they should be. -/
def KeysDeep (P : String → Prop) : FieldDef → Prop
  | ⟨key, _, _, fields, template, _⟩ =>
    P key ∧ KeysAll P fields ∧
      match template with
      | none => True
      | some template => KeysAll P template

end

theorem keysDeep_iff {d : FieldDef} :
    KeysDeep P d ↔ P d.key ∧ KeysAll P d.fields ∧ ∀ template ∈ d.template, KeysAll P template := by
  obtain ⟨key, _, _, fields, template, _⟩ := d
  rw [KeysDeep.eq_def]
  cases template <;> simp

mutual

theorem keysAll_of_forall (h : ∀ s, P s) (defs : List FieldDef) : KeysAll P defs := by
  match defs with
  | [] => trivial
  | d :: rest => exact ⟨keysDeep_of_forall h d, keysAll_of_forall h rest⟩

theorem keysDeep_of_forall (h : ∀ s, P s) (d : FieldDef) : KeysDeep P d := by
  match d with
  | ⟨key, _, _, fields, template, _⟩ =>
    refine keysDeep_iff.2 ⟨h key, keysAll_of_forall h fields, ?_⟩
    match template with
    | none => simp
    | some template => simpa using keysAll_of_forall h template

end

end FieldDef

/-- Runs an operation. If it fails, another one is run to clean up, and it still fails. -/
def FormM.recovering {α : Type} (x : FormM α) (y : FormM Unit) : FormM α := fun f =>
  match x f with
  | .ok a f => .ok a f
  | .error e f =>
    match y f with
    | .ok () f => .error e f
    | .error e f => .error e f

theorem Preserves.recovering {Q : Form → Prop} {α : Type} {x : FormM α} {y : FormM Unit} (hx : Preserves Q x)
    (hy : Preserves Q y) : Preserves Q (FormM.recovering x y) := by
  intro f h
  have hends := hx f h
  unfold FormM.recovering
  split
  next hrun => exact hends.of_ok hrun
  next e g hrun =>
    have hcleaned := hy g (hends.of_error hrun)
    split
    next hclean => exact hcleaned.of_ok hclean
    next hclean => exact hcleaned.of_error hclean

namespace Form

theorem orUndo_eq {α : Type} (x : FormM α) (undo : Form → Form) :
    FormM.orUndo x undo = FormM.recovering x (FormM.update undo) := by
  funext f
  unfold FormM.orUndo FormM.recovering
  cases x f <;> rfl

theorem nodesAdded_eq (created : List NodeId) :
    nodesAdded created = FormM.recovering (created.forM nodeAdded) ((created.take 1).forM discardSubtree) := by
  funext f
  unfold nodesAdded FormM.recovering
  cases created.forM nodeAdded f <;> rfl

theorem copyIntoElements_cons (source : NodeId) (key : Step) (copies : List NodeId) (element : NodeId)
    (rest : List NodeId) : copyIntoElements source key copies (element :: rest) = (do
      let created ← FormM.onTree (·.copySubtree source element key)
      FormM.recovering (nodesAdded created) (copies.forM discardSubtree)
      copyIntoElements source key (copies ++ created.take 1) rest) := by
  rw [copyIntoElements]
  congr 1
  funext created f
  show _ = EStateM.bind (FormM.recovering (nodesAdded created) (copies.forM discardSubtree)) _ f
  unfold EStateM.bind FormM.recovering
  cases nodesAdded created f with
  | ok => rfl
  | error e g =>
    dsimp only
    cases copies.forM discardSubtree g <;> rfl

/-- Operations that are put together from changes of the tree, which bring in names that satisfy `P` only, from reports
to the graph and from recomputations. -/
inductive Composed (P : String → Prop) : {α : Type} → FormM α → Prop where
  | pure {α : Type} (a : α) : Composed P (Pure.pure a : FormM α)
  | throw {α : Type} (e : FormError) : Composed P (MonadExcept.throw e : FormM α)
  | bind {α β : Type} {x : FormM α} {k : α → FormM β} (hx : Composed P x) (hk : ∀ a, Composed P (k a)) :
    Composed P (x >>= k)
  /-- What is done depends on the form. -/
  | pick {α : Type} {x : FormM α} (y : Form → FormM α) (hy : ∀ f, Composed P (y f)) (hx : ∀ f, x f = y f f) :
    Composed P x
  | recovering {α : Type} {x : FormM α} {y : FormM Unit} (hx : Composed P x) (hy : Composed P y) :
    Composed P (FormM.recovering x y)
  | inScope {α : Type} {x : FormM α} (hx : Composed P x) (switch : Switch) (value : Bool) :
    Composed P (LiveForm.inScope switch value x)
  | insert {parent : NodeId} {key : Step} {kind : Kind} (hkey : ∀ s, key = .name s → P s) :
    Composed P (FormM.onTree (·.insert parent key kind))
  | insertTemplate (array : NodeId) : Composed P (FormM.onTree (·.insertTemplate array))
  | copySubtree {source parent : NodeId} {key : Step} (hkey : ∀ s, key = .name s → P s) :
    Composed P (FormM.onTree (·.copySubtree source parent key))
  | removeSubtree (id : NodeId) : Composed P (FormM.onTree (·.removeSubtree id))
  | dropSubtree (id : NodeId) : Composed P (FormM.update (·.dropSubtree id))
  | setFormula (id : NodeId) (formula : Option String) : Composed P (FormM.editTree (·.setFormula id formula))
  | setValue (id : NodeId) (value : Value) : Composed P (FormM.editTree (·.setValue id value))
  | register (node : NodeId) (expression : Option String) : Composed P (register node expression)
  | unregister (node : NodeId) : Composed P (unregister node)
  | valueChanged (node : NodeId) : Composed P (valueChanged node)
  | recomputePending : Composed P recomputePending

namespace Composed

variable {P : String → Prop} {α β : Type}

section Combining

/-- It is enough to know for each form what is done then. -/
theorem of_cases {x : FormM α} (h : ∀ f, ∃ y : FormM α, Composed P y ∧ x f = y f) : Composed P x :=
  pick (fun f => (h f).choose) (fun f => (h f).choose_spec.1) fun f => (h f).choose_spec.2

theorem get : Composed P (MonadState.get : FormM Form) :=
  pick (fun f => Pure.pure f) (fun f => pure f) fun _ => rfl

theorem discard {x : FormM α} (hx : Composed P x) : Composed P (discard x) :=
  bind hx fun _ => pure _

theorem forM {ι : Type} {body : ι → FormM PUnit} (h : ∀ a, Composed P (body a)) (l : List ι) :
    Composed P (l.forM body) := by
  induction l with
  | nil => exact pure _
  | cons a rest ih => exact bind (h a) fun _ => ih

theorem orDrop {x : FormM α} (hx : Composed P x) (id : NodeId) : Composed P (FormM.orUndo x (·.dropSubtree id)) := by
  rw [orUndo_eq]
  exact recovering hx (dropSubtree id)

theorem batch {x : FormM α} (hx : Composed P x) : Composed P (batch x) := by
  refine bind get fun f => bind (inScope hx _ _) fun a => ?_
  dsimp only
  split
  · exact bind (discard recomputePending) fun _ => pure a
  · exact pure a

end Combining

section Operations

variable {parent array : NodeId} {key : Step} {kind : Kind} {formula : Option String}

theorem resolve (path : String) : Composed P (resolve path) := by
  refine of_cases fun f => ?_
  unfold Form.resolve
  split
  · exact ⟨_, throw _, rfl⟩
  · split
    · exact ⟨_, pure _, rfl⟩
    · exact ⟨_, throw _, rfl⟩

theorem templateOf (array : NodeId) : Composed P (templateOf array) := by
  refine of_cases fun f => ?_
  unfold Form.templateOf
  split
  · exact ⟨_, pure _, rfl⟩
  · exact ⟨_, throw _, rfl⟩

theorem expectArray (id : NodeId) : Composed P (expectArray id) := by
  refine of_cases fun f => ?_
  unfold Form.expectArray
  split
  · exact ⟨_, pure _, rfl⟩
  · exact ⟨_, throw _, rfl⟩

theorem nodeAdded (id : NodeId) : Composed P (nodeAdded id) := by
  refine of_cases fun f => ?_
  unfold Form.nodeAdded
  split
  · exact ⟨_, pure _, rfl⟩
  · split
    · exact ⟨_, pure _, rfl⟩
    · exact ⟨_, register _ _, rfl⟩

theorem discardSubtree (id : NodeId) : Composed P (discardSubtree id) :=
  bind get fun _ => bind (forM unregister _) fun _ => discard (removeSubtree id)

theorem nodesAdded (created : List NodeId) : Composed P (nodesAdded created) := by
  rw [nodesAdded_eq]
  exact recovering (forM nodeAdded _) (forM discardSubtree _)

theorem insertNode (hkey : ∀ s, key = .name s → P s) : Composed P (insertNode parent key kind formula) := by
  refine bind get fun f => ?_
  dsimp only
  have hadd : Composed P (do
      let id ← FormM.onTree (·.insert parent key kind)
      if kind = .array then Functor.discard <| FormM.onTree (·.insertTemplate id)
      FormM.editTree (·.setFormula id formula)
      FormM.orUndo (Form.nodeAdded id) (·.dropSubtree id)
      return id : FormM NodeId) := by
    refine bind (insert hkey) fun id => ?_
    have hrest : Composed P (do
        FormM.editTree (·.setFormula id formula)
        FormM.orUndo (Form.nodeAdded id) (·.dropSubtree id)
        return id : FormM NodeId) :=
      bind (setFormula id formula) fun _ => bind (orDrop (nodeAdded id) id) fun _ => pure id
    dsimp only
    split
    · exact bind (discard (insertTemplate id)) fun _ => hrest
    · exact hrest
  split
  · exact bind (throw _) fun _ => hadd
  · exact hadd

theorem tryElement (array template : NodeId) : Composed P (tryElement array template) :=
  bind get fun _ => bind (copySubtree fun s hs => by cases hs) fun created =>
    bind (nodesAdded created) fun _ => forM discardSubtree _

theorem copyIntoElements {source : NodeId} (hkey : ∀ s, key = .name s → P s) (elements copies : List NodeId) :
    Composed P (copyIntoElements source key copies elements) := by
  induction elements generalizing copies with
  | nil => exact pure _
  | cons element rest ih =>
    rw [copyIntoElements_cons]
    exact bind (copySubtree hkey) fun created =>
      bind (recovering (nodesAdded created) (forM discardSubtree copies)) fun _ => ih (copies ++ created.take 1)

theorem extendArray (hkey : ∀ s, key = .name s → P s) : Composed P (extendArray array key kind formula) := by
  refine bind (templateOf array) fun template => batch (bind (insertNode hkey) fun id => ?_)
  refine bind get fun f => bind (orDrop ?_ id) fun _ => pure id
  split
  · exact tryElement array template
  · exact copyIntoElements hkey _ _

theorem addNode (hkey : ∀ s, key = .name s → P s) : Composed P (addNode parent key kind formula) := by
  refine of_cases fun f => ?_
  unfold Form.addNode
  split
  · exact ⟨_, throw _, rfl⟩
  · split
    · exact ⟨_, throw _, rfl⟩
    · exact ⟨_, extendArray hkey, rfl⟩
    · exact ⟨_, batch (insertNode hkey), rfl⟩

theorem pushElementAt (array : NodeId) : Composed P (pushElementAt array) := by
  refine bind (expectArray array) fun _ => bind (templateOf array) fun template => bind get fun f => batch ?_
  exact bind (copySubtree fun s hs => by cases hs) fun created => bind (nodesAdded created) fun _ => pure _

theorem setValueAt (id : NodeId) (value : Value) : Composed P (setValueAt id value) := by
  refine of_cases fun f => ?_
  unfold Form.setValueAt
  split
  · exact ⟨_, bind (setValue id value) fun _ => valueChanged id, rfl⟩
  · exact ⟨_, throw _, rfl⟩

theorem loadEntry (element : NodeId) (key : String) (value : Value) : Composed P (loadEntry element key value) := by
  refine bind get fun f => ?_
  dsimp only
  split
  · exact throw _
  · split
    · exact throw _
    · exact setValueAt _ _

theorem loadItem (array : NodeId) (item : Item) : Composed P (loadItem array item) :=
  bind (pushElementAt array) fun _ => forM (fun _ => loadEntry _ _ _) _

mutual

/-- Loading definitions brings in their keys only. -/
theorem loadAll (parent : NodeId) (defs : List FieldDef) (hkeys : FieldDef.KeysAll P defs) :
    Composed P (loadAll parent defs) := by
  match defs with
  | [] =>
    rw [Form.loadAll]
    exact pure _
  | d :: rest =>
    obtain ⟨hdeep, hrest⟩ := hkeys
    rw [Form.loadAll]
    exact bind (loadDef parent d hdeep) fun _ => loadAll parent rest hrest

theorem loadDef (parent : NodeId) (d : FieldDef) (hkeys : FieldDef.KeysDeep P d) : Composed P (loadDef parent d) := by
  match d with
  | ⟨key, value, formula, fields, template, items⟩ =>
    obtain ⟨hkey, hfields, htemplate⟩ := FieldDef.keysDeep_iff.1 hkeys
    rw [Form.loadDef]
    refine bind (addNode fun s hs => Step.name.inj hs ▸ hkey) fun id => bind ?_ fun _ => bind ?_ fun _ => ?_
    · cases value with
      | none => exact pure _
      | some value => exact setValueAt id value
    · exact loadAll id fields hfields
    · cases template with
      | none => exact pure _
      | some template =>
        exact bind (templateOf id) fun _ => bind (loadAll _ template (htemplate _ rfl)) fun _ => forM (loadItem _) _

end

theorem addField (path key : String) (kind : Kind) (formula : Option String) (hkey : P key) :
    Composed P (addField path key kind formula) :=
  bind (resolve path) fun _ => addNode fun _ hs => Step.name.inj hs ▸ hkey

theorem pushElement (path : String) : Composed P (pushElement path) :=
  bind (resolve path) fun _ => pushElementAt _

theorem setValueByPath (path : String) (value : Value) : Composed P (Form.setValue path value) :=
  bind (resolve path) fun _ => setValueAt _ value

end Operations

end Composed

end Form

end LiveForm
