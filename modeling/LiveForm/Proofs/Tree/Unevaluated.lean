import LiveForm.Proofs.Tree.Blank
import LiveForm.Proofs.Tree.Intact

/-!
# Trees before their formulas are evaluated

Evaluating formulas stores values at the fields outside templates that have a formula. Without these values two trees are
compared more closely than by `FieldTree.blank`, which takes out the values of all nodes. Nothing that is asked of a tree
depends on them, and all changes of a tree but the evaluation itself leave them alone.
-/

set_option autoImplicit false

namespace LiveForm

/-- The data of a node before its formula is evaluated. In a template it never is. -/
def Node.unevaluated (inTemplate : Bool) (n : Node) : Node :=
  if inTemplate || n.formula.isNone then n else n.blank

/-- A forest before its formulas are evaluated. The argument says whether it stands in a template. -/
def Forest.unevaluated (inTemplate : Bool) : Forest → Forest
  | nil => nil
  | cons id key node children siblings =>
    let within := inTemplate || node.isTemplate
    cons id key (node.unevaluated within) (children.unevaluated within) (siblings.unevaluated inTemplate)

/-- A place before the formulas are evaluated. -/
def Located.unevaluated (l : Located) : Located :=
  { l with node := l.node.unevaluated l.inTemplate, children := l.children.unevaluated l.inTemplate }

/-- The same for a place without what is below it. -/
def Place.unevaluated (p : Place) : Place :=
  { p with node := p.node.unevaluated p.inTemplate }

/-- A tree before its formulas are evaluated. -/
def FieldTree.unevaluated (t : FieldTree) : FieldTree :=
  { t with root := t.root.unevaluated t.root.isTemplate, fields := t.fields.unevaluated t.root.isTemplate }

namespace Node

variable {inTemplate : Bool} {n : Node}

@[simp]
theorem blank_unevaluated (inTemplate : Bool) (n : Node) : (n.unevaluated inTemplate).blank = n.blank := by
  unfold unevaluated
  split <;> rfl

@[simp]
theorem kind_unevaluated (inTemplate : Bool) (n : Node) : (n.unevaluated inTemplate).kind = n.kind :=
  show (n.unevaluated inTemplate).blank.kind = n.blank.kind by rw [blank_unevaluated]

@[simp]
theorem isTemplate_unevaluated (inTemplate : Bool) (n : Node) : (n.unevaluated inTemplate).isTemplate = n.isTemplate :=
  show (n.unevaluated inTemplate).blank.isTemplate = n.blank.isTemplate by rw [blank_unevaluated]

@[simp]
theorem formula_unevaluated (inTemplate : Bool) (n : Node) : (n.unevaluated inTemplate).formula = n.formula :=
  show (n.unevaluated inTemplate).blank.formula = n.blank.formula by rw [blank_unevaluated]

@[simp]
theorem forCopy_unevaluated (inTemplate : Bool) (n : Node) : (n.unevaluated inTemplate).forCopy = n.forCopy :=
  blank_unevaluated inTemplate n

/-- A node that has not been evaluated stays as it is. -/
theorem unevaluated_of_blank (h : n.blank = n) : n.unevaluated inTemplate = n := by
  unfold unevaluated
  split
  · rfl
  · exact h

/-- A change of the value that a user has entered. -/
theorem unevaluated_entered (inTemplate : Bool) (value : Value) (n : Node) :
    ({ n with value } : Node).unevaluated inTemplate = { n.unevaluated inTemplate with value } := by
  unfold unevaluated
  split <;> rfl

end Node

/-- Nothing is evaluated in a template, or where there is no formula. -/
theorem Place.unevaluated_of_off {p : Place} (h : p.inTemplate = true ∨ p.node.formula = none) : p.unevaluated = p := by
  have hoff : (p.inTemplate || p.node.formula.isNone) = true := by
    rcases h with h | h <;> simp [h]
  unfold Place.unevaluated Node.unevaluated
  rw [if_pos hoff]

namespace Forest

variable {inTemplate : Bool} {new : Forest} {target parent : NodeId} {key : Step}

theorem blank_unevaluated (inTemplate : Bool) (f : Forest) : (f.unevaluated inTemplate).blank = f.blank := by
  induction f generalizing inTemplate with
  | nil => rfl
  | cons id key node children siblings ihc ihs => simp [unevaluated, blank, ihc, ihs]

/-- A forest that has not been evaluated stays as it is. -/
theorem unevaluated_of_blank {f : Forest} (h : f.blank = f) : f.unevaluated inTemplate = f := by
  induction f generalizing inTemplate with
  | nil => rfl
  | cons id key node children siblings ihc ihs =>
    simp only [blank, cons.injEq, true_and] at h
    simp only [unevaluated, Node.unevaluated_of_blank h.1, ihc h.2.1, ihs h.2.2]

theorem heads_unevaluated (inTemplate : Bool) (f : Forest) : (f.unevaluated inTemplate).heads =
    f.heads.map fun c => { c with node := c.node.unevaluated (inTemplate || c.node.isTemplate) } := by
  induction f with
  | nil => rfl
  | cons id key node children siblings _ ihs => simp [unevaluated, heads, ihs]

theorem ids_unevaluated (inTemplate : Bool) (f : Forest) : (f.unevaluated inTemplate).ids = f.ids := by
  rw [← ids_blank, blank_unevaluated, ids_blank]

theorem postorder_unevaluated (inTemplate : Bool) (f : Forest) :
    (f.unevaluated inTemplate).postorder = f.postorder := by
  induction f generalizing inTemplate with
  | nil => rfl
  | cons id key node children siblings ihc ihs => simp [unevaluated, postorder, ihc, ihs]

theorem ids_heads_unevaluated (inTemplate : Bool) (f : Forest) :
    (f.unevaluated inTemplate).heads.map Child.id = f.heads.map Child.id := by
  rw [heads_unevaluated, List.map_map]
  rfl

theorem copyOrder_unevaluated (inTemplate : Bool) (f : Forest) :
    (f.unevaluated inTemplate).copyOrder = f.copyOrder := by
  have hbelow : (f.unevaluated inTemplate).copyOrderBelow = f.copyOrderBelow := by
    induction f generalizing inTemplate with
    | nil => rfl
    | cons id key node children siblings ihc ihs =>
      simp only [unevaluated, copyOrderBelow, ihc, ihs, ids_heads_unevaluated]
  rw [copyOrder, copyOrder, hbelow, ids_heads_unevaluated]

theorem childByKey?_unevaluated (inTemplate : Bool) (f : Forest) :
    (f.unevaluated inTemplate).childByKey? key = f.childByKey? key := by
  induction f with
  | nil => rfl
  | cons id k node children siblings _ ihs => simp only [unevaluated, childByKey?, ihs]

theorem find?_unevaluated (inTemplate : Bool) (f : Forest) (steps : List Step) :
    (f.unevaluated inTemplate).find? steps = f.find? steps := by
  induction f generalizing inTemplate steps with
  | nil => rfl
  | cons id k node children siblings ihc ihs =>
    cases steps with
    | nil => rfl
    | cons step rest => simp only [unevaluated, find?, ihc, ihs]

theorem matching_unevaluated (inTemplate : Bool) (f : Forest) (pattern : List PatternStep) :
    (f.unevaluated inTemplate).matching pattern = f.matching pattern := by
  induction f generalizing inTemplate pattern with
  | nil => simp [unevaluated, matching]
  | cons id k node children siblings ihc ihs =>
    cases pattern with
    | nil => simp [unevaluated, matching]
    | cons part pattern => simp [unevaluated, matching, ihc, ihs]

theorem locate?_unevaluated (above : Path) (inTemplate : Bool) (f : Forest) :
    (f.unevaluated inTemplate).locate? target parent above inTemplate =
      (f.locate? target parent above inTemplate).map Located.unevaluated := by
  induction f generalizing parent above inTemplate with
  | nil => rfl
  | cons id k node children siblings ihc ihs =>
    simp only [unevaluated, locate?, Node.isTemplate_unevaluated]
    split
    · rfl
    · rw [ihc, ihs, Option.map_or]

theorem located_unevaluated (above : Path) (inTemplate : Bool) (f : Forest) :
    (f.unevaluated inTemplate).located parent above inTemplate =
      (f.located parent above inTemplate).map Located.unevaluated := by
  induction f generalizing parent above inTemplate with
  | nil => rfl
  | cons id k node children siblings ihc ihs =>
    simp [unevaluated, located, ihc, ihs, Located.unevaluated]

theorem unevaluated_append (hnew : new.blank = new) (inTemplate : Bool) (f : Forest) :
    (f.append new).unevaluated inTemplate = (f.unevaluated inTemplate).append new := by
  induction f with
  | nil => exact unevaluated_of_blank hnew
  | cons id k node children siblings _ ihs => simp only [append, unevaluated, ihs]

theorem unevaluated_graft (hnew : new.blank = new) (inTemplate : Bool) (f : Forest) :
    (f.graft target new).unevaluated inTemplate = (f.unevaluated inTemplate).graft target new := by
  induction f generalizing inTemplate with
  | nil => rfl
  | cons id k node children siblings ihc ihs =>
    simp only [graft, unevaluated, ihs]
    split <;> simp only [unevaluated_append hnew, ihc]

theorem unevaluated_erase (inTemplate : Bool) (f : Forest) :
    (f.erase target).unevaluated inTemplate = (f.unevaluated inTemplate).erase target := by
  induction f generalizing inTemplate with
  | nil => rfl
  | cons id k node children siblings ihc ihs =>
    simp only [erase, unevaluated]
    split <;> simp only [unevaluated, ihc, ihs]

theorem unevaluated_rekey (inTemplate : Bool) (f : Forest) :
    (f.rekey target key).unevaluated inTemplate = (f.unevaluated inTemplate).rekey target key := by
  induction f generalizing inTemplate with
  | nil => rfl
  | cons id k node children siblings ihc ihs => simp only [rekey, unevaluated, ihc, ihs]

theorem unevaluated_enter (inTemplate : Bool) (value : Value) (f : Forest) :
    (f.modify target fun n => { n with value }).unevaluated inTemplate =
      (f.unevaluated inTemplate).modify target fun n => { n with value } := by
  induction f generalizing inTemplate with
  | nil => rfl
  | cons id k node children siblings ihc ihs =>
    simp only [modify, unevaluated, ihs]
    split <;> simp only [ihc, Node.unevaluated_entered]

/-- A copy has not been evaluated. -/
theorem blank_copy (rename : NodeId → NodeId) (f : Forest) : (f.copy rename).blank = f.copy rename := by
  induction f with
  | nil => rfl
  | cons id k node children siblings ihc ihs => simp [copy, blank, ihc, ihs, Node.blank, Node.forCopy]

theorem copy_unevaluated (rename : NodeId → NodeId) (inTemplate : Bool) (f : Forest) :
    (f.unevaluated inTemplate).copy rename = f.copy rename := by
  induction f generalizing inTemplate with
  | nil => rfl
  | cons id k node children siblings ihc ihs => simp [unevaluated, copy, ihc, ihs]

end Forest

namespace FieldTree

variable {t t' : FieldTree} {id parent source : NodeId} {key : Step} {new : Forest}

theorem blank_unevaluated (t : FieldTree) : t.unevaluated.blank = t.blank := by
  simp only [unevaluated, blank, Node.blank_unevaluated, Forest.blank_unevaluated]

theorem blank_of_unevaluated (h : t'.unevaluated = t.unevaluated) : t'.blank = t.blank := by
  rw [← blank_unevaluated, h, blank_unevaluated]

/-- What does not depend on the values of formulas is the same for trees that differ in these only. -/
theorem query_eq {β : Type} (query : FieldTree → β) (hquery : ∀ t : FieldTree, query t.unevaluated = query t)
    (h : t'.unevaluated = t.unevaluated) : query t' = query t := by
  rw [← hquery t', h, hquery]

section Queries

theorem locate?_unevaluated (t : FieldTree) (id : NodeId) :
    t.unevaluated.locate? id = (t.locate? id).map Located.unevaluated := by
  have hroot : t.unevaluated.root.isTemplate = t.root.isTemplate := Node.isTemplate_unevaluated _ _
  unfold locate?
  split
  · simp only [Option.map_some, locatedRoot, hroot]
    rfl
  · rw [hroot]
    exact Forest.locate?_unevaluated _ _ _

theorem located_unevaluated (t : FieldTree) : t.unevaluated.located = t.located.map Located.unevaluated := by
  have hroot : t.unevaluated.root.isTemplate = t.root.isTemplate := Node.isTemplate_unevaluated _ _
  unfold located
  rw [List.map_cons, hroot]
  refine congrArg₂ _ ?_ (Forest.located_unevaluated _ _ _)
  simp only [locatedRoot, hroot]
  rfl

theorem kind_unevaluated (t : FieldTree) (id : NodeId) :
    (t.unevaluated.get? id).map (·.kind) = (t.get? id).map (·.kind) := by
  unfold get?
  rw [locate?_unevaluated]
  cases t.locate? id <;> simp [Located.unevaluated]

theorem inTemplate_unevaluated (t : FieldTree) (id : NodeId) : t.unevaluated.inTemplate id = t.inTemplate id := by
  unfold inTemplate
  rw [locate?_unevaluated]
  cases t.locate? id <;> rfl

theorem childByKey?_unevaluated (t : FieldTree) (parent : NodeId) (key : Step) :
    t.unevaluated.childByKey? parent key = t.childByKey? parent key := by
  unfold childByKey?
  rw [locate?_unevaluated]
  cases t.locate? parent with
  | none => rfl
  | some l => exact Forest.childByKey?_unevaluated _ _

theorem find?_unevaluated (t : FieldTree) (p : Path) : t.unevaluated.find? p = t.find? p := by
  unfold find?
  split
  · rfl
  · exact Forest.find?_unevaluated _ _ _

theorem template?_unevaluated (t : FieldTree) (array : NodeId) : t.unevaluated.template? array = t.template? array := by
  unfold template? children
  rw [locate?_unevaluated]
  cases t.locate? array with
  | none => rfl
  | some l =>
    have htemplate : ((fun c : Child => c.node.isTemplate) ∘ fun c : Child =>
        { c with node := c.node.unevaluated (l.inTemplate || c.node.isTemplate) }) = fun c => c.node.isTemplate :=
      funext fun c => Node.isTemplate_unevaluated _ _
    simp only [Option.map_some, Option.getD_some, Located.unevaluated, Forest.heads_unevaluated, List.find?_map,
      Option.map_map, htemplate]
    rfl

theorem preorderFrom_unevaluated (t : FieldTree) (id : NodeId) : t.unevaluated.preorderFrom id = t.preorderFrom id := by
  unfold preorderFrom
  rw [locate?_unevaluated]
  cases t.locate? id with
  | none => rfl
  | some l => simp only [Option.map_some, Located.unevaluated, Forest.ids_unevaluated]

theorem postorderFrom_unevaluated (t : FieldTree) (id : NodeId) :
    t.unevaluated.postorderFrom id = t.postorderFrom id := by
  unfold postorderFrom
  rw [locate?_unevaluated]
  cases t.locate? id with
  | none => rfl
  | some l => simp only [Option.map_some, Located.unevaluated, Forest.postorder_unevaluated]

theorem checkInsert_unevaluated (t : FieldTree) (parent : NodeId) (key : Step) :
    t.unevaluated.checkInsert parent key = t.checkInsert parent key := by
  unfold checkInsert require
  rw [locate?_unevaluated]
  cases t.locate? parent with
  | none => rfl
  | some l =>
    simp only [Option.map_some, Located.unevaluated, Node.kind_unevaluated, bind, Except.bind,
      Forest.childByKey?_unevaluated]

theorem path_unevaluated (t : FieldTree) (id : NodeId) : t.unevaluated.path id = t.path id :=
  path_of_blank (blank_unevaluated t) id

theorem contains_unevaluated (t : FieldTree) (id : NodeId) : t.unevaluated.contains id = t.contains id :=
  contains_of_blank (blank_unevaluated t) id

theorem elements_unevaluated (t : FieldTree) (array : NodeId) : t.unevaluated.elements array = t.elements array :=
  elements_of_blank (blank_unevaluated t) array

theorem place?_unevaluated (t : FieldTree) (id : NodeId) :
    t.unevaluated.place? id = (t.place? id).map Place.unevaluated := by
  unfold place?
  rw [locate?_unevaluated]
  cases t.locate? id <;> rfl

end Queries

/-- If only formulas outside templates have been evaluated, the trees are the same before that. -/
theorem unevaluated_eq (ht : t.Keyed) (hblank : t'.blank = t.blank)
    (hothers : ∀ x p, t.place? x = some p → p.inTemplate = true ∨ p.node.formula = none → t'.place? x = some p) :
    t'.unevaluated = t.unevaluated := by
  have hids : t.unevaluated.fields.ids = t.fields.ids := Forest.ids_unevaluated _ _
  refine eq_of_blank (hids ▸ ht.nodup) (fun hmem => ht.ne_root _ (hids ▸ hmem) rfl)
    (by rw [blank_unevaluated, blank_unevaluated, hblank]) fun x => ?_
  rw [get?_eq, get?_eq, place?_unevaluated, place?_unevaluated, Option.map_map, Option.map_map]
  cases hp : t.place? x with
  | none =>
    have hnone : t'.place? x = none := by
      have hx := contains_of_blank hblank x
      rwa [contains_eq, contains_eq, hp, Option.isSome_none, Option.isSome_eq_false_iff, Option.isNone_iff_eq_none] at hx
    rw [hnone]
  | some p =>
    by_cases hoff : p.inTemplate = true ∨ p.node.formula = none
    · rw [hothers x p hp hoff]
    · rw [not_or, Bool.not_eq_true] at hoff
      obtain ⟨p', hp', hpp⟩ := place?_of_blank hblank hp
      obtain ⟨-, hin, -, -, hformula⟩ := Place.blank_eq hpp
      have hsome : p.node.formula.isNone = false := by
        rw [Option.isNone_eq_false_iff, Option.isSome_iff_ne_none]
        exact hoff.2
      have hnode : p'.node.blank = p.node.blank := congrArg Place.node hpp
      simp [hp', Place.unevaluated, Node.unevaluated, hin, hformula, hoff.1, hsome, hnode]

section Changes

theorem unevaluated_graft (hnew : new.blank = new) (t : FieldTree) (parent : NodeId) :
    (t.graft parent new).unevaluated = t.unevaluated.graft parent new := by
  unfold FieldTree.graft
  split
  · simp only [unevaluated, Forest.unevaluated_append hnew]
  · simp only [unevaluated, Forest.unevaluated_graft hnew]

theorem unevaluated_without (t : FieldTree) (id : NodeId) : (t.without id).unevaluated = t.unevaluated.without id := by
  simp only [unevaluated, without, Forest.unevaluated_erase]

theorem unevaluated_withNew (t : FieldTree) (parent : NodeId) (key : Step) (kind : Kind) (formula : Option String) :
    (t.withNew parent key kind formula).unevaluated = t.unevaluated.withNew parent key kind formula := by
  have hnew : (newNode t.next key kind formula).blank = newNode t.next key kind formula := by
    unfold newNode
    split <;> rfl
  have hgraft := congrArg (·.withNext (if kind = .array then t.next + 2 else t.next + 1))
    (unevaluated_graft hnew t parent)
  exact hgraft

/-- An operation on trees looks at the values of formulas nowhere, and does not change them. -/
def Oblivious {α : Type} (action : FieldTree → Except FormError (α × FieldTree)) : Prop :=
  ∀ t, action t.unevaluated = (action t).map fun r => (r.1, r.2.unevaluated)

theorem oblivious_copySubtree (source parent : NodeId) (key : Step) : Oblivious (·.copySubtree source parent key) := by
  intro t
  simp only [copySubtree, require, locate?_unevaluated, checkInsert_unevaluated]
  cases t.locate? source with
  | none => rfl
  | some l =>
    cases t.checkInsert parent key with
    | error e => rfl
    | ok _ =>
      have hcopied : (t.copied l key).blank = t.copied l key := by
        simp only [copied, Forest.blank, Forest.blank_copy]
        rfl
      have hsame : t.unevaluated.copied l.unevaluated key = t.copied l key := by
        simp only [copied, Located.unevaluated, Forest.copyOrder_unevaluated, Forest.copy_unevaluated,
          Node.forCopy_unevaluated]
        rfl
      have horder : l.unevaluated.children.copyOrder = l.children.copyOrder := Forest.copyOrder_unevaluated _ _
      show Except.ok (List.range' t.next (l.unevaluated.children.copyOrder.length + 1),
          (t.unevaluated.graft parent (t.unevaluated.copied l.unevaluated key)).withNext
            (t.next + (l.unevaluated.children.copyOrder.length + 1))) =
        Except.ok (List.range' t.next (l.children.copyOrder.length + 1),
          ((t.graft parent (t.copied l key)).unevaluated).withNext (t.next + (l.children.copyOrder.length + 1)))
      rw [hsame, horder, unevaluated_graft hcopied]

theorem oblivious_removeSubtree (id : NodeId) : Oblivious (·.removeSubtree id) := by
  intro t
  simp only [removeSubtree_eq, contains_unevaluated, postorderFrom_unevaluated]
  split
  · rfl
  split
  · simp only [Except.map, unevaluated_without]
  · rfl

theorem oblivious_rekey (id : NodeId) (key : Step) : Oblivious (·.rekey id key) := by
  intro t
  have hkey : (t.withKey id key).unevaluated = t.unevaluated.withKey id key := by
    simp only [unevaluated, withKey, Forest.unevaluated_rekey]
  simp only [rekey, require, locate?_unevaluated]
  cases t.locate? id with
  | none => rfl
  | some l =>
    simp only [Option.map_some, Located.unevaluated, bind, Except.bind, childByKey?_unevaluated, path_unevaluated]
    cases l.parent with
    | none => rfl
    | some parent =>
      have hok : (Except.ok (l.path, t.unevaluated.withKey id key) : Except FormError _) =
          (Except.ok (l.path, t.withKey id key)).map fun r => (r.1, r.2.unevaluated) := by
        rw [Except.map, hkey]
      dsimp only
      cases t.childByKey? parent key with
      | none => exact hok
      | some holder =>
        dsimp only
        split
        · rfl
        · exact hok

theorem unevaluated_enter (t : FieldTree) (id : NodeId) (value : Value) :
    (t.modify id fun n => { n with value }).unevaluated = t.unevaluated.modify id fun n => { n with value } := by
  unfold FieldTree.modify
  split
  · simp only [unevaluated, Node.unevaluated_entered]
  · simp only [unevaluated, Forest.unevaluated_enter]

end Changes

end FieldTree

end LiveForm
