import LiveForm.Proofs.Document.Layout
import LiveForm.Proofs.Form.Histories
import LiveForm.Proofs.Form.Pairing
import LiveForm.Proofs.Tree.Stocking
import Mathlib

/-!
# What a document is loaded into

While a form is being loaded its graph is empty and is not kept up to date. So nothing is refused on account of a formula,
and each step adds nodes below a node and does nothing else. The nodes that a document is loaded into are those that it
describes, and if there are none, because of an item, loading fails for that reason.
-/

set_option autoImplicit false

namespace LiveForm.Form

variable {α : Type} {f g g' : Form} {parent array id element : NodeId} {key : Step} {kind : Kind} {formula : Option String}
  {new more body : Forest} {path : Path} {inner : Layout} {n : Nat} {value : Value}

/-- A form while it is being loaded. -/
structure Loading (f : Form) : Prop where
  idle : f.isSet .updateGraph = false
  empty : f.graph.vertices = ∅
  pending : f.pending = ∅
  tree : f.tree.WellFormed
  rootKey : f.tree.rootKey = none

/-- A form has got new nodes below a node, and is the same otherwise. -/
structure Gains (f : Form) (parent : NodeId) (new : Forest) (g : Form) : Prop where
  form : g = f.withTree g.tree
  tree : FieldTree.Grafts f.tree parent new g.tree

namespace Loading

theorem paused (h : Loading f) : Loading f.paused :=
  { h with }

theorem withTree (h : Loading f) {t : FieldTree} (ht : t.WellFormed) (hroot : t.rootKey = none) :
    Loading (f.withTree t) :=
  ⟨h.idle, h.empty, h.pending, ht, hroot⟩

theorem gains (h : Loading f) (hg : Gains f parent new g) : Loading g := by
  rw [hg.form]
  exact h.withTree (hg.tree.wellFormed h.tree) (hg.tree.rootKey.trans h.rootKey)

/-- What a form gains below one node after another it gains together. -/
theorem append (h : Loading f) (hg : Gains f parent new g) (hg' : Gains g parent more g') :
    Gains f parent (new.append more) g' where
  form := by
    rw [hg'.form, hg.form]
    rfl
  tree := hg.tree.append h.tree hg'.tree

/-- What a form gains below a node that it has gained it gains with that node. -/
theorem into (h : Loading f) (hg : Gains f parent new g) (hg' : Gains g id more g') (hid : id ∈ new.ids) :
    Gains f parent (new.graft id more) g' where
  form := by
    rw [hg'.form, hg.form]
    rfl
  tree := hg.tree.into h.tree hg'.tree hid

/-- The same for the root of a subtree that a form has gained. -/
theorem below {node : Node} (h : Loading f) (hg : Gains f parent (.cons id key node body .nil) g)
    (hg' : Gains g id more g') : Gains f parent (.cons id key node (body.append more) .nil) g' := by
  have hinto := h.into hg hg' List.mem_cons_self
  rwa [Forest.graft, if_pos rfl, Forest.graft_of_not_mem hg.tree.root_not_mem] at hinto

/-- A value is entered at a node that a form has gained. -/
theorem entered (h : Loading f) (hg : Gains f parent new g) (hid : id ∈ new.ids) (value : Value) :
    Gains f parent (new.modify id fun n => { n with value }) (g.withTree (g.tree.modify id fun n => { n with value })) where
  form := by
    rw [hg.form]
    rfl
  tree := hg.tree.modify h.tree (m := fun n => { n with value }) (fun _ hn => hn) hid

/-- New nodes are not reported. -/
theorem nodeAdded (h : Loading f) (id : NodeId) : Form.nodeAdded id f = .ok () f := by
  unfold Form.nodeAdded
  split
  · rfl
  · split
    · rfl
    · rw [register, whenUpdating, h.idle, if_neg Bool.false_ne_true]

theorem nodesAdded (h : Loading f) (created : List NodeId) : Form.nodesAdded created f = .ok () f := by
  have hall : created.forM Form.nodeAdded f = .ok () f := by
    induction created with
    | nil => rfl
    | cons id rest ih => exact (bind_of_ok (h.nodeAdded id)).trans ih
  rw [Form.nodesAdded, hall]

/-- There is nothing to follow up. -/
theorem recomputePending (h : Loading f) : Form.recomputePending f = .ok {} f := by
  have hclear : f.clearPending = f := by rw [clearPending, ← h.pending]
  rw [recomputePending_of_empty h.empty, hclear]

theorem settle (h : Loading f) : Form.settle f = .ok () f := by
  rw [Form.settle, h.pending]
  split
  · exact bind_of_ok h.recomputePending
  · rfl

/-- An edit that only changes the tree does only that as a whole. -/
theorem batch (h : Loading f) {x : FormM α} {a : α} {t : FieldTree} (hrun : x f.paused = .ok a (f.paused.withTree t)) :
    Form.batch x f = .ok a (f.withTree t) := by
  have hscope : inScope .recomputeEagerly false x f = .ok a (f.withTree t) := by
    have hpaused : x { f with schedule := f.schedule.push .recomputeEagerly false } = .ok a (f.paused.withTree t) := hrun
    simp only [inScope, Scheduled.withSchedule, Scheduled.schedule, hpaused]
    simp only [Form.withTree, Form.paused, withSchedule, Schedule.pop_push]
  have hfollow : Form.recomputePending (f.withTree t) = .ok {} (f.withTree t) := by
    have hclear : (f.withTree t).clearPending = f.withTree t := by
      simp only [clearPending, Form.withTree, ← h.pending]
    have hempty : (f.withTree t).graph.vertices = ∅ := h.empty
    rw [recomputePending_of_empty hempty, hclear]
  unfold Form.batch
  refine (bind_of_ok (x := MonadState.get) rfl).trans ?_
  refine (bind_of_ok hscope).trans ?_
  dsimp only
  split
  · exact bind_of_ok (bind_of_ok hfollow)
  · rfl

/-- A node is added below a group that has no child with its key. -/
theorem addNode (h : Loading f) {p : Place} (hp : f.tree.place? parent = some p) (hgroup : p.node.kind = .group)
    (hcheck : f.tree.checkInsert parent key = .ok ()) (hformula : formula.isSome → kind = .field) : ∃ g,
    Form.addNode parent key kind formula f = .ok f.tree.next g ∧
      Gains f parent (FieldTree.newNode f.tree.next key kind formula) g := by
  have hgraft := FieldTree.grafts_withNew h.tree hcheck hformula
  have hinsert : Form.insertNode parent key kind formula f.paused =
      .ok f.tree.next (f.paused.withTree (f.tree.withNew parent key kind formula)) := by
    have hadded := (h.paused.withTree (hgraft.wellFormed h.tree) (hgraft.rootKey.trans h.rootKey)).nodeAdded f.tree.next
    rw [insertNode_eq h.paused.tree, if_pos hformula]
    have hcheck' : f.paused.tree.checkInsert parent key = .ok () := hcheck
    rw [hcheck']
    refine bind_of_ok (a := ()) ?_
    unfold FormM.orUndo
    have htree : f.paused.tree = f.tree := rfl
    rw [htree, hadded]
  refine ⟨f.withTree (f.tree.withNew parent key kind formula), ?_, rfl, hgraft⟩
  unfold Form.addNode
  rw [FieldTree.get?_eq, hp, Option.map_some]
  simp only [hgroup]
  exact h.batch hinsert

/-- A value is entered at a field, and nowhere else. -/
theorem setValueAt (h : Loading f) {p : Place} (hp : f.tree.place? id = some p) (value : Value) :
    Form.setValueAt id value f =
      if p.node.kind = .field then .ok () (f.withTree (f.tree.modify id fun n => { n with value }))
      else .error (.invalidPath p.path.render .valueOffField) f := by
  have hkind : (f.tree.get? id).map (·.kind) = some p.node.kind := by
    rw [FieldTree.get?_eq, hp]
    rfl
  split
  next hfield =>
    have hentered := h.withTree (h.tree.modify_value id value) (t := f.tree.modify id fun n => { n with value }) (by
      rw [FieldTree.modify]
      split <;> exact h.rootKey)
    have huntouched : (f.withTree (f.tree.modify id fun n => { n with value })).touched id =
        f.withTree (f.tree.modify id fun n => { n with value }) := by
      have hout : (f.withTree (f.tree.modify id fun n => { n with value })).graph.contains id = false := by
        rw [Graph.contains, hentered.empty]
        simp
      rw [touched, hout, if_neg Bool.false_ne_true]
    rw [setValueAt_eq (hkind.trans (congrArg some hfield)), huntouched, hentered.settle]
  next hfield =>
    unfold Form.setValueAt
    rw [if_neg (by rw [hkind]; exact fun he => hfield (Option.some.inj he)), FieldTree.path_of_place? hp]

/-- An element is added to an array, with the layout of its template. -/
theorem pushElementAt (h : Loading f) (hstock : f.tree.Stocked array path inner n) : ∃ id body g,
    Form.pushElementAt array f = .ok id g ∧ Gains f array (.cons id (.index n) { kind := .group } body .nil) g ∧
      body.layout = inner := by
  obtain ⟨p, hp, harray, -⟩ := hstock.placed
  obtain ⟨x, -, -, hx, -⟩ := hstock.template
  obtain ⟨created, id, body, t', hcopy, hhead, hgraft, hlayout⟩ := hstock.copySubtree h.tree hx
  have hkind : (f.tree.get? array).map (·.kind) = some .array := by
    rw [FieldTree.get?_eq, hp]
    exact congrArg some harray
  refine ⟨id, body, f.withTree t', ?_, ⟨rfl, hgraft⟩, hlayout⟩
  have hpush : (do
      let created ← FormM.onTree (·.copySubtree x array (.index (nextIndex f.tree array)))
      Form.nodesAdded created
      return created.headD rootId : FormM NodeId) f.paused = .ok id (f.paused.withTree t') := by
    have htree : FormM.onTree (·.copySubtree x array (.index (nextIndex f.tree array))) f.paused =
        .ok created (f.paused.withTree t') := by
      have hcopy' : f.paused.tree.copySubtree x array (.index (nextIndex f.tree array)) = .ok (created, t') := hcopy
      simp only [FormM.onTree, hcopy']
      rfl
    have hadded := (h.paused.withTree (hgraft.wellFormed h.tree) (hgraft.rootKey.trans h.rootKey)).nodesAdded created
    refine (bind_of_ok htree).trans ((bind_of_ok hadded).trans ?_)
    cases created with
    | nil => cases hhead
    | cons first _ =>
      obtain rfl := Option.some.inj hhead
      rfl
  have hexpect : expectArray array f = .ok () f := by rw [expectArray, if_pos hkind]
  have htemplate : Form.templateOf array f = .ok x f := by rw [Form.templateOf, hx]
  unfold Form.pushElementAt
  refine (bind_of_ok hexpect).trans ((bind_of_ok htemplate).trans ?_)
  exact (bind_of_ok (x := MonadState.get) rfl).trans (h.batch hpush)

end Loading

section Items

/-- Entering a value of an item comes to finding the field. -/
theorem loadEntry_eq (element : NodeId) (entry : String) (value : Value) (g : Form) :
    Form.loadEntry element entry value g =
      match Path.parse entry with
      | .error fault => .error (.invalidPath entry fault) g
      | .ok relative =>
        let path : Path := ⟨(g.tree.path element).steps ++ relative.steps⟩
        match g.tree.find? path with
        | none => .error (.nodeNotFound path.render) g
        | some target => Form.setValueAt target value g := by
  unfold Form.loadEntry
  refine (bind_of_ok (x := MonadState.get) rfl).trans ?_
  dsimp only
  cases Path.parse entry with
  | error fault => rfl
  | ok relative =>
    dsimp only
    cases g.tree.find? ⟨(g.tree.path element).steps ++ relative.steps⟩ <;> rfl

/-- A value is entered at a node below an element that has been added if it is a field. -/
theorem Loading.setValueBelow (h : Loading f) {p : Place} (hp : f.tree.place? array = some p)
    (hg : Gains f array (.cons element (.index n) { kind := .group } body .nil) g) {steps : List Step} {x : NodeId}
    (hx : body.find? steps = some x) (value : Value) : ∃ node, body.layout.get? steps = some node ∧
      Realizes (Form.setValueAt x value g)
        (if node.kind = .field then .ok (body.layout.setValue value steps)
        else .error (.invalidPath (⟨(p.path.child (.index n)).steps ++ steps⟩ : Path).render .valueOffField))
        fun l _ g' => ∃ body', Gains f array (.cons element (.index n) { kind := .group } body' .nil) g' ∧
          body'.layout = l := by
  have hloading := h.gains hg
  have hbelow : g.tree.below? element = some body := by
    rw [hg.tree.below?_new h.tree List.mem_cons_self, Forest.below?, if_pos rfl]
  obtain ⟨hnodup, hout⟩ := FieldTree.nodup_below? hloading.tree.keyed hbelow
  obtain ⟨s, hs, rfl⟩ := Forest.spot?_of_find? hnodup hx
  have hxbody := Forest.mem_ids_of_spot? hs
  have hxplace := FieldTree.place?_below hloading.tree.keyed (hg.tree.place?_root h.tree hp) hbelow hxbody
  rw [hs, Option.map_some] at hxplace
  refine ⟨s.node.blank, Forest.get?_layout hnodup hx hs, ?_⟩
  have hkind : s.node.blank.kind = s.node.kind := rfl
  rw [hkind, hloading.setValueAt hxplace]
  by_cases hfield : s.node.kind = .field
  · have hentered := h.entered hg (List.mem_cons_of_mem _ (List.mem_append_left _ hxbody)) value
    have hne : element ≠ x := fun he => hout (he ▸ hxbody)
    rw [Forest.modify, if_neg hne, Forest.modify] at hentered
    rw [if_pos hfield]
    exact ⟨(), _, if_pos hfield, _, hentered, Forest.layout_modify hnodup hx value⟩
  · rw [if_neg hfield]
    exact ⟨g, if_neg hfield⟩

/-- A value is entered at a field of an element that has been added, or not at all. -/
theorem Loading.loadEntry (h : Loading f) {p : Place} (hp : f.tree.place? array = some p)
    (hg : Gains f array (.cons element (.index n) { kind := .group } body .nil) g) (entry : String) (value : Value) :
    Realizes (Form.loadEntry element entry value g) (body.layout.enter (p.path.child (.index n)) entry value)
      fun l _ g' => ∃ body', Gains f array (.cons element (.index n) { kind := .group } body' .nil) g' ∧
        body'.layout = l := by
  have hloading := h.gains hg
  have hplace := hg.tree.place?_root h.tree hp
  have hbelow : g.tree.below? element = some body := by
    rw [hg.tree.below?_new h.tree List.mem_cons_self, Forest.below?, if_pos rfl]
  rw [loadEntry_eq, Layout.enter, FieldTree.path_of_place? hplace]
  cases hparse : Path.parse entry with
  | error fault => exact ⟨g, rfl⟩
  | ok relative =>
    have hfind := FieldTree.find?_below hloading.tree.keyed hloading.rootKey hplace hbelow relative.steps
    dsimp only at hfind ⊢
    rw [hfind]
    cases hroot : relative.isRoot with
    | true =>
      -- the path of the element itself
      have hsteps : relative.steps.isEmpty = true := hroot
      have hnil : relative.steps = [] := List.isEmpty_iff.1 hsteps
      rw [if_pos hsteps, if_pos rfl]
      dsimp only
      rw [hloading.setValueAt hplace, if_neg (by simp), hnil, List.append_nil]
      exact ⟨g, rfl⟩
    | false =>
      have hsteps : relative.steps.isEmpty = false := hroot
      rw [if_neg (by simp [hsteps]), if_neg Bool.false_ne_true]
      cases hx : body.find? relative.steps with
      | none =>
        rw [Forest.get?_layout_of_none hx]
        exact ⟨g, rfl⟩
      | some x =>
        obtain ⟨node, hnode, hrealizes⟩ := h.setValueBelow hp hg hx value
        rw [hnode]
        exact hrealizes

/-- The values of an item are entered at an element that has been added. -/
theorem Loading.loadEntries (h : Loading f) {p : Place} (hp : f.tree.place? array = some p)
    (hg : Gains f array (.cons element (.index n) { kind := .group } body .nil) g) (entries : List (String × Value)) :
    Realizes ((entries.forM fun (key, value) => Form.loadEntry element key value) g)
      (body.layout.enterAll (p.path.child (.index n)) entries)
      fun l _ g' => ∃ body', Gains f array (.cons element (.index n) { kind := .group } body' .nil) g' ∧
        body'.layout = l := by
  induction entries generalizing body g with
  | nil => exact ⟨(), g, rfl, body, hg, rfl⟩
  | cons entry rest ih =>
    refine Realizes.bind (h.loadEntry hp hg entry.1 entry.2) ?_
    rintro l _ g₁ ⟨body₁, hg₁, rfl⟩
    exact ih hg₁

/-- An item adds an element. -/
theorem Loading.loadItem (h : Loading f) (hstock : f.tree.Stocked array path inner n) (item : Item) :
    Realizes (Form.loadItem array item f) (inner.enterAll (path.child (.index n)) item.toList)
      fun l _ g => ∃ element body, Gains f array (.cons element (.index n) { kind := .group } body .nil) g ∧
        body.layout = l := by
  obtain ⟨p, hp, -, rfl⟩ := hstock.placed
  obtain ⟨element, body, g, hpush, hg, rfl⟩ := h.pushElementAt hstock
  unfold Form.loadItem
  rw [bind_of_ok hpush]
  exact (h.loadEntries hp hg item.toList).mono fun _ _ _ hg' => ⟨element, hg'⟩

/-- Items add elements, one after the other. -/
theorem Loading.loadItems (h : Loading f) (hstock : f.tree.Stocked array path inner n) (items : List Item) :
    Realizes (items.forM (Form.loadItem array) f) (Layout.elements path inner n items)
      fun l _ g => ∃ new, Gains f array new g ∧ new.layout = l := by
  induction items generalizing f n with
  | nil =>
    obtain ⟨p, hp, -⟩ := hstock.placed
    exact ⟨(), f, rfl, .nil, ⟨rfl, .nil hp⟩, rfl⟩
  | cons item rest ih =>
    refine Realizes.bind (h.loadItem hstock item) ?_
    rintro l _ g ⟨element, body, hg, rfl⟩
    refine (ih (h.gains hg) (hstock.grafts h.tree hg.tree rfl)).map ?_
    rintro _ _ g' ⟨new, hg', rfl⟩
    exact ⟨_, h.append hg hg', by rw [Forest.layout_append]; rfl⟩

end Items

section Definitions

/-- What a new node is given as its value. -/
theorem Loading.enterValue (h : Loading f) {p : Place} (hp : f.tree.place? parent = some p) {node : Node}
    (hg : Gains f parent (.cons id key node body .nil) g) {value : Option Value}
    (hfield : value.isSome → node.kind = .field) : ∃ g', (value.forM (Form.setValueAt id)) g = .ok () g' ∧
      Gains f parent (.cons id key { node with value := value.getD node.value } body .nil) g' := by
  cases value with
  | none => exact ⟨g, rfl, hg⟩
  | some value =>
    have hid : id ∈ (Forest.cons id key node body .nil).ids := List.mem_cons_self
    have hentered := h.entered hg hid value
    rw [Forest.modify, if_pos rfl, Forest.modify_of_not_mem hg.tree.root_not_mem, Forest.modify] at hentered
    refine ⟨_, ?_, hentered⟩
    exact ((h.gains hg).setValueAt (hg.tree.place?_root h.tree hp) value).trans (if_pos (hfield rfl))

/-- The node of a definition is added, and is given its value. -/
theorem Loading.addDefined (h : Loading f) {p : Place} (hp : f.tree.place? parent = some p)
    (hgroup : p.node.kind = .group) {d : FieldDef} (hchecked : d.Checked)
    (hfree : ∀ c ∈ f.tree.children parent, c.key ≠ .name d.key) : ∃ id g₁ g,
      Form.addNode parent (.name d.key) d.kind d.formula f = .ok id g₁ ∧
      (d.value.forM (Form.setValueAt id)) g₁ = .ok () g ∧
      Gains f parent (.cons id (.name d.key) { kind := d.kind, value := d.value.getD .void, formula := d.formula }
        (if d.kind = .array then
          .cons (id + 1) (.index templateIndex) { kind := .group, isTemplate := true } .nil .nil
        else .nil) .nil) g := by
  have hinsert := FieldTree.checkInsert_of_free h.tree.keyed hp (by rw [hgroup]; rfl) hfree
  have hformula : d.formula.isSome → d.kind = .field := fun hsome =>
    by_contra fun hkind => by simp [(hchecked.plain hkind).2] at hsome
  have hvalue : d.value.isSome → d.kind = .field := fun hsome =>
    by_contra fun hkind => by simp [(hchecked.plain hkind).1] at hsome
  obtain ⟨g₁, hadd, hg₁⟩ := h.addNode hp hgroup hinsert hformula
  obtain ⟨g, hvalue, hg⟩ := h.enterValue hp hg₁ hvalue
  exact ⟨_, g₁, g, hadd, hvalue, hg⟩

mutual

/-- Definitions add the nodes that they describe to a group. Those that are there already have other names. -/
theorem Loading.loadAll {f : Form} (h : Loading f) {parent : NodeId} {p : Place} (hp : f.tree.place? parent = some p)
    (defs : List FieldDef) (hgroup : defs ≠ [] → p.node.kind = .group) {above : Path} {seen : List String}
    (hcheck : FieldDef.checkAll above seen defs = .ok ())
    (hseen : ∀ c ∈ f.tree.children parent, ∀ name, c.key = .name name → name ∈ seen) :
    Realizes (Form.loadAll parent defs f) (FieldDef.layoutAll p.path defs)
      fun l _ g => ∃ new, Gains f parent new g ∧ new.layout = l := by
  match defs with
  | [] =>
    rw [Form.loadAll, FieldDef.layoutAll]
    exact ⟨(), f, rfl, .nil, ⟨rfl, .nil hp⟩, rfl⟩
  | d :: rest =>
    obtain ⟨hnew, hdeep, hrest⟩ := FieldDef.checkAll_cons hcheck
    rw [Form.loadAll, FieldDef.layoutAll]
    refine Realizes.bind (Loading.loadDef h hp (hgroup (List.cons_ne_nil _ _)) d hdeep
      fun c hc hkey => hnew (hseen c hc _ hkey)) ?_
    rintro l _ g ⟨id, node, body, hg, rfl⟩
    have hp' : g.tree.place? parent = some p := by
      rw [hg.tree.place?_old h.tree (hg.tree.parent_not_mem h.tree), hp]
    have hseen' : ∀ c ∈ g.tree.children parent, ∀ name, c.key = .name name → name ∈ d.key :: seen := by
      obtain ⟨below, hbelow⟩ := FieldTree.exists_below? hp
      rw [FieldTree.children_eq, hbelow, Option.map_some, Option.getD_some] at hseen
      rw [FieldTree.children_eq, hg.tree.below?_parent h.tree hbelow, Option.map_some, Option.getD_some,
        Forest.heads_append]
      intro c hc name hkey
      rcases List.mem_append.1 hc with hc | hc
      · exact List.mem_cons_of_mem _ (hseen c hc name hkey)
      · obtain rfl := List.mem_singleton.1 hc
        rw [Step.name.inj hkey]
        exact List.mem_cons_self
    refine (Loading.loadAll (h.gains hg) hp' rest (fun _ => hgroup (List.cons_ne_nil _ _)) hrest hseen').map ?_
    rintro _ _ g' ⟨more, hg', rfl⟩
    exact ⟨_, h.append hg hg', Forest.layout_append _ _⟩

theorem Loading.loadDef {f : Form} (h : Loading f) {parent : NodeId} {p : Place} (hp : f.tree.place? parent = some p)
    (hgroup : p.node.kind = .group) (d : FieldDef) {above : Path} (hcheck : FieldDef.checkDeep above d = .ok ())
    (hfree : ∀ c ∈ f.tree.children parent, c.key ≠ .name d.key) :
    Realizes (Form.loadDef parent d f) (FieldDef.layoutOf p.path d)
      fun l _ g => ∃ id node body, Gains f parent (.cons id (.name d.key) node body .nil) g ∧
        (Forest.cons id (.name d.key) node body .nil).layout = l := by
  match d with
  | ⟨key, value, formula, fields, template, items⟩ =>
    obtain ⟨hchecked, _, hfields, htemplate⟩ := FieldDef.checkDeep_ok hcheck
    obtain ⟨id, g₁, g₂, hadd, hvalue, hg₂⟩ := h.addDefined hp hgroup hchecked hfree
    have hloading := h.gains hg₂
    rw [Form.loadDef, bind_of_ok hadd, bind_of_ok hvalue]
    cases template with
    | none =>
      rw [if_neg (FieldDef.kind_ne_array rfl)] at hg₂
      have hgroup' : fields ≠ [] → FieldDef.kind ⟨key, value, formula, fields, none, items⟩ = .group :=
        FieldDef.kind_of_fields (d := ⟨key, value, formula, fields, none, items⟩) rfl
      have hbelow := hg₂.tree.below?_new h.tree (x := id) (by simp [Forest.ids])
      rw [Forest.below?, if_pos rfl] at hbelow
      have hinner := Loading.loadAll hloading (hg₂.tree.place?_root h.tree hp) fields hgroup' hfields
        (by simp [FieldTree.children_eq, hbelow, Forest.heads])
      rw [FieldDef.layoutOf]
      refine Realizes.bind hinner ?_
      rintro _ _ g ⟨new, hg, rfl⟩
      exact ⟨(), g, rfl, _, _, _, h.below hg₂ hg, rfl⟩
    | some template =>
      obtain rfl : fields = [] := hchecked.fields rfl
      have hkind : FieldDef.kind ⟨key, value, formula, [], some template, items⟩ = .array := FieldDef.kind_of_template rfl
      rw [if_pos hkind] at hg₂
      obtain ⟨hchildren, hbelow, q, hq, hnode, hpath⟩ := hg₂.tree.template h.tree hp
      have htemplateOf : Form.templateOf id g₂ = .ok (id + 1) g₂ := by
        rw [Form.templateOf, FieldTree.template?, hchildren]
        rfl
      have hinner := Loading.loadAll hloading hq template (fun _ => by rw [hnode]) (htemplate _ rfl)
        (by simp [FieldTree.children_eq, hbelow, Forest.heads])
      have hfieldless : Form.loadAll id [] g₂ = .ok () g₂ := by rw [Form.loadAll]; rfl
      rw [bind_of_ok hfieldless, FieldDef.layoutOf]
      dsimp only
      rw [bind_of_ok htemplateOf, ← hpath]
      -- the definitions of the template are loaded into it before any item is
      refine Realizes.bind hinner ?_
      rintro _ _ g₃ ⟨inner, hg₃, rfl⟩
      have hne : id ≠ id + 1 := Nat.ne_of_lt (Nat.lt_succ_self id)
      have hg := h.into hg₂ hg₃ (by simp [Forest.ids])
      simp only [Forest.graft, if_neg hne, if_true] at hg
      refine ((h.gains hg).loadItems (hg.tree.stocked h.tree hp hkind) items).map ?_
      rintro _ _ g ⟨elements, hg', rfl⟩
      exact ⟨_, _, _, h.below hg hg', rfl⟩

end

end Definitions

section Documents

variable {document : Document}

theorem loading_ofSettings (s : Settings) :
    Loading { ofSettings s with schedule := (ofSettings s).schedule.push .updateGraph false } where
  idle := rfl
  empty := rfl
  pending := rfl
  tree := (Intact.ofSettings s).tree.wellFormed
  rootKey := rfl

/-- The tree is built from the definitions of a document as its layout says. -/
theorem realizes_loadFields (s : Settings) (hvalid : document.validate = .ok ()) :
    Realizes (LiveForm.inScope .updateGraph false (loadAll rootId document.fields) (ofSettings s)) document.layout
      fun l _ g => g.tree.Shows l ∧ g.tree.WellFormed ∧ Coherent g := by
  have hloading := loading_ofSettings s
  have hinner := Loading.loadAll hloading (FieldTree.place?_root _) document.fields (fun _ => rfl) hvalid
    fun c hc => absurd hc List.not_mem_nil
  refine hinner.inScope.mono ?_
  rintro l _ g ⟨g₀, ⟨new, hg, rfl⟩, rfl⟩
  refine ⟨⟨?_, ?_, ?_⟩, hg.tree.wellFormed hloading.tree, ?_⟩
  · exact hg.tree.rootKey
  · show g₀.tree.root.blank = _
    rw [hg.tree.root]
    rfl
  · show g₀.tree.fields.layout = _
    rw [hg.tree.eq]
    rfl
  · rw [hg.form]
    exact (Intact.ofSettings s).consistent.coherent.congr rfl rfl

/-- A document that has been checked is loaded in two steps: first the tree is built, then the graph is derived. -/
theorem load_eq (hvalid : document.validate = .ok ()) :
    load document = LiveForm.inScope .updateGraph false (loadAll rootId document.fields) >>= fun _ => rebuild := by
  unfold load
  rw [hvalid]

/-- If a document has no layout, its tree cannot be built, and loading fails for the same reason. -/
theorem ofDocument_of_layout_error (hvalid : document.validate = .ok ()) (s : Settings) {e : FormError}
    (hlayout : document.layout = .error e) : ofDocument document s = .error e := by
  have hrealizes := realizes_loadFields s hvalid
  rw [hlayout] at hrealizes
  obtain ⟨g, hrun⟩ := hrealizes
  rw [ofDocument, load_eq hvalid, bind_of_error hrun]

/-- Once the tree has been built, loading can fail only because a formula cannot be read or because there is a circle. -/
theorem ofDocument_of_layout (hvalid : document.validate = .ok ()) (s : Settings) {l : Layout}
    (hlayout : document.layout = .ok l) :
    (∀ e, ofDocument document s = .error e → e.IsOfFormula ∨ ∃ paths, e = .cycle paths) ∧
      ∀ f, ofDocument document s = .ok f → f.tree.Shows l := by
  have hrealizes := realizes_loadFields s hvalid
  rw [hlayout] at hrealizes
  obtain ⟨_, g, hrun, hshows, hwell, hcoherent⟩ := hrealizes
  have hrebuild := hcoherent.rebuild hwell
  rw [ofDocument, load_eq hvalid, bind_of_ok hrun]
  cases hrun : rebuild g with
  | ok _ f =>
    refine ⟨fun e he => by simp at he, fun f' hf' => ?_⟩
    obtain rfl := Except.ok.inj hf'
    exact hshows.of_blank (hrebuild.of_ok hrun).blank
  | error e f =>
    refine ⟨fun e' he' => ?_, fun f' hf' => by simp at hf'⟩
    obtain rfl := Except.error.inj he'
    rcases (hrebuild.of_error hrun).reason with ⟨circle, -, rfl⟩ | ⟨hof, -⟩
    · exact .inr ⟨_, rfl⟩
    · exact .inl hof

/-- A document that has been checked is loaded into exactly the nodes that it describes. It describes none only if an item
has a value for something that is no field, and then loading fails for that reason. Otherwise it can fail only because a
formula cannot be read or because there is a circle. In an element the fields that its item has values for have these, the
last one in the order of bytes if there are several, and everything else is as in the template. -/
theorem loaded_as_described (document : Document) (hvalid : document.validate = .ok ()) (s : Settings) :
    (∀ e, document.layout = .error e → e.IsOfItem ∧ ofDocument document s = .error e) ∧
    (∀ l, document.layout = .ok l →
      (∀ e, ofDocument document s = .error e → e.IsOfFormula ∨ ∃ paths, e = .cycle paths) ∧
      ∀ f, ofDocument document s = .ok f → f.tree.Shows l) ∧
    ∀ item : Item, item.toList.Pairwise (fun a b => bytes a.1 < bytes b.1) ∧
      ∀ element (template l : Layout), template.enterAll element item.toList = .ok l → ∀ steps,
        l.get? steps = (template.get? steps).map fun n =>
          { n with value := (Layout.entered? steps item.toList).getD n.value } :=
  ⟨fun e hlayout =>
      ⟨FieldDef.itemFaultsOnly_layoutAll _ _ hvalid e hlayout, ofDocument_of_layout_error hvalid s hlayout⟩,
    fun _ hlayout => ofDocument_of_layout hvalid s hlayout,
    fun item => ⟨item.pairwise_bytes_lt, fun _ _ _ hentered => Layout.get?_enterAll hentered⟩⟩

/-- A form for an order. Each of its lines has sizes. -/
def order : Document :=
  { fields :=
      [{ key := "title", formula := some "ref note" },
       { key := "note" },
       { key := "lines"
         template := some
          [{ key := "name", value := some (.text "part") },
           { key := "sizes", template := some [{ key := "unit", value := some (.text "mm") }], items := [∅] }]
         items := [Std.ExtTreeMap.ofList [("name", Value.text "rod")]] }] }

theorem order_loaded : order.validate = .ok () ∧ ∃ l f, order.layout = .ok l ∧ ofDocument order {} = .ok f ∧
    f.tree.Shows l ∧
    l.get? [.name "lines", .index templateIndex, .name "name"] = some { kind := .field, value := .text "part" } ∧
    l.get? [.name "lines", .index 0, .name "name"] = some { kind := .field, value := .text "rod" } ∧
    l.get? [.name "lines", .index 0, .name "sizes", .index 0, .name "unit"] =
      some { kind := .field, value := .text "mm" } ∧
    l.get? [.name "lines", .index 1] = none := by
  have hvalid : order.validate = .ok () := rfl
  have hsucceeds : succeeds ((LiveForm.inScope .updateGraph false (loadAll rootId order.fields) >>= fun _ => rebuild)
      (ofSettings {})) = true := by
    unfold order
    cbv
  obtain ⟨_, f, hrun⟩ := exists_ok_of_succeeds hsucceeds
  have hload : ofDocument order {} = .ok f := by
    rw [ofDocument, load_eq hvalid, hrun]
  obtain ⟨-, hloaded, -⟩ := loaded_as_described order hvalid {}
  exact ⟨hvalid, _, f, rfl, hload, (hloaded _ rfl).2 f hload, rfl, rfl, rfl, rfl⟩

end Documents

end LiveForm.Form
