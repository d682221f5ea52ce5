import LiveForm.Form.Load
import LiveForm.Proofs.Form.Agreement
import LiveForm.Proofs.Tree.Evolution

/-!
# What edits do to the tree

An edit that removes no element only makes the tree evolve, and so does loading a document. This holds whatever the graph
is told of it, and whether the edit succeeds or fails.
-/

set_option autoImplicit false

namespace LiveForm.Form

open FieldTree (Apart Change)

variable {α β : Type} {f g f' : Form} {s : Schedule} {t t' : FieldTree} {id array template parent source : NodeId}
  {kind : Kind} {formula : Option String} {name : String}

/-- What holds of a form at any time. -/
structure Intact (f : Form) : Prop where
  consistent : Consistent f
  tree : f.tree.Intact

/-- The second form is what some changes have made of the first one. -/
structure Evolved (f g : Form) : Prop where
  consistent : Consistent g
  tree : f.tree.Evolves g.tree
  schedule : g.schedule = f.schedule

theorem Evolved.refl (h : Intact f) : Evolved f f :=
  ⟨h.consistent, .refl, rfl⟩

theorem Evolved.trans (h : Evolved f g) (h' : Evolved g f') : Evolved f f' :=
  ⟨h'.consistent, h.tree.trans h'.tree, h'.schedule.trans h.schedule⟩

theorem Evolved.intact (h : Evolved f g) (hf : Intact f) : Intact g :=
  ⟨h.consistent, hf.tree.evolves h.tree⟩

/-- After one change of the tree the graph may be told of it. -/
theorem Evolved.of_change (hchange : Change f.tree t) (hg : Steady t.blank f.schedule g) : Evolved f g :=
  ⟨hg.consistent, (Relation.ReflTransGen.single hchange).tail (.values hg.tree), hg.schedule⟩

theorem Evolved.of_steady (hg : Steady f.tree.blank f.schedule g) : Evolved f g :=
  ⟨hg.consistent, .single (.values hg.tree), hg.schedule⟩

theorem Intact.withTree (h : Intact f) (t : FieldTree) : Steady t.blank f.schedule (f.withTree t) :=
  ⟨h.consistent.congr rfl rfl h.consistent.levels, rfl, rfl⟩

/-- A scope does not matter. -/
theorem Intact.inScope (h : Intact f) {x : FormM α} {switch : Switch} {value : Bool}
    (hx : ∀ s, Intact (f.withSchedule s) → Ends (x (f.withSchedule s)) (fun _ => Evolved (f.withSchedule s))
      (fun _ => Evolved (f.withSchedule s))) :
    Ends (LiveForm.inScope switch value x f) (fun _ => Evolved f) (fun _ => Evolved f) := by
  have hclose {g : Form} (hg : Evolved (f.withSchedule (f.schedule.push switch value)) g) :
      Evolved f { g with schedule := g.schedule.pop switch } := by
    refine ⟨hg.consistent.congr rfl rfl hg.consistent.levels, hg.tree, ?_⟩
    show g.schedule.pop switch = f.schedule
    rw [hg.schedule]
    exact Schedule.pop_push _ _ _
  have hpushed := hx (f.schedule.push switch value) ⟨h.consistent.congr rfl rfl h.consistent.levels, h.tree⟩
  exact ends_inScope (hpushed.mono (fun _ _ hg => hclose hg) fun _ _ hg => hclose hg)

/-- Nor does what follows an edit. -/
theorem Intact.batch (h : Intact f) {x : FormM α}
    (hx : ∀ s, Intact (f.withSchedule s) → Ends (x (f.withSchedule s)) (fun _ => Evolved (f.withSchedule s))
      (fun _ => Evolved (f.withSchedule s))) :
    Ends (Form.batch x f) (fun _ => Evolved f) (fun _ => Evolved f) := by
  refine Ends.bind (Ends.pure (Ends.bind ((h.inScope hx).mono ?_ fun _ _ he => he)))
  rintro a g hg
  dsimp only
  split
  · refine Ends.bind (Ends.bind ((Steady.recomputePendingBy g (.start hg.consistent)).mono ?_ ?_))
    · exact fun _ _ hg' => hg.trans (.of_steady hg')
    · exact fun _ _ hg' => hg.trans (.of_steady hg')
  · exact hg

/-- An operation only makes the tree evolve, however it ends. -/
def Gentle (x : FormM α) : Prop :=
  ∀ f, Intact f → Ends (x f) (fun _ => Evolved f) (fun _ => Evolved f)

namespace Gentle

theorem pure (a : α) : Gentle (Pure.pure a) :=
  fun _ h => .refl h

theorem throw (e : FormError) : Gentle (MonadExcept.throw e : FormM α) :=
  fun _ h => .refl h

theorem get : Gentle (MonadState.get : FormM Form) :=
  fun _ h => .refl h

theorem bind {x : FormM α} {k : α → FormM β} (hx : Gentle x) (hk : ∀ a, Gentle (k a)) : Gentle (x >>= k) :=
  fun f h => Ends.bind ((hx f h).mono (fun a g hg => (hk a g (hg.intact h)).mono (fun _ _ hg' => hg.trans hg')
    fun _ _ hg' => hg.trans hg') fun _ _ he => he)

theorem discard {x : FormM α} (hx : Gentle x) : Gentle (discard x) :=
  bind hx fun _ => pure _

theorem forM {ι : Type} {body : ι → FormM PUnit} (h : ∀ a, Gentle (body a)) (l : List ι) : Gentle (l.forM body) := by
  induction l with
  | nil => exact pure _
  | cons a rest ih => exact bind (h a) fun _ => ih

/-- A report to the graph, or a recomputation. -/
theorem of_steady {x : FormM α} (hx : ∀ t s, Preserves (Steady t s) x) : Gentle x :=
  fun f h => (hx f.tree.blank f.schedule f (.start h.consistent)).mono (fun _ _ hg => .of_steady hg)
    fun _ _ hg => .of_steady hg

end Gentle

section Discarding

theorem Steady.nodeAdded (id : NodeId) : Preserves (Steady t s) (nodeAdded id) := by
  intro f h
  unfold Form.nodeAdded
  split
  · exact h
  · split
    · exact h
    · exact Steady.register id _ f h

/-- A subtree is reported, and removed if it is in the tree. -/
theorem Steady.discardSubtree (h : Steady t s f) (id : NodeId) : Ends (discardSubtree id f)
    (fun _ g => id ≠ rootId ∧ Steady (t.without id) s g) (fun _ g => Steady t s g) := by
  refine Ends.bind (Ends.pure (Ends.bind ?_))
  refine (Preserves.forM (fun n => Steady.unregister n) _ f h).mono ?_ fun _ _ he => he
  rintro _ g hg
  refine Ends.bind (FormM.ends_onTree (fun removed t' hremove => ?_) fun e _ => hg)
  rw [FieldTree.removeSubtree_eq] at hremove
  split at hremove
  · cases hremove
  next hid =>
    split at hremove
    · obtain ⟨-, rfl⟩ := Prod.mk.inj (Except.ok.inj hremove)
      refine ⟨hid, hg.consistent.congr rfl rfl hg.consistent.levels, ?_, hg.schedule⟩
      show (g.tree.without id).blank = t.without id
      rw [FieldTree.blank_without, hg.tree]
    · cases hremove

/-- Some nodes are reported. If one of them is rejected, the subtree of the first one is removed. -/
theorem Steady.nodesAdded (h : Steady t s f) (created : List NodeId) : Ends (nodesAdded created f)
    (fun _ g => Steady t s g)
    (fun _ g => Steady t s g ∨ ∃ root ∈ created.head?, root ≠ rootId ∧ Steady (t.without root) s g) := by
  unfold Form.nodesAdded
  have hadded := Preserves.forM (fun n => Steady.nodeAdded (t := t) (s := s) n) created f h
  split
  next hrun => exact hadded.of_ok hrun
  next e g hrun =>
    have hg := hadded.of_error hrun
    cases created with
    | nil => exact .inl hg
    | cons root rest =>
      have hdiscard : Ends ([root].forM Form.discardSubtree g)
          (fun _ g => root ≠ rootId ∧ Steady (t.without root) s g) (fun _ g => Steady t s g) :=
        Ends.bind ((hg.discardSubtree root).mono (fun _ _ hok => hok) fun _ _ he => he)
      have htake : (root :: rest).take 1 = [root] := rfl
      rw [htake]
      split
      next hdone => exact .inr ⟨root, rfl, hdiscard.of_ok hdone⟩
      next hfailed => exact .inl (hdiscard.of_error hfailed)

/-- A node that is no element of an array may be removed at any time. -/
theorem Intact.discardSubtree (h : Intact f) (hapart : f.tree.Apart id) :
    Ends (discardSubtree id f) (fun _ => Evolved f) (fun _ => Evolved f) := by
  refine ((Steady.start h.consistent).discardSubtree id).mono ?_ fun _ _ hg => .of_steady hg
  rintro _ g ⟨hid, hg⟩
  refine .of_change (.dropped hid hapart) ?_
  rwa [FieldTree.blank_without]

theorem Intact.dropSubtree (h : Intact f) (hapart : f.tree.Apart id) : Evolved f (f.dropSubtree id) := by
  unfold Form.dropSubtree
  split
  next removed t' hremove =>
    rw [FieldTree.removeSubtree_eq] at hremove
    split at hremove
    · cases hremove
    next hid =>
      split at hremove
      · obtain ⟨-, rfl⟩ := Prod.mk.inj (Except.ok.inj hremove)
        exact .of_change (.dropped hid hapart) (h.withTree _)
      · cases hremove
  next => exact .refl h

end Discarding

section Adding

/-- The copy of a subtree is removed again. -/
theorem Intact.uncopied (h : Intact f) {key : Step} {created : List NodeId}
    (hcopy : f.tree.copySubtree source parent key = .ok (created, t'))
    (hg : Steady (t'.blank.without f.tree.next) f.schedule g) : Evolved f g := by
  obtain ⟨l, -, -, hgraft, -⟩ := FieldTree.copySubtree_ok h.tree.wellFormed hcopy
  have hback : t'.without f.tree.next = f.tree.withNext t'.next := hgraft.without h.tree.wellFormed
  rw [← FieldTree.blank_without, hback] at hg
  exact .of_change (.used hgraft.next) hg

/-- A subtree is copied and reported. If it is rejected, it is removed again. -/
theorem Intact.copied (h : Intact f) {key : Step} {created : List NodeId}
    (hcopy : f.tree.copySubtree source parent key = .ok (created, t')) (hchange : Change f.tree t') :
    Ends (nodesAdded created (f.withTree t')) (fun _ g => Evolved f g ∧ Steady t'.blank f.schedule g)
      (fun _ => Evolved f) := by
  obtain ⟨l, -, hhead, -⟩ := FieldTree.copySubtree_ok h.tree.wellFormed hcopy
  refine ((h.withTree t').nodesAdded created).mono (fun _ g hg => ⟨.of_change hchange hg, hg⟩) ?_
  rintro _ g (hg | ⟨root, hroot, -, hg⟩)
  · exact .of_change hchange hg
  · obtain rfl : root = f.tree.next := Option.some.inj (Option.mem_def.1 hroot ▸ hhead)
    exact h.uncopied hcopy hg

/-- A node is added under a group. -/
theorem Intact.insertNode (h : Intact f) {p : Place} (hp : f.tree.place? parent = some p)
    (hgroup : p.node.kind = .group) : Ends (insertNode parent (.name name) kind formula f)
      (fun id g => Evolved f g ∧ g.tree.Apart id ∧
        FieldTree.Grafts f.tree parent (FieldTree.newNode f.tree.next (.name name) kind formula)
          (f.tree.withNew parent (.name name) kind formula) ∧
        g.tree.blank = (f.tree.withNew parent (.name name) kind formula).blank)
      (fun _ => Evolved f) := by
  refine ends_insertNode h.tree.wellFormed (fun _ => .refl h) (fun _ _ _ => .refl h) fun hcheck hformula => ?_
  have hgraft := FieldTree.grafts_withNew h.tree.wellFormed hcheck hformula
  have hchange : Change f.tree (f.tree.withNew parent (.name name) kind formula) :=
    .inserted hp hgroup hcheck hformula
  have hapart {g : Form} (hg : Steady (f.tree.withNew parent (.name name) kind formula).blank f.schedule g) :
      g.tree.Apart f.tree.next :=
    (hgraft.apart_root h.tree hp hgroup).change (h.tree.change hchange) (.values hg.tree)
  refine FormM.ends_orUndo ((Steady.nodeAdded _ _ (h.withTree _)).mono ?_ ?_)
  · exact fun _ g hg => ⟨.of_change hchange hg, hapart hg, hgraft, hg.tree⟩
  · rintro _ g hg
    have hevolved : Evolved f g := .of_change hchange hg
    exact hevolved.trans ((hevolved.intact h).dropSubtree (hapart hg))

/-- Copies are removed again. -/
theorem Intact.discardAll (h : Intact f) {copies : List NodeId} (hcopies : ∀ copy ∈ copies, f.tree.Apart copy) :
    Ends (copies.forM Form.discardSubtree f) (fun _ => Evolved f) (fun _ => Evolved f) := by
  refine (Ends.forM (I := fun rest g => Evolved f g ∧ ∀ copy ∈ rest, f.tree.Apart copy) ?_
    ⟨.refl h, hcopies⟩).mono (fun _ _ hg => hg.1) fun _ _ hg => hg
  rintro copy rest g ⟨hg, hrest⟩
  have hapart := (hrest copy List.mem_cons_self).evolves h.tree hg.tree
  refine ((hg.intact h).discardSubtree hapart).mono ?_ fun _ _ hg' => hg.trans hg'
  exact fun _ _ hg' => ⟨hg.trans hg', fun copy' hcopy' => hrest copy' (List.mem_cons_of_mem _ hcopy')⟩

/-- A node is copied into groups, one after the other. -/
theorem Intact.copyIntoElements (h : Intact f) {copies elements : List NodeId}
    (helements : ∀ e ∈ elements, ∃ p, f.tree.place? e = some p ∧ p.node.kind = .group)
    (hcopies : ∀ copy ∈ copies, f.tree.Apart copy) :
    Ends (copyIntoElements source (.name name) copies elements f) (fun _ => Evolved f) (fun _ => Evolved f) := by
  induction elements generalizing f copies with
  | nil => exact .refl h
  | cons element rest ih =>
    obtain ⟨p, hp, hgroup⟩ := helements element List.mem_cons_self
    unfold Form.copyIntoElements
    refine Ends.bind (FormM.ends_onTree (fun created t' hcopy => ?_) fun _ _ => .refl h)
    obtain ⟨l, -, hhead, hgraft, -⟩ := FieldTree.copySubtree_ok h.tree.wellFormed hcopy
    have hadded := h.copied hcopy (.copied hp hgroup hcopy)
    split
    next g hrun =>
      obtain ⟨hg, hsteady⟩ := hadded.of_ok hrun
      have hintact := hg.intact h
      have hplaced : ∀ e ∈ rest, ∃ p, g.tree.place? e = some p ∧ p.node.kind = .group := by
        intro e he
        obtain ⟨q, hq, hkind⟩ := helements e (List.mem_cons_of_mem _ he)
        have hold : e ∉ (f.tree.copied l (.name name)).ids := fun hmem =>
          Nat.not_lt.2 (hgraft.fresh e hmem) (FieldTree.lt_next_of_place? h.tree.wellFormed hq)
        obtain ⟨q', hq', hqq⟩ := FieldTree.place?_of_blank hsteady.tree
          ((hgraft.place?_old h.tree.wellFormed hold).trans hq)
        exact ⟨q', hq', (Place.blank_eq hqq).2.2.1.trans hkind⟩
      have hapart : ∀ copy ∈ copies ++ created.take 1, g.tree.Apart copy := by
        intro copy hcopy'
        rcases List.mem_append.1 hcopy' with hold | hnew
        · exact (hcopies copy hold).evolves h.tree hg.tree
        · have hroot : copy = f.tree.next := by
            cases created with
            | nil => simp at hnew
            | cons first _ =>
              obtain rfl : copy = first := by simpa using hnew
              exact Option.some.inj hhead
          rw [hroot]
          exact (hgraft.apart_root h.tree hp hgroup).change
            (h.tree.change (.copied hp hgroup hcopy)) (.values hsteady.tree)
      exact (ih hintact hplaced hapart).mono (fun _ _ hg' => hg.trans hg') fun _ _ hg' => hg.trans hg'
    next e g hrun =>
      have hg := hadded.of_error hrun
      have hdiscard := (hg.intact h).discardAll fun copy hcopy' => (hcopies copy hcopy').evolves h.tree hg.tree
      split
      next hdone => exact hg.trans (hdiscard.of_ok hdone)
      next hfailed => exact hg.trans (hdiscard.of_error hfailed)

variable {p q : Place}

/-- An element is tried out. -/
theorem Intact.tryElement (h : Intact f) (hp : f.tree.place? array = some p) (harray : p.node.kind = .array)
    (hq : f.tree.place? template = some q) (hparent : q.parent = some array) :
    Ends (tryElement array template f) (fun _ => Evolved f) (fun _ => Evolved f) := by
  unfold Form.tryElement
  refine Ends.bind (Ends.pure (Ends.bind (FormM.ends_onTree (fun created t' hcopy => ?_) fun _ _ => .refl h)))
  have hchange : Change f.tree t' := .pushed hp harray hq hparent hcopy
  obtain ⟨l, -, hhead, -⟩ := FieldTree.copySubtree_ok h.tree.wellFormed hcopy
  refine Ends.bind ((h.copied hcopy hchange).mono ?_ fun _ _ hg => hg)
  rintro _ g ⟨-, hg⟩
  have htake : created.take 1 = [f.tree.next] := by
    cases created with
    | nil => simp at hhead
    | cons first _ => simpa using hhead
  rw [htake]
  refine Ends.bind ((hg.discardSubtree f.tree.next).mono ?_ fun _ _ hg' => .of_change hchange hg')
  exact fun _ _ ⟨_, hg'⟩ => h.uncopied hcopy hg'

/-- A node is added to an array. -/
theorem Intact.extendArray (h : Intact f) (hp : f.tree.place? array = some p) (harray : p.node.kind = .array) :
    Ends (extendArray array (.name name) kind formula f) (fun _ => Evolved f) (fun _ => Evolved f) := by
  unfold Form.extendArray
  refine Ends.bind (ends_templateOf.mono ?_ ?_)
  swap
  · rintro _ f' ⟨rfl, -⟩
    exact .refl h
  rintro template f ⟨rfl, htemplate⟩
  have hwf := h.tree.wellFormed
  obtain ⟨q, hq, hparent, -⟩ := FieldTree.template?_eq_some hwf htemplate
  have hgroup := h.tree.shaped.group hwf hp harray hq hparent
  refine h.batch fun s hf => Ends.bind ((hf.insertNode hq hgroup).mono ?_ fun _ _ hg => hg)
  rintro id g ⟨hg, hapart, hgraft, hblank⟩
  have hintact := hg.intact hf
  have hold {x : NodeId} {u : Place} (hx : f.tree.place? x = some u) : ∃ u', g.tree.place? x = some u' ∧
      u'.blank = u.blank := by
    have hnot : x ∉ (FieldTree.newNode f.tree.next (.name name) kind formula).ids := fun hmem =>
      Nat.not_lt.2 (hgraft.fresh x hmem) (FieldTree.lt_next_of_place? hwf hx)
    exact FieldTree.place?_of_blank hblank ((hgraft.place?_old hwf hnot).trans hx)
  obtain ⟨p', hp', hpp⟩ := hold hp
  obtain ⟨q', hq', hqq⟩ := hold hq
  have harray' : p'.node.kind = .array := (Place.blank_eq hpp).2.2.1.trans harray
  have hparent' : q'.parent = some array := (show q'.blank.parent = q.blank.parent by rw [hqq]).trans hparent
  have hcopying : Ends ((if ((g.tree.elements array).map Prod.snd).isEmpty then Form.tryElement array template
      else Form.copyIntoElements id (.name name) [] ((g.tree.elements array).map Prod.snd)) g)
      (fun _ => Evolved g) (fun _ => Evolved g) := by
    split
    · exact hintact.tryElement hp' harray' hq' hparent'
    · refine hintact.copyIntoElements (fun e he => ?_) (by simp)
      obtain ⟨⟨i, x⟩, hx, rfl⟩ := List.mem_map.1 he
      obtain ⟨u, hu, huparent, -⟩ := (FieldTree.mem_elements hintact.tree.wellFormed).1 hx
      exact ⟨u, hu, hintact.tree.shaped.group hintact.tree.wellFormed hp' harray' hu huparent⟩
  refine Ends.bind (Ends.pure (Ends.bind (FormM.ends_orUndo (hcopying.mono ?_ ?_))))
  · exact fun _ _ hg' => hg.trans hg'
  · rintro _ g' hg'
    have hall := hg.trans hg'
    exact hall.trans ((hall.intact hf).dropSubtree (hapart.evolves hintact.tree hg'.tree))

end Adding

section Edits

/-- Adding a node only makes the tree evolve. -/
theorem Gentle.addNode (parent : NodeId) (name : String) (kind : Kind) (formula : Option String) :
    Gentle (addNode parent (.name name) kind formula) := by
  intro f h
  unfold Form.addNode
  split
  · exact .refl h
  next node hnode =>
    rw [FieldTree.get?_eq, Option.map_eq_some_iff] at hnode
    obtain ⟨p, hp, rfl⟩ := hnode
    cases hkind : p.node.kind with
    | field => exact .refl h
    | array => exact h.extendArray hp hkind
    | group => exact h.batch fun s hf => (hf.insertNode hp hkind).mono (fun _ _ hg => hg.1) fun _ _ hg => hg

/-- So does adding an element to an array. -/
theorem Gentle.pushElementAt (array : NodeId) : Gentle (pushElementAt array) := by
  intro f h
  unfold Form.pushElementAt
  refine Ends.bind (ends_expectArray.mono ?_ ?_)
  swap
  · rintro _ f' ⟨rfl, -⟩
    exact .refl h
  rintro _ f ⟨rfl, harray⟩
  refine Ends.bind (ends_templateOf.mono ?_ ?_)
  swap
  · rintro _ f' ⟨rfl, -⟩
    exact .refl h
  rintro template f ⟨rfl, htemplate⟩
  refine Ends.bind (Ends.pure (h.batch fun s hf => ?_))
  obtain ⟨q, hq, hparent, -⟩ := FieldTree.template?_eq_some h.tree.wellFormed htemplate
  rw [FieldTree.get?_eq, Option.map_map, Option.map_eq_some_iff] at harray
  obtain ⟨p, hp, hkind⟩ := harray
  refine Ends.bind (FormM.ends_onTree (fun created t' hcopy => ?_) fun _ _ => .refl hf)
  exact Ends.bind ((hf.copied hcopy (.pushed hp hkind hq hparent hcopy)).mono (fun _ _ hg => Ends.pure hg.1)
    fun _ _ hg => hg)

/-- So does entering a value. -/
theorem Gentle.setValueAt (id : NodeId) (value : Value) : Gentle (setValueAt id value) := by
  intro f h
  unfold Form.setValueAt
  split
  · refine Ends.bind (FormM.ends_editTree (fun t ht => ?_) fun _ _ => .refl h)
    obtain rfl := FieldTree.setValue_ok ht
    refine (Steady.valueChanged id _ (h.withTree _)).mono ?_ ?_
    · exact fun _ _ hg => .of_change (.entered id value) hg
    · exact fun _ _ hg => .of_change (.entered id value) hg
  · exact .refl h

theorem Gentle.resolve (path : String) : Gentle (resolve path) := by
  intro f h
  refine (ends_resolve path).mono ?_ ?_
  · rintro _ _ ⟨rfl, -⟩
    exact .refl h
  · rintro _ _ ⟨rfl, -⟩
    exact .refl h

theorem Gentle.addField (parent key : String) (kind : Kind) (formula : Option String) :
    Gentle (addField parent key kind formula) :=
  bind (Gentle.resolve parent) fun _ => Gentle.addNode _ _ _ _

theorem Gentle.pushElement (path : String) : Gentle (pushElement path) :=
  bind (Gentle.resolve path) fun _ => Gentle.pushElementAt _

theorem Gentle.setValue (path : String) (value : Value) : Gentle (setValue path value) :=
  bind (Gentle.resolve path) fun _ => Gentle.setValueAt _ _

theorem Gentle.clearOverride (path : String) : Gentle (clearOverride path) :=
  Gentle.setValue path .void

theorem Gentle.recomputePending : Gentle recomputePending :=
  of_steady fun _ _ => Steady.recomputePendingBy

theorem Gentle.recomputeAll : Gentle recomputeAll :=
  of_steady fun _ _ => Steady.recomputeAll

theorem Gentle.rebuild : Gentle rebuild := by
  intro f h
  refine (h.consistent.rebuildGraph h.tree.wellFormed.nodup
    (fun hroot => h.tree.wellFormed.ne_root _ hroot rfl) true).mono ?_ ?_
  · exact fun _ _ hg => .of_steady hg
  · exact fun _ _ hg => .of_steady hg

end Edits

section Loading

theorem Gentle.loadEntry (element : NodeId) (key : String) (value : Value) : Gentle (loadEntry element key value) := by
  refine bind get fun f => ?_
  dsimp only
  split
  · exact throw _
  · split
    · exact throw _
    · exact Gentle.setValueAt _ _

theorem Gentle.loadItem (array : NodeId) (item : Item) : Gentle (loadItem array item) :=
  bind (Gentle.pushElementAt array) fun _ => forM (fun _ => Gentle.loadEntry _ _ _) _

theorem Gentle.templateOf (array : NodeId) : Gentle (templateOf array) := by
  intro f h
  refine ends_templateOf.mono ?_ ?_
  · rintro _ _ ⟨rfl, -⟩
    exact .refl h
  · rintro _ _ ⟨rfl, -⟩
    exact .refl h

mutual

/-- Loading adds nodes and elements and enters values. -/
theorem Gentle.loadAll (parent : NodeId) (defs : List FieldDef) : Gentle (loadAll parent defs) := by
  match defs with
  | [] =>
    rw [Form.loadAll]
    exact pure _
  | d :: rest =>
    rw [Form.loadAll]
    exact bind (Gentle.loadDef parent d) fun _ => Gentle.loadAll parent rest

theorem Gentle.loadDef (parent : NodeId) (d : FieldDef) : Gentle (loadDef parent d) := by
  match d with
  | ⟨key, value, formula, fields, template, items⟩ =>
    rw [Form.loadDef]
    refine bind (Gentle.addNode _ _ _ _) fun id => bind ?_ fun _ => bind (Gentle.loadAll id fields) fun _ => ?_
    · cases value with
      | none => exact pure _
      | some value => exact Gentle.setValueAt id value
    · cases template with
      | none => exact pure _
      | some template =>
        exact bind (Gentle.templateOf id) fun _ => bind (Gentle.loadAll _ template) fun _ =>
          forM (fun _ => Gentle.loadItem _ _) _

end

end Loading

end LiveForm.Form
