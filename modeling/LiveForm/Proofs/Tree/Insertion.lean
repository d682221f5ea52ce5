import LiveForm.Proofs.Tree.Copying
import LiveForm.Proofs.Tree.Effects
import Mathlib.Data.List.Nodup

/-!
# Adding subtrees

Every edit that makes new nodes adds a forest under one parent. `FieldTree.Grafts` says that a tree is made of
another one in this way, and that the result is well-formed.
-/

set_option autoImplicit false

namespace LiveForm.FieldTree

variable {t t' : FieldTree} {parent : NodeId} {key : Step} {new : Forest}

/-- A tree is another one with a forest of new nodes under a parent. -/
structure Grafts (t : FieldTree) (parent : NodeId) (new : Forest) (t' : FieldTree) : Prop where
  eq : t' = { t.graft parent new with next := t'.next }
  placed : ∃ p, t.place? parent = some p
  fresh : ∀ x ∈ new.ids, t.next ≤ x
  bound : ∀ x ∈ new.ids, x < t'.next
  next : t.next ≤ t'.next
  nodup : new.ids.Nodup
  keys : new.DistinctKeys
  free : ∀ g, t.below? parent = some g → ∀ c ∈ g.heads, ∀ c' ∈ new.heads, c'.key ≠ c.key
  formulas : new.Holds fun n => n.formula.isSome → n.kind = .field

theorem Grafts.wellFormed (h : Grafts t parent new t') (ht : t.WellFormed) : t'.WellFormed := by
  obtain ⟨p, hp⟩ := h.placed
  rw [h.eq]
  exact ht.graft hp h.fresh h.bound h.next h.nodup h.keys h.free fun x s hs => h.formulas.spot? hs

theorem Grafts.place? (h : Grafts t parent new t') (ht : t.WellFormed) {p : Place}
    (hp : t.place? parent = some p) (x : NodeId) : t'.place? x =
      if x ∈ new.ids then (new.spot? x).map (·.place parent p.path p.inTemplate) else t.place? x := by
  rw [h.eq]
  exact place?_graft ht.keyed hp h.fresh x

/-- Old nodes are where they were. -/
theorem Grafts.place?_old (h : Grafts t parent new t') (ht : t.WellFormed) {x : NodeId}
    (hx : x ∉ new.ids) : t'.place? x = t.place? x := by
  obtain ⟨p, hp⟩ := h.placed
  rw [h.place? ht hp, if_neg hx]

/-- New nodes have not been anywhere. -/
theorem Grafts.place?_new (h : Grafts t parent new t') (ht : t.WellFormed) {x : NodeId}
    (hx : x ∈ new.ids) : t.place? x = none :=
  FieldTree.place?_next ht (h.fresh x hx)

/-- The root of an added subtree is placed. -/
theorem Grafts.place?_root {id : NodeId} {node : Node} {children : Forest}
    (h : Grafts t parent (.cons id key node children .nil) t')
    (ht : t.WellFormed) {p : Place} (hp : t.place? parent = some p) : t'.place? id = some
      { key := some key, node, parent := some parent, path := p.path.child key,
        inTemplate := p.inTemplate || node.isTemplate } := by
  rw [h.place? ht hp, if_pos (by simp [Forest.ids]), Forest.spot?, if_pos rfl]
  rfl

theorem checkInsert_eq (t : FieldTree) (parent : NodeId) (key : Step) : t.checkInsert parent key =
    match t.locate? parent with
    | none => .error (.handleNotFound parent)
    | some l =>
      if keyFits l.node.kind key then
        if (l.children.childByKey? key).isSome then .error (.duplicateKey l.path key) else .ok ()
      else .error (.notAContainer l.path (some key)) := by
  unfold checkInsert require
  cases t.locate? parent with
  | none => rfl
  | some l =>
    cases hfits : keyFits l.node.kind key <;> cases hkey : l.children.childByKey? key <;>
      simp [hfits, hkey, bind, Except.bind, pure, Except.pure, throw, throwThe,
        MonadExceptOf.throw]

/-- The check that a node can have a new child is passed if the key fits and is free. -/
theorem checkInsert_of_free (ht : t.Keyed) {p : Place} (hp : t.place? parent = some p)
    (hfits : keyFits p.node.kind key = true) (hfree : ∀ c ∈ t.children parent, c.key ≠ key) : t.checkInsert parent key = .ok () := by
  obtain ⟨l, hl, rfl⟩ := exists_locate? hp
  obtain ⟨-, hg, -⟩ := locate?_eq_some hl
  have hnone : l.children.childByKey? key = none := by
    by_contra hne
    obtain ⟨id, hid⟩ := Option.ne_none_iff_exists'.1 hne
    obtain ⟨node, hmem⟩ := (Forest.childByKey?_eq_some (distinctKeys_below? ht hg)).1 hid
    rw [children_eq, hg] at hfree
    exact hfree _ hmem rfl
  have hfits' : keyFits l.node.kind key = true := hfits
  rw [checkInsert_eq, hl]
  simp [hfits', hnone]

/-- Whether a node can have a new child depends on the node and on its children only. -/
theorem checkInsert_congr (hplace : t'.place? parent = t.place? parent)
    (hchildren : t'.children parent = t.children parent) : t'.checkInsert parent key = t.checkInsert parent key := by
  rw [checkInsert_eq, checkInsert_eq]
  cases hl : t.locate? parent with
  | none =>
    cases hl' : t'.locate? parent with
    | none => rfl
    | some l' => simp [place?, hl, hl'] at hplace
  | some l =>
    cases hl' : t'.locate? parent with
    | none => simp [place?, hl, hl'] at hplace
    | some l' =>
      have hp : l'.place = l.place := by simpa [place?, hl, hl'] using hplace
      have hheads : l'.children.heads = l.children.heads := by simpa [children, hl, hl'] using hchildren
      have hnode : l'.node = l.node := congrArg Place.node hp
      have hpath : l'.path = l.path := congrArg Place.path hp
      simp only [hnode, hpath, Forest.childByKey?_congr hheads]

/-- When a node can have a new child. -/
theorem checkInsert_ok (ht : t.Keyed) (h : t.checkInsert parent key = .ok ()) :
    ∃ p g, t.place? parent = some p ∧ t.below? parent = some g ∧
      keyFits p.node.kind key = true ∧ ∀ c ∈ g.heads, c.key ≠ key := by
  rw [checkInsert_eq] at h
  cases hl : t.locate? parent with
  | none => simp [hl] at h
  | some l =>
    obtain ⟨hp, hg, -⟩ := locate?_eq_some hl
    simp only [hl] at h
    split at h
    next hfits =>
      split at h
      · simp at h
      next hfree =>
        refine ⟨l.place, l.children, hp, hg, hfits, fun c hc hkey => hfree ?_⟩
        obtain ⟨id, k, node⟩ := c
        obtain rfl : k = key := hkey
        rw [(Forest.childByKey?_eq_some (distinctKeys_below? ht hg)).2 ⟨node, hc⟩]
        rfl
    · simp at h

/-- A node that its parent can have gets a key that no child of the parent has. -/
theorem ne_key_of_checkInsert (ht : t.Keyed) (h : t.checkInsert parent key = .ok ()) {id : NodeId} {node : Node}
    {children g : Forest} (hg : t.below? parent = some g) :
    ∀ c ∈ g.heads, ∀ c' ∈ (Forest.cons id key node children .nil).heads, c'.key ≠ c.key := by
  obtain ⟨p, g', -, hg', -, hfree⟩ := checkInsert_ok ht h
  obtain rfl := Option.some.inj (hg'.symm.trans hg)
  intro c hc c' hc'
  obtain rfl := List.mem_singleton.1 hc'
  exact Ne.symm (hfree c hc)

/-- An error about a key names the path of the parent. -/
theorem path_of_checkInsert {path : Path} {key' : Step}
    (h : t.checkInsert parent key = .error (.duplicateKey path key')) : path = t.path parent := by
  rw [checkInsert_eq] at h
  cases hl : t.locate? parent with
  | none => simp [hl] at h
  | some l =>
    rw [path_of_place? (locate?_eq_some hl).1]
    simp only [hl] at h
    split at h
    · split at h
      · simp only [Except.error.injEq, FormError.duplicateKey.injEq] at h
        exact h.1.symm
      · simp at h
    · simp at h

/-- What is checked before an insertion has nothing to do with formulas. -/
theorem ne_cycle_of_checkInsert {e : FormError} (h : t.checkInsert parent key = .error e) (paths : List Path) :
    e ≠ .cycle paths := by
  rintro rfl
  rw [checkInsert_eq] at h
  cases hl : t.locate? parent with
  | none => simp [hl] at h
  | some l =>
    simp only [hl] at h
    split at h
    · split at h <;> cases h
    · cases h

theorem checkInsert_of_insert {kind : Kind} {e : FormError} (h : t.insert parent key kind = .error e) :
    t.checkInsert parent key = .error e := by
  unfold FieldTree.insert FieldTree.insertNode at h
  cases hcheck : t.checkInsert parent key with
  | ok _ => simp [hcheck, bind, Except.bind, pure, Except.pure] at h
  | error e => simpa [hcheck, bind, Except.bind] using h

/-- A single node below another one. -/
theorem insertNode_ok (ht : t.WellFormed) {node : Node} (hnode : node.formula = none) {id : NodeId}
    (h : t.insertNode parent key node = .ok (id, t')) :
    id = t.next ∧ Grafts t parent (.cons id key node .nil .nil) t' ∧ t'.next = t.next + 1 := by
  obtain ⟨hcheck, rfl, rfl⟩ := insertNode_effect h
  obtain ⟨p, -, hp, -⟩ := checkInsert_ok ht.keyed hcheck
  refine ⟨rfl, ⟨rfl, ⟨p, hp⟩, ?_, ?_, Nat.le_succ _, ?_, ?_, ?_, ?_⟩, rfl⟩
  · simp [Forest.ids]
  · simp [Forest.ids]
  · simp [Forest.ids]
  · exact ⟨by simp [Forest.heads], trivial, trivial⟩
  · exact fun _ => ne_key_of_checkInsert ht.keyed hcheck
  · exact ⟨by simp [hnode], trivial, trivial⟩

/-- A copy has the next handles. -/
theorem bounds_of_mem_ids_copied {l : Located} {x : NodeId} (hx : x ∈ (t.copied l key).ids) :
    t.next ≤ x ∧ x < t.next + (l.children.copyOrder.length + 1) := by
  simp only [copied, Forest.ids, List.append_nil, List.mem_cons, Forest.ids_copy, List.mem_map] at hx
  rcases hx with rfl | ⟨y, hy, rfl⟩
  · exact ⟨Nat.le_refl _, Nat.lt_add_of_pos_right (Nat.succ_pos _)⟩
  · have hlt := List.idxOf_lt_length_iff.2 (Forest.mem_copyOrder.2 hy)
    refine ⟨Nat.le_trans (Nat.le_succ _) (Nat.le_add_right _ _), ?_⟩
    rw [Nat.add_assoc, Nat.add_comm 1]
    exact Nat.add_lt_add_left (Nat.succ_lt_succ hlt) _

/-- No two nodes of a copy have the same handle. -/
theorem nodup_ids_copied {l : Located} (h : l.children.ids.Nodup) : (t.copied l key).ids.Nodup := by
  simp only [copied, Forest.ids, List.append_nil, List.nodup_cons, Forest.ids_copy, List.mem_map, not_exists, not_and]
  refine ⟨fun y _ hy => Nat.ne_of_gt ?_ hy, List.Nodup.map_on (fun x hx y hy he => ?_) h⟩
  · rw [Nat.add_assoc, Nat.add_comm 1]
    exact Nat.lt_add_of_pos_right (Nat.succ_pos _)
  · have hindex : l.children.copyOrder.idxOf x = l.children.copyOrder.idxOf y := Nat.add_left_cancel he
    exact (List.idxOf_inj (Forest.mem_copyOrder.2 hx)).1 hindex

/-- Only fields have formulas in a copy. -/
theorem formulas_copied (ht : t.WellFormed) {l : Located} {source : NodeId} (hl : t.locate? source = some l) :
    (t.copied l key).Holds fun n => n.formula.isSome → n.kind = .field := by
  obtain ⟨hsource, hbelow, -⟩ := locate?_eq_some hl
  have hall : l.children.Holds fun n => n.formula.isSome → n.kind = .field :=
    Forest.holds_of_spot? (nodup_below? ht.keyed hbelow).1 fun x s hs => by
      have hx := place?_below ht.keyed hsource hbelow (Forest.mem_ids_of_spot? hs)
      rw [hs] at hx
      exact ht.formulas x _ hx
  exact ⟨fun hF => ht.formulas source _ hsource hF, Forest.holds_copy hall fun n hn => hn, trivial⟩

/-- A copy of a subtree below another node. The root of the copy gets the first of the new handles. -/
theorem copySubtree_ok (ht : t.WellFormed) {source : NodeId} {created : List NodeId}
    (h : t.copySubtree source parent key = .ok (created, t')) :
    ∃ l, t.locate? source = some l ∧ created.head? = some t.next ∧
      Grafts t parent (t.copied l key) t' ∧ (∀ x ∈ (t.copied l key).ids, x ∈ created) ∧
      created.Nodup ∧ ∀ x ∈ created, t.next ≤ x := by
  obtain ⟨l, hl, hcheck, rfl, rfl⟩ := copySubtree_effect h
  obtain ⟨p, -, hp, -⟩ := checkInsert_ok ht.keyed hcheck
  obtain ⟨-, hbelow, -⟩ := locate?_eq_some hl
  have hgrafts : Grafts t parent (t.copied l key)
      { t.graft parent (t.copied l key) with next := t.next + (l.children.copyOrder.length + 1) } :=
    { eq := rfl
      placed := ⟨p, hp⟩
      fresh := fun _ hx => (bounds_of_mem_ids_copied hx).1
      bound := fun _ hx => (bounds_of_mem_ids_copied hx).2
      next := Nat.le_add_right _ _
      nodup := nodup_ids_copied (nodup_below? ht.keyed hbelow).1
      keys := ⟨by simp [Forest.heads], Forest.distinctKeys_copy (distinctKeys_below? ht.keyed hbelow), trivial⟩
      free := fun _ => ne_key_of_checkInsert ht.keyed hcheck
      formulas := formulas_copied ht hl }
  exact ⟨l, hl, rfl, hgrafts, fun _ hx => List.mem_range'_1.2 (bounds_of_mem_ids_copied hx), List.nodup_range',
    fun _ hx => (List.mem_range'_1.1 hx).1⟩

/-- A copy is refused for the reasons for which a new node is. -/
theorem checkInsert_of_copySubtree {source : NodeId} {p : Place} (hp : t.place? source = some p)
    {e : FormError} (h : t.copySubtree source parent key = .error e) :
    t.checkInsert parent key = .error e := by
  obtain ⟨l, hl, -⟩ := exists_locate? hp
  unfold copySubtree require at h
  cases hcheck : t.checkInsert parent key with
  | ok _ => simp [hl, hcheck, bind, Except.bind, pure, Except.pure] at h
  | error e' => simpa [hl, hcheck, bind, Except.bind] using h

theorem ne_cycle_of_copySubtree {source : NodeId} {e : FormError} (h : t.copySubtree source parent key = .error e)
    (paths : List Path) : e ≠ .cycle paths := by
  cases hl : t.locate? source with
  | some l => exact ne_cycle_of_checkInsert (checkInsert_of_copySubtree (locate?_eq_some hl).1 h) paths
  | none =>
    simp [copySubtree, require, hl, bind, Except.bind] at h
    rw [← h]
    exact FormError.noConfusion

/-- A copy that has been made could be made. -/
theorem checkInsert_of_copied {source : NodeId} {created : List NodeId}
    (h : t.copySubtree source parent key = .ok (created, t')) : t.checkInsert parent key = .ok () := by
  obtain ⟨-, -, hcheck, -⟩ := copySubtree_effect h
  exact hcheck

/-- A group refuses a name only if it has a child of that name. -/
theorem checkInsert_error {p : Place} (hp : t.place? parent = some p) (hkind : p.node.kind = .group)
    {name : String} {e : FormError} (h : t.checkInsert parent (.name name) = .error e) :
    e = .duplicateKey (t.path parent) (.name name) := by
  obtain ⟨l, hl, rfl⟩ := exists_locate? hp
  have hk : l.node.kind = .group := hkind
  rw [checkInsert_eq] at h
  rw [path_of_place? hp]
  simp only [hl, hk, keyFits, if_true] at h
  split at h
  · exact (Except.error.inj h).symm
  · simp at h

section NewNode

variable {kind : Kind} {formula : Option String}

/-- A new node. An array has an empty template. -/
def newNode (id : NodeId) (key : Step) (kind : Kind) (formula : Option String) : Forest :=
  .cons id key { kind, formula }
    (if kind = .array then
      .cons (id + 1) (.index templateIndex) { kind := .group, isTemplate := true } .nil .nil
    else .nil) .nil

/-- The tree with a new node under a parent. -/
def withNew (t : FieldTree) (parent : NodeId) (key : Step) (kind : Kind) (formula : Option String) :
    FieldTree :=
  { t.graft parent (newNode t.next key kind formula) with
    next := if kind = .array then t.next + 2 else t.next + 1 }

theorem ids_newNode (id : NodeId) : (newNode id key kind formula).ids =
    if kind = .array then [id, id + 1] else [id] := by
  unfold newNode
  split <;> simp [Forest.ids]

/-- An allowed new node is well-formed, and so is the tree with it. -/
theorem grafts_withNew (ht : t.WellFormed) (hcheck : t.checkInsert parent key = .ok ())
    (hformula : formula.isSome → kind = .field) :
    Grafts t parent (newNode t.next key kind formula) (t.withNew parent key kind formula) := by
  obtain ⟨p, -, hp, -⟩ := checkInsert_ok ht.keyed hcheck
  have hle : t.next + 1 ≤ (t.withNew parent key kind formula).next := by
    unfold withNew
    split
    · exact Nat.le_succ _
    · exact Nat.le_refl _
  refine ⟨rfl, ⟨p, hp⟩, ?_, ?_, Nat.le_of_succ_le hle, ?_, ?_, ?_, ?_⟩
  · intro x hx
    rw [ids_newNode] at hx
    split at hx
    · simp only [List.mem_cons, List.not_mem_nil, or_false] at hx
      rcases hx with rfl | rfl
      · exact Nat.le_refl _
      · exact Nat.le_succ _
    · exact Nat.le_of_eq (List.mem_singleton.1 hx).symm
  · intro x hx
    rw [ids_newNode] at hx
    unfold withNew
    split at hx
    next hk =>
      simp only [List.mem_cons, List.not_mem_nil, or_false] at hx
      simp only [hk, if_true]
      rcases hx with rfl | rfl
      · exact Nat.lt_add_of_pos_right (Nat.succ_pos _)
      · exact Nat.lt_succ_self _
    next hk =>
      rw [List.mem_singleton] at hx
      simp only [hk, if_false, hx]
      exact Nat.lt_succ_self _
  · rw [ids_newNode]
    split
    · simp
    · simp
  · unfold newNode
    refine ⟨by simp [Forest.heads], ?_, trivial⟩
    split
    · exact ⟨by simp [Forest.heads], trivial, trivial⟩
    · trivial
  · exact fun _ => ne_key_of_checkInsert ht.keyed hcheck
  · refine ⟨hformula, ?_, trivial⟩
    split
    · exact ⟨by simp, trivial, trivial⟩
    · trivial

/-- What is done to a node that was added has been done before. -/
theorem modify_graft {x : NodeId} (hx : x ∉ t.fields.ids) (hroot : x ≠ rootId) (g : Node → Node) :
    (t.graft parent new).modify x g = t.graft parent (new.modify x g) := by
  unfold FieldTree.modify FieldTree.graft
  rw [if_neg hroot]
  split
  · rw [Forest.modify_append, Forest.modify_of_not_mem hx]
  · rw [Forest.modify_graft _ hx]

/-- What is added to a node that was added has been added with it. -/
theorem graft_graft {x : NodeId} (hx : x ∉ t.fields.ids) (hroot : x ≠ rootId) {more : Forest} :
    (t.graft parent new).graft x more = t.graft parent (new.graft x more) := by
  unfold FieldTree.graft
  rw [if_neg hroot]
  split
  · rw [Forest.graft_append, Forest.graft_of_not_mem hx]
  · rw [Forest.graft_graft _ hx]

/-- What is added to one node after another is added together. -/
theorem graft_graft_same (h : parent ∉ new.ids) {more : Forest} :
    (t.graft parent new).graft parent more = t.graft parent (new.append more) := by
  unfold FieldTree.graft
  split
  · rw [Forest.append_assoc]
  · rw [Forest.graft_graft_same _ h]

/-- A tree whose next handle is another one. -/
def withNext (t : FieldTree) (next : NodeId) : FieldTree :=
  { t with next := next }

theorem graft_withNext {next : NodeId} : (t.withNext next).graft parent new = (t.graft parent new).withNext next := by
  unfold FieldTree.graft withNext
  split <;> rfl

theorem modify_withNext {x next : NodeId} {g : Node → Node} :
    (t.withNext next).modify x g = (t.modify x g).withNext next := by
  unfold FieldTree.modify withNext
  split <;> rfl

/-- The next handle is not in use. -/
theorem WellFormed.unused (ht : t.WellFormed) {x : NodeId} (hx : t.next ≤ x) : x ∉ t.fields.ids ∧ x ≠ rootId :=
  ⟨fun h => Nat.lt_irrefl _ (Nat.lt_of_lt_of_le (ht.lt_next x h) hx), Nat.ne_of_gt (Nat.lt_of_lt_of_le ht.next_pos hx)⟩

/-- A new node that is no array is complete but for its formula. -/
theorem insert_ok (ht : t.WellFormed) {id : NodeId}
    (h : t.insert parent key kind = .ok (id, t')) : id = t.next ∧
      t.checkInsert parent key = .ok () ∧
      (kind ≠ .array → t' = t.withNew parent key kind none) ∧
      (kind = .array → t'.insertTemplate id = .ok (t.next + 1, t.withNew parent key .array none)) := by
  obtain ⟨rfl, hgraft, hnext⟩ := insertNode_ok ht rfl h
  obtain ⟨hcheck, -⟩ := insertNode_effect h
  refine ⟨rfl, hcheck, fun hkind => ?_, ?_⟩
  · rw [hgraft.eq, withNew, newNode, if_neg hkind, if_neg hkind, hnext]
  · rintro rfl
    obtain ⟨p, hp⟩ := hgraft.placed
    obtain ⟨l, hl, hplace⟩ := exists_locate? (hgraft.place?_root ht hp)
    have hbelow : t'.below? t.next = some .nil := by
      rw [hgraft.eq]
      exact (below?_graft_new ht.keyed hp (Nat.le_refl _)).trans (by rw [Forest.below?, if_pos rfl])
    have hkind : l.node.kind = .array := by
      have : l.place.node.kind = .array := by rw [hplace]
      exact this
    have hchildren : l.children = .nil := by
      rw [below?, hl] at hbelow
      exact Option.some.inj hbelow
    have hcheck' : t'.checkInsert t.next (.index templateIndex) = .ok () := by
      rw [checkInsert_eq, hl]
      simp [hkind, hchildren, keyFits, Forest.childByKey?]
    obtain ⟨hunused, hroot⟩ := ht.unused (Nat.le_refl t.next)
    have heq : t' = (t.graft parent (.cons t.next key { kind := .array } .nil .nil)).withNext t'.next := hgraft.eq
    have hgrafts : t'.graft t.next
        (.cons (t.next + 1) (.index templateIndex) { kind := .group, isTemplate := true } .nil .nil) =
          (t.graft parent (newNode t.next key .array none)).withNext t'.next := by
      rw [heq, graft_withNext, graft_graft hunused hroot, newNode, if_pos rfl, Forest.graft, if_pos rfl]
      rfl
    unfold insertTemplate FieldTree.insertNode require
    simp only [hl, bind, Except.bind, hkind, hcheck', pure, Except.pure, ne_eq, not_true_eq_false,
      if_false, hnext, hgrafts, withNew, newNode, if_true]
    rfl

/-- A new node is given its formula. -/
theorem setFormula_withNew (ht : t.WellFormed) (hcheck : t.checkInsert parent key = .ok ()) :
    (t.withNew parent key kind none).setFormula t.next formula =
      .ok (t.withNew parent key kind formula) := by
  have hgraft : Grafts t parent (newNode t.next key kind none) (t.withNew parent key kind none) :=
    grafts_withNew ht hcheck (by simp)
  obtain ⟨p, hp⟩ := hgraft.placed
  obtain ⟨l, hl, -⟩ := exists_locate? (hgraft.place?_root ht hp)
  obtain ⟨hunused, hroot⟩ := ht.unused (Nat.le_refl t.next)
  have hc := hgraft.nodup
  simp only [newNode, Forest.ids, List.append_nil, List.nodup_cons] at hc
  unfold setFormula require
  simp only [hl, bind, Except.bind, pure, Except.pure, Except.ok.injEq]
  have hmodify : (t.withNew parent key kind none).modify t.next (fun n => { n with formula }) =
      ((t.graft parent (newNode t.next key kind none)).modify t.next fun n => { n with formula }).withNext
        (t.withNew parent key kind none).next := modify_withNext
  rw [modify_graft hunused hroot, newNode, Forest.modify, if_pos rfl, Forest.modify_of_not_mem hc.1] at hmodify
  exact hmodify

end NewNode

section Leaving

variable {id : NodeId}

/-- What is added and removed again leaves nothing behind. -/
theorem without_graft_self (hid : id ∉ t.fields.ids) {node : Node} {children : Forest} :
    (t.graft parent (.cons id key node children .nil)).without id = t := by
  unfold FieldTree.without FieldTree.graft
  split
  · have herase : (t.fields.append (.cons id key node children .nil)).erase id = t.fields := by
      rw [Forest.erase_append, Forest.erase_of_not_mem hid, Forest.erase, if_pos rfl]
      exact Forest.append_nil _
    simp only [herase]
  · simp only [Forest.erase_graft_self _ hid]

/-- What is added elsewhere stays when a node is removed. -/
theorem without_graft_comm (hid : id ∉ new.ids) :
    (t.graft parent new).without id = (t.without id).graft parent new := by
  unfold FieldTree.without FieldTree.graft
  split
  · simp only [Forest.erase_append, Forest.erase_of_not_mem hid]
  · simp only [Forest.erase_graft_comm _ hid]

variable {node : Node} {children : Forest}

theorem Grafts.without (h : Grafts t parent (.cons id key node children .nil) t')
    (ht : t.WellFormed) : t'.without id = { t with next := t'.next } := by
  have hid : id ∉ t.fields.ids := fun hm =>
    Nat.not_lt.2 (h.fresh id (by simp [Forest.ids])) (ht.lt_next _ hm)
  have hself : (t.graft parent (.cons id key node children .nil)).without id = t := without_graft_self hid
  calc
    t'.without id = { (t.graft parent (.cons id key node children .nil)).without id with
        next := t'.next } := by rw [h.eq]; rfl
    _ = { t with next := t'.next } := by rw [hself]

/-- What is below the root of an added subtree has been added. -/
theorem Grafts.within_iff (h : Grafts t parent (.cons id key node children .nil) t')
    (ht : t.WellFormed) {x : NodeId} :
    t'.Within id x ↔ x ∈ (Forest.cons id key node children .nil).ids := by
  have ht' := h.wellFormed ht
  have hmem : id ∈ (Forest.cons id key node children .nil).ids := by simp [Forest.ids]
  have hid : id ≠ rootId := Nat.ne_of_gt (Nat.lt_of_lt_of_le ht.next_pos (h.fresh id hmem))
  have hplace : (t'.without id).place? x = t.place? x := by
    rw [h.without ht]
    rfl
  constructor
  · intro hx
    rw [place?_without_of_within ht'.keyed hid hx] at hplace
    by_contra hnot
    obtain ⟨_, q, _, hq, _⟩ := hx
    rw [h.place?_old ht hnot, ← hplace] at hq
    simp at hq
  · intro hx
    by_contra hnot
    rw [place?_without_of_not_within ht'.keyed hid hnot, h.place?_new ht hx] at hplace
    obtain ⟨p, hp⟩ := h.placed
    rw [h.place? ht hp, if_pos hx, Option.map_eq_none_iff, Forest.spot?_eq_none] at hplace
    exact hplace hx

end Leaving

end LiveForm.FieldTree
