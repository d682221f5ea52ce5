import LiveForm.Proofs.Tree.Arrays

/-!
# Planting forests at several places

A node that is added to an array is added to its template and to all its elements. Each of these additions can be
taken back on its own, in whichever order they were made.
-/

set_option autoImplicit false

namespace LiveForm.FieldTree

variable {t t' : FieldTree} {parent x : NodeId} {key : Step} {new : Forest} {n : NodeId}
  {plants : List (NodeId × Forest)} {node : Node} {children : Forest}

/-- A tree with forests added under some of its nodes. -/
def planted (t : FieldTree) (plants : List (NodeId × Forest)) : FieldTree :=
  plants.foldl (fun t plant => t.graft plant.1 plant.2) t

theorem place?_withNext : (t.withNext n).place? x = t.place? x := rfl

theorem without_withNext : (t.withNext n).without x = (t.without x).withNext n := rfl

theorem planted_withNext : (t.withNext n).planted plants = (t.planted plants).withNext n := by
  induction plants generalizing t with
  | nil => rfl
  | cons plant rest ih =>
    have hcons (t : FieldTree) : t.planted (plant :: rest) = (t.graft plant.1 plant.2).planted rest := rfl
    rw [hcons, hcons, graft_withNext, ih]

theorem planted_concat : t.planted (plants ++ [(parent, new)]) = (t.planted plants).graft parent new := by
  rw [planted, List.foldl_append]
  rfl

/-- Additions elsewhere do not matter for a removal. -/
theorem without_planted (h : ∀ plant ∈ plants, x ∉ plant.2.ids) :
    (t.planted plants).without x = (t.without x).planted plants := by
  induction plants generalizing t with
  | nil => rfl
  | cons plant rest ih =>
    have hcons (t : FieldTree) : t.planted (plant :: rest) = (t.graft plant.1 plant.2).planted rest := rfl
    rw [hcons, hcons, ih fun p hp => h p (List.mem_cons_of_mem _ hp),
      without_graft_comm (h plant List.mem_cons_self)]

/-- The first of several additions is taken back. -/
theorem without_planted_cons (hx : x ∉ t.fields.ids) (h : ∀ plant ∈ plants, x ∉ plant.2.ids) :
    (t.planted ((parent, .cons x key node children .nil) :: plants)).without x = t.planted plants := by
  have hcons : t.planted ((parent, .cons x key node children .nil) :: plants) =
      (t.graft parent (.cons x key node children .nil)).planted plants := rfl
  rw [hcons, without_planted h, without_graft_self hx]

/-- What is in a tree is still there after additions. -/
theorem mem_ids_planted (hx : x ∈ t.fields.ids) : x ∈ (t.planted plants).fields.ids := by
  induction plants generalizing t with
  | nil => exact hx
  | cons plant rest ih => exact ih (mem_ids_graft.2 (.inl hx))

/-- An old node stays in its place. -/
theorem place?_graft_of_not_mem (hx : x ∉ new.ids) : (t.graft parent new).place? x = t.place? x := by
  by_cases hroot : x = rootId
  · subst hroot
    unfold graft
    split <;> rfl
  · rw [place?_of_ne_root _ hroot, place?_of_ne_root t hroot]
    unfold graft
    split
    · rw [Forest.spot?_append, Forest.spot?_eq_none.2 hx, Option.or_none]
      rfl
    · rw [Forest.spot?_graft_of_not_mem hx]
      rfl

theorem place?_planted (hx : ∀ plant ∈ plants, x ∉ plant.2.ids) :
    (t.planted plants).place? x = t.place? x := by
  induction plants generalizing t with
  | nil => rfl
  | cons plant rest ih =>
    have hcons : t.planted (plant :: rest) = (t.graft plant.1 plant.2).planted rest := rfl
    rw [hcons, ih fun p hp => hx p (List.mem_cons_of_mem _ hp),
      place?_graft_of_not_mem (hx plant List.mem_cons_self)]

theorem Grafts.shaped (h : Grafts t parent new t') (ht : t.WellFormed) (hs : t.Shaped) {p : Place}
    (hp : t.place? parent = some p) (hnew : new.Shaped p.node.kind) : t'.Shaped := by
  rw [h.eq]
  exact hs.graft ht hp hnew

theorem shaped_newNode (id : NodeId) (key : Step) (kind : Kind) (formula : Option String)
    {above : Kind} (habove : above ≠ .array) : (newNode id key kind formula).Shaped above := by
  refine ⟨fun h => by simp at h, fun h => absurd h habove, ?_, trivial⟩
  split
  · exact ⟨fun _ => rfl, fun _ => ⟨rfl, templateIndex, rfl, Int.le_refl _⟩, trivial, trivial⟩
  · trivial

/-- A copy fits below an array if it is a copy of a group and gets an index. -/
theorem Shaped.copied (hs : t.Shaped) (ht : t.WellFormed) {l : Located} {source : NodeId}
    (hl : t.locate? source = some l) {above : Kind}
    (habove : above = .array → l.node.kind = .group ∧ key.IsSlot) :
    (t.copied l key).Shaped above := by
  obtain ⟨hp, hg, -⟩ := locate?_eq_some hl
  exact ⟨fun h => by simp at h, habove, Forest.shaped_copy _ (hs.below? ht hp hg), trivial⟩

section Copies

variable {kind : Kind} {formula : Option String} {copies : List (NodeId × NodeId)}

/-- A tree with the same new node under several parents, each with a handle of its own. -/
def withCopies (t : FieldTree) (key : Step) (kind : Kind) (formula : Option String)
    (copies : List (NodeId × NodeId)) : FieldTree :=
  t.planted (copies.map fun copy => (copy.1, newNode copy.2 key kind formula))

theorem withCopies_concat {id : NodeId} : t.withCopies key kind formula (copies ++ [(parent, id)]) =
    (t.withCopies key kind formula copies).graft parent (newNode id key kind formula) := by
  rw [withCopies, List.map_append]
  exact planted_concat

theorem place?_withCopies (hx : ∀ copy ∈ copies, x ∉ (newNode copy.2 key kind formula).ids) :
    (t.withCopies key kind formula copies).place? x = t.place? x := by
  refine place?_planted fun plant hplant => ?_
  obtain ⟨copy, hcopy, rfl⟩ := List.mem_map.1 hplant
  exact hx copy hcopy

/-- The first of several copies is taken back. -/
theorem without_withCopies {id : NodeId} (hid : id ∉ t.fields.ids)
    (h : ∀ copy ∈ copies, id ∉ (newNode copy.2 key kind formula).ids) :
    (t.withCopies key kind formula ((parent, id) :: copies)).without id =
      t.withCopies key kind formula copies := by
  refine without_planted_cons hid fun plant hplant => ?_
  obtain ⟨copy, hcopy, rfl⟩ := List.mem_map.1 hplant
  exact h copy hcopy

theorem mem_ids_withCopies {copy : NodeId × NodeId} (hcopy : copy ∈ copies)
    (hparent : copy.1 = rootId ∨ copy.1 ∈ t.fields.ids) :
    copy.2 ∈ (t.withCopies key kind formula copies).fields.ids := by
  obtain ⟨l, l', rfl⟩ := List.append_of_mem hcopy
  unfold withCopies planted
  rw [List.map_append, List.foldl_append, List.map_cons, List.foldl_cons]
  refine mem_ids_planted (mem_ids_graft.2 (.inr ⟨?_, by simp [newNode, Forest.ids]⟩))
  exact hparent.imp_right fun hp => mem_ids_planted hp

/-- Nodes that get no copies keep their children. -/
theorem children_withCopies (hparents : x ∉ copies.map Prod.fst)
    (hx : ∀ copy ∈ copies, x ∉ (newNode copy.2 key kind formula).ids) :
    (t.withCopies key kind formula copies).children x = t.children x := by
  induction copies generalizing t with
  | nil => rfl
  | cons copy copies ih =>
    simp only [List.map_cons, List.mem_cons, not_or] at hparents
    have hstep := ih (t := t.graft copy.1 (newNode copy.2 key kind formula)) hparents.2
      fun c hc => hx c (List.mem_cons_of_mem _ hc)
    exact hstep.trans (children_graft (Ne.symm hparents.1) (hx copy List.mem_cons_self))

/-- A copy of a new node is a new node. -/
theorem copied_newNode {l : Located} {id : NodeId} (hnode : l.node = { kind, formula })
    (hchildren : .cons id key l.node l.children .nil = newNode id key kind formula) :
    t.copied l key = newNode t.next key kind formula := by
  have hbelow : l.children = if kind = .array then
      .cons (id + 1) (.index templateIndex) { kind := .group, isTemplate := true } .nil .nil
      else .nil := by
    simp only [newNode, Forest.cons.injEq] at hchildren
    exact hchildren.2.2.2.1
  unfold copied
  rw [hnode, hbelow, newNode]
  split
  · simp [Forest.copy, Forest.copyOrder, Forest.heads, Forest.copyOrderBelow, Node.forCopy]
  · simp [Forest.copy, Node.forCopy]

/-- A node is as new as when it was added. -/
def Untouched (t : FieldTree) (id : NodeId) (key : Step) (kind : Kind) (formula : Option String) :
    Prop :=
  ∃ l, t.locate? id = some l ∧ .cons id key l.node l.children .nil = newNode id key kind formula

/-- The copy of an untouched node is a new node. -/
theorem Untouched.copySubtree {source : NodeId} (h : t.Untouched source key kind formula) {created : List NodeId}
    (hcopy : t.copySubtree source parent key = .ok (created, t')) : t' = t.withNew parent key kind formula := by
  obtain ⟨l, hl, hnew⟩ := h
  have hnode : l.node = { kind, formula } := by
    simp only [newNode, Forest.cons.injEq] at hnew
    exact hnew.2.2.1
  have hlength : l.children.copyOrder.length + 1 = if kind = .array then 2 else 1 := by
    simp only [newNode, Forest.cons.injEq] at hnew
    rw [hnew.2.2.2.1]
    split <;> rfl
  have hcopied : t.copied l key = newNode t.next key kind formula := copied_newNode hnode hnew
  obtain ⟨l', hl', -, -, rfl⟩ := copySubtree_effect hcopy
  obtain rfl := Option.some.inj (hl.symm.trans hl')
  rw [hlength, withNew, ← hcopied]
  split <;> rfl

/-- A node that was added is untouched. -/
theorem Grafts.untouched (h : Grafts t parent (newNode t.next key kind formula) t')
    (ht : t.WellFormed) : t'.Untouched t.next key kind formula := by
  obtain ⟨p, hp⟩ := h.placed
  obtain ⟨l, hl, hplace⟩ := exists_locate? (h.place?_root ht hp)
  have hnode : l.place.node = { kind, formula } := by rw [hplace]
  have hnode' : l.node = { kind, formula } := hnode
  have hbelow : t'.below? t.next = (newNode t.next key kind formula).below? t.next := by
    rw [h.eq]
    exact below?_graft_new ht.keyed hp (Nat.le_refl _)
  refine ⟨l, hl, ?_⟩
  rw [below?, hl, newNode, Forest.below?, if_pos rfl] at hbelow
  rw [newNode, hnode', ← Option.some.inj hbelow]

/-- A node stays untouched if something is added elsewhere. -/
theorem Untouched.grafts {id : NodeId} (h : t.Untouched id key kind formula) (ht : t.WellFormed)
    (hid : id ≠ rootId) (hgraft : Grafts t parent new t')
    (hparent : parent ∉ (newNode id key kind formula).ids) : t'.Untouched id key kind formula := by
  obtain ⟨l, hl, hnew⟩ := h
  obtain ⟨hp, hg, -⟩ := locate?_eq_some hl
  have hids : id ∉ new.ids := fun hc => by
    have := hgraft.place?_new ht hc
    simp [hp] at this
  rw [← hnew] at hparent
  simp only [Forest.ids, List.append_nil, List.mem_cons, not_or] at hparent
  have hg' : t'.below? id = some l.children := by
    rw [hgraft.eq]
    exact below?_graft_other hg hid hparent.1 hparent.2 hids
  have hp' : t'.place? id = some l.place := by rw [hgraft.place?_old ht hids, hp]
  obtain ⟨l', hl', hplace⟩ := exists_locate? hp'
  have hnode : l'.node = l.node := congrArg Place.node hplace
  have hchildren : l'.children = l.children := by
    rw [below?, hl'] at hg'
    exact Option.some.inj hg'
  exact ⟨l', hl', by rw [hnode, hchildren, hnew]⟩

end Copies

theorem isSome_place?_of_mem_ids (hx : x ∈ t.fields.ids) : (t.place? x).isSome := by
  rw [Option.isSome_iff_ne_none]
  intro hnone
  exact (place?_eq_none.1 hnone).2 hx

end LiveForm.FieldTree
