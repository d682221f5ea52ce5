import LiveForm.Proofs.Tree.Linked
import LiveForm.Proofs.Tree.Planting

/-!
# Faithful copies

A copy of a subtree consists of new nodes, one for each node of the subtree: its twin. Twins hang together as the nodes
that they are copied from do, under the same keys and in the same order, and they carry the same data. Only the topmost
twin stands elsewhere, under a key of its own, and what formulas have yielded is not copied. Apart from the copy, which
is the last child of its parent, the tree is as it was.
-/

set_option autoImplicit false

namespace LiveForm

/-- The spot of a node's counterpart in a copy of the forest. -/
def Spot.copied (s : Spot) (rename : NodeId → NodeId) : Spot :=
  { s with node := s.node.forCopy, parent := s.parent.map rename }

namespace Forest

variable {f : Forest} {rename other : NodeId → NodeId} {x p : NodeId} {s : Spot}

theorem copy_congr (h : ∀ y ∈ f.ids, rename y = other y) : f.copy rename = f.copy other := by
  induction f with
  | nil => rfl
  | cons id key node children siblings ihc ihs =>
    simp only [ids, List.forall_mem_cons, List.forall_mem_append] at h
    rw [copy, copy, h.1, ihc h.2.1, ihs h.2.2]

/-- A node and its counterpart are in the same spot, as long as no other node has the same counterpart. -/
theorem spot?_copy (h : ∀ y ∈ f.ids, rename y = rename x → y = x) :
    (f.copy rename).spot? (rename x) = (f.spot? x).map (·.copied rename) := by
  induction f with
  | nil => rfl
  | cons id key node children siblings ihc ihs =>
    simp only [ids, List.forall_mem_cons, List.forall_mem_append] at h
    obtain ⟨hid, hc, hs⟩ := h
    rw [copy, spot?, spot?, ihc hc, ihs hs]
    by_cases hx : id = x
    · rw [if_pos (congrArg rename hx), if_pos hx]
      rfl
    · rw [if_neg fun he => hx (hid he), if_neg hx, Option.map_or]
      congr 1
      cases children.spot? x with
      | none => rfl
      | some s =>
        cases hparent : s.parent <;> simp [Spot.copied, Spot.beneath, Node.forCopy, hparent]

/-- What is below the counterpart of a node is a copy of what is below the node. -/
theorem below?_copy (h : ∀ y ∈ f.ids, rename y = rename x → y = x) :
    (f.copy rename).below? (rename x) = (f.below? x).map (·.copy rename) := by
  induction f with
  | nil => rfl
  | cons id key node children siblings ihc ihs =>
    simp only [ids, List.forall_mem_cons, List.forall_mem_append] at h
    obtain ⟨hid, hc, hs⟩ := h
    rw [copy, below?, below?, ihc hc, ihs hs]
    by_cases hx : id = x
    · rw [if_pos (congrArg rename hx), if_pos hx]
      rfl
    · rw [if_neg fun he => hx (hid he), if_neg hx, Option.map_or]

/-- A node is copied after its parent. -/
theorem sublist_copyOrder (hs : f.spot? x = some s) (hp : s.parent = some p) : [p, x].Sublist f.copyOrder := by
  induction f generalizing s with
  | nil => simp [spot?] at hs
  | cons id key node children siblings ihc ihs =>
    rw [copyOrder_cons]
    rcases spot?_cases hs with ⟨-, rfl⟩ | ⟨-, u, hu, rfl⟩ | ⟨-, -, hs⟩
    · simp at hp
    · cases hparent : u.parent with
      | none =>
        obtain rfl : id = p := by simpa [Spot.beneath, hparent] using hp
        have hx : x ∈ children.copyOrder := mem_copyOrder.2 (mem_ids_of_spot? hu)
        exact (List.singleton_sublist.2 (List.mem_append_right _ hx)).cons_cons id
      | some q =>
        obtain rfl : q = p := by simpa [Spot.beneath, hparent] using hp
        exact ((ihc hu hparent).trans (List.sublist_append_right _ _)).cons id
    · exact ((ihs hs hp).trans (List.sublist_append_left _ _)).cons id

end Forest

namespace FieldTree

/-- A tree has got a copy of the subtree at `source`, as the last child of `parent`. The new nodes are the twins of the
nodes of the subtree. -/
structure Copies (t : FieldTree) (source parent : NodeId) (key : Step) (twin : NodeId → NodeId) (created : List NodeId)
    (t' : FieldTree) : Prop where
  keyed : t'.Keyed
  new : ∀ y, y ∈ created ↔ t'.contains y = true ∧ t.contains y = false
  nodup : created.Nodup
  head : created.head? = some (twin source)
  /-- Every other node is created after its parent. -/
  order : ∀ y ∈ created, y ≠ twin source → ∃ upper, t'.parent? y = some upper ∧ [upper, y].Sublist created
  twins : ∀ y, y ∈ created ↔ ∃ x, t.Within source x ∧ twin x = y
  injective : ∀ x y, t.Within source x → t.Within source y → twin x = twin y → x = y
  root : t'.parent? (twin source) = some parent
  parents : ∀ x, t.Within source x → x ≠ source → t'.parent? (twin x) = (t'.parent? x).map twin
  children : ∀ x, t.Within source x →
    (t'.children (twin x)).map (fun c => (c.id, c.key)) = (t'.children x).map fun c => (twin c.id, c.key)
  /-- The copy is no template itself, whereas templates below it stay templates. -/
  data : ∀ x n, t.Within source x → t'.get? x = some n →
    t'.get? (twin x) = some { n with formulaValue := none, isTemplate := n.isTemplate && x ≠ source }
  templates : ∀ x, t.Within source x → (t'.inTemplate (twin x) = true ↔ t.inTemplate parent = true ∨
    ∃ upper n, upper ≠ source ∧ t.Within source upper ∧ t.Within upper x ∧ t.get? upper = some n ∧
      n.isTemplate = true)
  /-- Nodes that were there keep their keys, their data, their parents and their paths. -/
  place : ∀ y, t.contains y = true → t'.place? y = t.place? y
  last : ∃ n, t'.children parent = t.children parent ++ [⟨twin source, key, n⟩]
  others : ∀ y, t.contains y = true → y ≠ parent → t'.children y = t.children y

variable {t t' : FieldTree} {l : Located} {source parent x y : NodeId} {key : Step} {p : Place}

theorem within_antisymm (ht : t.Keyed) (hxy : t.Within x y) (hyx : t.Within y x) : x = y := by
  obtain ⟨p, q, hp, hq, hpre⟩ := hxy
  obtain ⟨q', p', hq', hp', hpre'⟩ := hyx
  obtain rfl := Option.some.inj (hp.symm.trans hp')
  obtain rfl := Option.some.inj (hq.symm.trans hq')
  have hsteps : p.path.steps = q.path.steps := hpre.eq_of_length (Nat.le_antisymm hpre.length_le hpre'.length_le)
  refine eq_of_path_eq ht hp hq ?_
  cases hpath : p.path
  cases hpath' : q.path
  simpa [hpath, hpath'] using hsteps

/-- The counterpart of a node in the next copy of a subtree. -/
def twin (t : FieldTree) (l : Located) (x : NodeId) : NodeId :=
  if x = l.id then t.next else t.next + 1 + l.children.copyOrder.idxOf x

/-- A tree with a copy of one of its subtrees. -/
def withCopy (t : FieldTree) (l : Located) (parent : NodeId) (key : Step) : FieldTree :=
  { t.graft parent (t.copied l key) with next := t.next + (l.children.copyOrder.length + 1) }

theorem twin_id (t : FieldTree) (l : Located) : t.twin l l.id = t.next :=
  if_pos rfl

section Order

theorem within_iff_mem_order (ht : t.Keyed) (hl : t.locate? source = some l) :
    t.Within source x ↔ x ∈ source :: l.children.copyOrder := by
  rw [within_iff ht (locate?_eq_some hl).2.1, List.mem_cons, Forest.mem_copyOrder]

/-- The twins get the next handles, in the order in which they are made. -/
theorem map_twin (ht : t.Keyed) (hl : t.locate? source = some l) :
    (source :: l.children.copyOrder).map (t.twin l) = List.range' t.next (l.children.copyOrder.length + 1) := by
  obtain ⟨-, hg, rfl⟩ := locate?_eq_some hl
  obtain ⟨hnodup, hself⟩ := nodup_below? ht hg
  have hdistinct : l.children.copyOrder.Nodup := l.children.perm_copyOrder.nodup_iff.2 hnodup
  rw [List.map_cons, twin_id, List.range'_succ]
  congr 1
  refine List.ext_getElem (by simp) fun i hi _ => ?_
  have hi' : i < l.children.copyOrder.length := by simpa using hi
  have hne : l.children.copyOrder[i] ≠ l.id := fun he =>
    hself (he ▸ Forest.mem_copyOrder.1 (List.getElem_mem hi'))
  rw [List.getElem_map, twin, if_neg hne, hdistinct.idxOf_getElem, List.getElem_range', Nat.one_mul]

theorem twin_injective (ht : t.Keyed) (hl : t.locate? source = some l) (hx : t.Within source x)
    (hy : t.Within source y) (h : t.twin l x = t.twin l y) : x = y := by
  have hnodup : ((source :: l.children.copyOrder).map (t.twin l)).Nodup := by
    rw [map_twin ht hl]
    exact List.nodup_range'
  exact List.inj_on_of_nodup_map hnodup ((within_iff_mem_order ht hl).1 hx) ((within_iff_mem_order ht hl).1 hy) h

theorem le_twin (t : FieldTree) (l : Located) (x : NodeId) : t.next ≤ t.twin l x := by
  unfold twin
  split
  · exact Nat.le_refl _
  · exact Nat.le_trans (Nat.le_succ _) (Nat.le_add_right _ _)

/-- No node has the handle of a twin. -/
theorem contains_twin (ht : t.Keyed) (l : Located) (x : NodeId) : t.contains (t.twin l x) = false := by
  rw [contains_eq, Option.isSome_eq_false_iff, Option.isNone_iff_eq_none, place?_eq_none]
  refine ⟨Nat.ne_of_gt (Nat.lt_of_lt_of_le ht.next_pos (le_twin t l x)), fun hmem => ?_⟩
  exact Nat.lt_irrefl _ (Nat.lt_of_lt_of_le (ht.lt_next _ hmem) (le_twin t l x))

/-- The copy, by the twins that it consists of. -/
theorem copied_eq (ht : t.Keyed) (hl : t.locate? source = some l) : t.copied l key =
    .cons (t.twin l source) key { l.node.forCopy with isTemplate := false } (l.children.copy (t.twin l)) .nil := by
  obtain ⟨-, hg, rfl⟩ := locate?_eq_some hl
  obtain ⟨-, hself⟩ := nodup_below? ht hg
  rw [copied, twin_id, Forest.copy_congr fun y hy => ?_]
  have hne : y ≠ l.id := fun he => hself (he ▸ hy)
  rw [twin, if_neg hne]

theorem mem_ids_copied (ht : t.Keyed) (hl : t.locate? source = some l) :
    y ∈ (t.copied l key).ids ↔ ∃ x, t.Within source x ∧ t.twin l x = y := by
  rw [copied_eq ht hl]
  simp only [Forest.ids, Forest.ids_copy, List.append_nil, List.mem_cons, List.mem_map]
  simp only [within_iff ht (locate?_eq_some hl).2.1]
  constructor
  · rintro (rfl | ⟨x, hx, rfl⟩)
    · exact ⟨source, .inl rfl, rfl⟩
    · exact ⟨x, .inr hx, rfl⟩
  · rintro ⟨x, rfl | hx, rfl⟩
    · exact .inl rfl
    · exact .inr ⟨x, hx, rfl⟩

end Order

section Placing

/-- A copy that can be made is made. -/
theorem copySubtree_eq (ht : t.Keyed) (hl : t.locate? source = some l) (hcheck : t.checkInsert parent key = .ok ()) :
    t.copySubtree source parent key =
      .ok ((source :: l.children.copyOrder).map (t.twin l), t.withCopy l parent key) := by
  rw [map_twin ht hl]
  simp only [copySubtree, require, hl, hcheck, bind, Except.bind]
  rfl

variable (ht : t.Keyed) (hl : t.locate? source = some l) (hcheck : t.checkInsert parent key = .ok ())

include ht hl

/-- What is not copied stays where it is. -/
theorem place?_withCopy (hy : t.contains y = true) : (t.withCopy l parent key).place? y = t.place? y := by
  refine place?_graft_of_not_mem fun hmem => ?_
  obtain ⟨x, -, rfl⟩ := (mem_ids_copied ht hl).1 hmem
  simp [contains_twin ht] at hy

theorem children_withCopy_of_ne (hy : t.contains y = true) (hne : y ≠ parent) :
    (t.withCopy l parent key).children y = t.children y := by
  refine children_graft hne.symm fun hmem => ?_
  obtain ⟨x, -, rfl⟩ := (mem_ids_copied ht hl).1 hmem
  simp [contains_twin ht] at hy

theorem twin_injOn {g : Forest} (hg : t.below? source = some g) (hx : x ∈ g.ids) :
    ∀ y ∈ g.ids, t.twin l y = t.twin l x → y = x := by
  intro y hy
  exact twin_injective ht hl ((within_iff ht hg).2 (.inr hy)) ((within_iff ht hg).2 (.inr hx))

/-- The place of the topmost twin. -/
theorem place?_twin_source (hp : t.place? parent = some p) :
    (t.withCopy l parent key).place? (t.twin l source) = some
      { key := some key, node := { l.node.forCopy with isTemplate := false }, parent := some parent,
        path := p.path.child key, inTemplate := p.inTemplate } := by
  have hfresh : ∀ y ∈ (t.copied l key).ids, t.next ≤ y := fun y hy => by
    obtain ⟨x, -, rfl⟩ := (mem_ids_copied ht hl).1 hy
    exact le_twin t l x
  have hplace := place?_graft ht hp hfresh (t.twin l source)
  rw [copied_eq ht hl, if_pos (by simp [Forest.ids]), Forest.spot?, if_pos rfl] at hplace
  rw [withCopy, copied_eq ht hl]
  exact hplace.trans (by simp [Spot.place, Path.child])

/-- Below each twin there is a copy of what is below the node that it was copied from. -/
theorem below?_twin_source (hp : t.place? parent = some p) :
    (t.withCopy l parent key).below? (t.twin l source) = some (l.children.copy (t.twin l)) := by
  have hbelow : (t.graft parent (t.copied l key)).below? (t.twin l source) = _ :=
    below?_graft_new ht hp (le_twin t l source)
  rw [copied_eq ht hl, Forest.below?, if_pos rfl] at hbelow
  rw [withCopy, copied_eq ht hl]
  exact hbelow

include hcheck

theorem keyed_withCopy : (t.withCopy l parent key).Keyed :=
  ht.copySubtree (copySubtree_eq ht hl hcheck)

/-- Where a node of the subtree stands, and where its twin does. -/
theorem exists_spot (hp : t.place? parent = some p) (hx : t.Within source x) (hne : x ≠ source) :
    ∃ s, l.children.spot? x = some s ∧ t.place? x = some (s.place source l.path l.inTemplate) ∧
      (t.withCopy l parent key).place? (t.twin l x) =
        some ((s.copied (t.twin l)).place (t.twin l source) (p.path.child key) p.inTemplate) := by
  obtain ⟨hplace, hg, -⟩ := locate?_eq_some hl
  have hmem : x ∈ l.children.ids := ((within_iff ht hg).1 hx).resolve_left hne
  obtain ⟨s, hs⟩ := Option.isSome_iff_exists.1 ((Forest.isSome_spot? _ _).2 hmem)
  refine ⟨s, hs, ?_, ?_⟩
  · rw [place?_below ht hplace hg hmem, hs]
    rfl
  · have hmem' : t.twin l x ∈ (l.children.copy (t.twin l)).ids := by
      rw [Forest.ids_copy]
      exact List.mem_map_of_mem hmem
    rw [place?_below (keyed_withCopy ht hl hcheck) (place?_twin_source ht hl hp)
      (below?_twin_source ht hl hp) hmem', Forest.spot?_copy (twin_injOn ht hl hg hmem), hs]
    rfl

theorem below?_twin {g : Forest} (hp : t.place? parent = some p) (hx : t.Within source x) (hg : t.below? x = some g) :
    (t.withCopy l parent key).below? (t.twin l x) = some (g.copy (t.twin l)) := by
  obtain ⟨-, hsource, -⟩ := locate?_eq_some hl
  rcases (within_iff ht hsource).1 hx with rfl | hmem
  · obtain rfl := Option.some.inj (hsource.symm.trans hg)
    exact below?_twin_source ht hl hp
  · obtain ⟨g', hg'⟩ := Forest.exists_below? hmem
    obtain rfl := Option.some.inj (hg.symm.trans (below?_of_below? ht hsource hg'))
    refine below?_of_below? (keyed_withCopy ht hl hcheck) (below?_twin_source ht hl hp) ?_
    rw [Forest.below?_copy (twin_injOn ht hl hsource hmem), hg', Option.map_some]

/-- The children of a twin are the twins of the children. -/
theorem children_twin (hp : t.place? parent = some p) (hx : t.Within source x) :
    (t.withCopy l parent key).children (t.twin l x) =
      (t.children x).map fun c => ⟨t.twin l c.id, c.key, c.node.forCopy⟩ := by
  obtain ⟨q, hq⟩ := hx.exists_place?
  obtain ⟨g, hg⟩ := exists_below? hq
  rw [children_eq, children_eq, below?_twin ht hl hcheck hp hx hg, hg]
  exact Forest.heads_copy g

omit hcheck in
theorem parent?_twin_source (hp : t.place? parent = some p) :
    (t.withCopy l parent key).parent? (t.twin l source) = some parent := by
  rw [parent?_eq, place?_twin_source ht hl hp]
  rfl

/-- The parent of a twin is the twin of the parent. -/
theorem parent?_twin (hp : t.place? parent = some p) (hx : t.Within source x) (hne : x ≠ source) :
    (t.withCopy l parent key).parent? (t.twin l x) = (t.parent? x).map (t.twin l) := by
  obtain ⟨s, -, hplace, hplace'⟩ := exists_spot ht hl hcheck hp hx hne
  rw [parent?_eq, parent?_eq, hplace, hplace']
  cases hparent : s.parent <;> simp [Spot.place, Spot.copied, hparent]

theorem get?_twin (hp : t.place? parent = some p) (hx : t.Within source x) {n : Node} (hn : t.get? x = some n) :
    (t.withCopy l parent key).get? (t.twin l x) =
      some { n with formulaValue := none, isTemplate := n.isTemplate && x ≠ source } := by
  rw [get?_eq] at hn ⊢
  by_cases hne : x = source
  · subst hne
    rw [(locate?_eq_some hl).1] at hn
    obtain rfl : l.node = n := Option.some.inj hn
    rw [place?_twin_source ht hl hp]
    simp [Node.forCopy]
  · obtain ⟨s, -, hplace, hplace'⟩ := exists_spot ht hl hcheck hp hx hne
    rw [hplace] at hn
    obtain rfl : s.node = n := Option.some.inj hn
    rw [hplace']
    simp [Spot.place, Spot.copied, Node.forCopy, hne]

/-- A twin is in a template if the copy is put into one, or if it was copied from a template below the source. -/
theorem inTemplate_twin (hp : t.place? parent = some p) (hx : t.Within source x) :
    (t.withCopy l parent key).inTemplate (t.twin l x) = true ↔ t.inTemplate parent = true ∨
      ∃ upper n, upper ≠ source ∧ t.Within source upper ∧ t.Within upper x ∧ t.get? upper = some n ∧
        n.isTemplate = true := by
  have htop : (t.withCopy l parent key).inTemplate (t.twin l source) = true ↔ t.inTemplate parent = true ∨
      ∃ upper n, upper ≠ source ∧ t.Within source upper ∧ t.Within upper source ∧ t.get? upper = some n ∧
        n.isTemplate = true := by
    rw [inTemplate_eq, place?_twin_source ht hl hp, inTemplate_eq, hp]
    refine (or_iff_left ?_).symm
    rintro ⟨upper, n, hne, hupper, hwithin, -⟩
    exact hne (within_antisymm ht hwithin hupper)
  obtain ⟨q, hq⟩ := hx.exists_place?
  -- upwards from the twin to the topmost one, each node adds its own flag to what holds of its parent
  have hascends : t.Ascends x source := ascends_of_within ht hq hx
  induction hascends using Relation.ReflTransGen.head_induction_on generalizing q with
  | refl => exact htop
  | @head x above hparent _ ih =>
    by_cases heq : x = source
    · rw [heq]
      exact htop
    obtain ⟨q', hq', habove⟩ := parent?_eq_some.1 hparent
    have hwithin : t.Within source above := hx.above ht heq hq' habove
    obtain ⟨r, hr⟩ := hwithin.exists_place?
    have hparent' := parent?_twin ht hl hcheck hp hx heq
    rw [hparent, Option.map_some] at hparent'
    obtain ⟨u, hu, hup⟩ := parent?_eq_some.1 hparent'
    have hflag := get?_twin ht hl hcheck hp hx (by rw [get?_eq, hq', Option.map_some])
    rw [get?_eq, hu, Option.map_some, Option.some.injEq] at hflag
    obtain ⟨_, v, -, hup', hv, -, -, hin⟩ := exists_place?_parent (keyed_withCopy ht hl hcheck)
      (ne_root_of_parent hu hup) hu
    obtain rfl := Option.some.inj (hup.symm.trans hup')
    have hstep := ih hwithin r hr
    rw [inTemplate_eq, hv] at hstep
    rw [inTemplate_eq, hu]
    simp only [Option.map_some, Option.getD_some] at hstep ⊢
    rw [hin, Bool.or_eq_true, hflag]
    refine (or_congr_left hstep).trans ⟨?_, ?_⟩
    · rintro ((hin | ⟨upper, n, hne, hupper, hw, hn, htemplate⟩) | htemplate)
      · exact .inl hin
      · exact .inr ⟨upper, n, hne, hupper, hw.trans ((within_refl hr).child ht hq' habove), hn, htemplate⟩
      · exact .inr ⟨x, q'.node, heq, hx, within_refl hq', by rw [get?_eq, hq', Option.map_some],
          ((Bool.and_eq_true _ _).mp htemplate).1⟩
    · rintro (hin | ⟨upper, n, hne, hupper, hw, hn, htemplate⟩)
      · exact .inl (.inl hin)
      · by_cases hself : x = upper
        · rw [← hself, get?_eq, hq', Option.map_some, Option.some.injEq] at hn
          exact .inr (by simp [hn, htemplate, heq])
        · exact .inl (.inr ⟨upper, n, hne, hupper, hw.above ht hself hq' habove, hn, htemplate⟩)

omit hcheck in
theorem contains_withCopy (hp : t.place? parent = some p) :
    (t.withCopy l parent key).contains y = true ↔ t.contains y = true ∨ ∃ x, t.Within source x ∧ t.twin l x = y := by
  have hparent : parent = rootId ∨ parent ∈ t.fields.ids := by
    by_cases hroot : parent = rootId
    · exact .inl hroot
    · exact .inr (mem_ids_of_place? hroot hp)
  have hcontains (t : FieldTree) : t.contains y = true ↔ y = rootId ∨ y ∈ t.fields.ids := by
    rw [contains_eq, Option.isSome_iff_ne_none, Ne, place?_eq_none, not_and_or, not_not, not_not]
  have hids : y ∈ (t.withCopy l parent key).fields.ids ↔ _ := mem_ids_graft
  rw [hcontains, hcontains, hids, mem_ids_copied ht hl]
  simp only [hparent, true_and, or_assoc]

/-- A node is copied after its parent. -/
theorem exists_parent_before (hp : t.place? parent = some p) (hx : t.Within source x) (hne : x ≠ source) :
    ∃ upper, (t.withCopy l parent key).parent? (t.twin l x) = some upper ∧
      [upper, t.twin l x].Sublist ((source :: l.children.copyOrder).map (t.twin l)) := by
  obtain ⟨s, hs, hplace, -⟩ := exists_spot ht hl hcheck hp hx hne
  have hparent : t.parent? x = some (s.parent.getD source) := by
    rw [parent?_eq, hplace]
    rfl
  refine ⟨t.twin l (s.parent.getD source), ?_, ?_⟩
  · rw [parent?_twin ht hl hcheck hp hx hne, hparent, Option.map_some]
  · suffices hbefore : [s.parent.getD source, x].Sublist (source :: l.children.copyOrder) from hbefore.map (t.twin l)
    cases hup : s.parent with
    | none =>
      have hmem : x ∈ l.children.copyOrder := Forest.mem_copyOrder.2 (Forest.mem_ids_of_spot? hs)
      exact (List.singleton_sublist.2 hmem).cons_cons source
    | some upper => exact (Forest.sublist_copyOrder hs hup).cons source

end Placing

/-- A copy outside of the subtree that it is made of is faithful. -/
theorem copies_withCopy (ht : t.Keyed) (hl : t.locate? source = some l) (hcheck : t.checkInsert parent key = .ok ())
    (hp : t.place? parent = some p) (hout : ¬ t.Within source parent) :
    t.Copies source parent key (t.twin l) ((source :: l.children.copyOrder).map (t.twin l))
      (t.withCopy l parent key) := by
  obtain ⟨g, hg⟩ := exists_below? hp
  have hold {x : NodeId} (hx : t.Within source x) : t.contains x = true := contains_iff.2 hx.exists_place?
  have hne {x : NodeId} (hx : t.Within source x) : x ≠ parent := by
    rintro rfl
    exact hout hx
  have htwins (y : NodeId) : y ∈ (source :: l.children.copyOrder).map (t.twin l) ↔
      ∃ x, t.Within source x ∧ t.twin l x = y := by
    simp only [List.mem_map, within_iff_mem_order ht hl]
  have hplace {y : NodeId} (hy : t.contains y = true) : (t.withCopy l parent key).place? y = t.place? y :=
    place?_withCopy ht hl hy
  have hchildren {y : NodeId} (hy : t.contains y = true) (hne : y ≠ parent) :
      (t.withCopy l parent key).children y = t.children y := children_withCopy_of_ne ht hl hy hne
  exact {
    keyed := keyed_withCopy ht hl hcheck
    new := fun y => by
      rw [htwins, contains_withCopy ht hl hp]
      constructor
      · rintro ⟨x, hx, rfl⟩
        exact ⟨.inr ⟨x, hx, rfl⟩, contains_twin ht l x⟩
      · rintro ⟨hy | hnew, hfalse⟩
        · simp [hy] at hfalse
        · exact hnew
    nodup := by
      rw [map_twin ht hl]
      exact List.nodup_range'
    head := rfl
    order := fun y hy hne => by
      obtain ⟨x, hx, rfl⟩ := (htwins y).1 hy
      exact exists_parent_before ht hl hcheck hp hx fun he => hne (congrArg _ he)
    twins := htwins
    injective := fun x y hx hy => twin_injective ht hl hx hy
    root := parent?_twin_source ht hl hp
    parents := fun x hx hne => by
      rw [parent?_twin ht hl hcheck hp hx hne, parent?_eq, parent?_eq, hplace (hold hx)]
    children := fun x hx => by
      rw [children_twin ht hl hcheck hp hx, hchildren (hold hx) (hne hx)]
      simp
    data := fun x n hx hn => by
      rw [get?_eq, hplace (hold hx), ← get?_eq] at hn
      exact get?_twin ht hl hcheck hp hx hn
    templates := fun x hx => inTemplate_twin ht hl hcheck hp hx
    place := fun y hy => hplace hy
    last := by
      have hbelow : (t.withCopy l parent key).below? parent = _ := below?_graft_self ht hg
      refine ⟨{ l.node.forCopy with isTemplate := false }, ?_⟩
      rw [children_eq, hbelow, copied_eq ht hl, children_eq, hg]
      exact Forest.heads_append g _
    others := fun y hy hne => hchildren hy hne }

end FieldTree

namespace TreeEdit

/-- An array whose template holds a field with a formula, and an array with a template of its own. -/
def nestedTemplates : List TreeEdit :=
  [.insert rootId (.name "rows") .array, .insertTemplate 1, .insert 2 (.name "x") .field, .insert 2 (.name "parts") .array,
    .insertTemplate 4, .insert 5 (.name "y") .field, .setValue 6 (.int 7), .setFormula 3 (some "sum 1 2"),
    .setFormulaValue 3 (some (.int 3))]

end TreeEdit

end LiveForm
