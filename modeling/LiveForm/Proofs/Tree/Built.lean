import LiveForm.Proofs.Tree.Keys

/-!
# Trees that operations have built

What every tree is that starts empty and that nothing but the operations on trees has changed, in whatever
order and whether they succeed or not: handles and keys are distinct, nothing stands below a field, and
only groups are templates.
-/

set_option autoImplicit false

namespace LiveForm

/-- A tree that starts empty and is changed by operations. One that fails leaves the tree as it was. -/
inductive FieldTree.Built : FieldTree → Prop
  | empty : Built {}
  | edited {t t' : FieldTree} {edit : TreeEdit} (h : Built t) (hop : edit.IsOperation)
      (hrun : edit.run t = .ok t') : Built t'

namespace Forest

variable {f g new : Forest} {target x : NodeId}

/-- Nothing stands below a field, and only groups are templates. -/
def Typed : Forest → Prop
  | nil => True
  | cons _ _ node children siblings =>
    (node.kind = .field → children = nil) ∧ (node.isTemplate = true → node.kind = .group) ∧
      children.Typed ∧ siblings.Typed

theorem typed_append (hf : f.Typed) (hg : g.Typed) : (f.append g).Typed := by
  induction f with
  | nil => exact hg
  | cons id key node children siblings _ ihs =>
    obtain ⟨hleaf, htemplate, hc, hs⟩ := hf
    exact ⟨hleaf, htemplate, hc, ihs hs⟩

theorem typed_copy (rename : NodeId → NodeId) (h : f.Typed) : (f.copy rename).Typed := by
  induction f with
  | nil => trivial
  | cons id key node children siblings ihc ihs =>
    obtain ⟨hleaf, htemplate, hc, hs⟩ := h
    refine ⟨?_, htemplate, ihc hc, ihs hs⟩
    intro hfield
    rw [hleaf hfield]
    rfl

theorem typed_erase (h : f.Typed) : (f.erase target).Typed := by
  induction f with
  | nil => trivial
  | cons id key node children siblings ihc ihs =>
    obtain ⟨hleaf, htemplate, hc, hs⟩ := h
    rw [erase]
    split
    · exact ihs hs
    · refine ⟨?_, htemplate, ihc hc, ihs hs⟩
      intro hfield
      rw [hleaf hfield]
      rfl

theorem typed_rekey {newKey : Step} (h : f.Typed) : (f.rekey target newKey).Typed := by
  induction f with
  | nil => trivial
  | cons id key node children siblings ihc ihs =>
    obtain ⟨hleaf, htemplate, hc, hs⟩ := h
    refine ⟨?_, htemplate, ihc hc, ihs hs⟩
    intro hfield
    rw [hleaf hfield]
    rfl

theorem typed_modify {change : Node → Node} (hkind : ∀ n, (change n).kind = n.kind)
    (htemplate : ∀ n, (change n).isTemplate = n.isTemplate) (h : f.Typed) : (f.modify target change).Typed := by
  induction f with
  | nil => trivial
  | cons id key node children siblings ihc ihs =>
    obtain ⟨hleaf, hgroup, hc, hs⟩ := h
    have hsame : (if id = target then change node else node).kind = node.kind ∧
        (if id = target then change node else node).isTemplate = node.isTemplate := by
      split
      · exact ⟨hkind node, htemplate node⟩
      · exact ⟨rfl, rfl⟩
    refine ⟨?_, ?_, ihc hc, ihs hs⟩
    · intro hfield
      rw [hleaf (hsame.1.symm.trans hfield)]
      rfl
    · intro ht
      exact hsame.1.trans (hgroup (hsame.2.symm.trans ht))

/-- A forest may be put below any node but a field. -/
theorem typed_graft (h : f.Typed) (hn : f.ids.Nodup)
    (htarget : ∀ s, f.spot? target = some s → s.node.kind ≠ .field) (hnew : new.Typed) :
    (f.graft target new).Typed := by
  induction f with
  | nil => trivial
  | cons id key node children siblings ihc ihs =>
    obtain ⟨hleaf, hgroup, hc, hs⟩ := h
    obtain ⟨hic, -, hnc, hns, -⟩ := nodup_ids_cons hn
    have hsiblings : (siblings.graft target new).Typed :=
      ihs hs hns fun s hspot => htarget s (spot?_of_mem_siblings hn hspot)
    by_cases hid : id = target
    · -- the node itself is the one that gets children, so it is no field
      have hkind : node.kind ≠ .field := htarget _ (by rw [spot?, if_pos hid])
      refine ⟨fun hfield => absurd hfield hkind, hgroup, ?_, hsiblings⟩
      rw [if_pos hid, graft_of_not_mem (hid ▸ hic)]
      exact typed_append hc hnew
    · refine ⟨?_, hgroup, ?_, hsiblings⟩
      · intro hfield
        rw [if_neg hid, hleaf hfield]
        rfl
      · rw [if_neg hid]
        exact ihc hc hnc fun s hspot => htarget (s.beneath id key node) (spot?_of_mem_children hn hspot)

/-- Nothing stands below a field of the forest. -/
theorem Typed.leaf (h : f.Typed) (hn : f.ids.Nodup) {s : Spot} (hs : f.spot? x = some s)
    (hg : f.below? x = some g) (hfield : s.node.kind = .field) : g = nil := by
  induction f generalizing s with
  | nil => cases hs
  | cons id key node children siblings ihc ihs =>
    obtain ⟨hleaf, -, hc, hsib⟩ := h
    obtain ⟨-, -, hnc, hns, -⟩ := nodup_ids_cons hn
    rcases spot?_cases hs with ⟨rfl, rfl⟩ | ⟨-, u, hu, rfl⟩ | ⟨-, -, hs⟩
    · rw [below?, if_pos rfl] at hg
      obtain rfl := Option.some.inj hg
      exact hleaf hfield
    · exact ihc hc hnc hu ((below?_of_mem_children hn (mem_ids_of_spot? hu)).symm.trans hg) hfield
    · exact ihs hsib hns hs ((below?_of_mem_siblings hn (mem_ids_of_spot? hs)).symm.trans hg) hfield

/-- A template of the forest is a group. -/
theorem Typed.template (h : f.Typed) {s : Spot} (hs : f.spot? x = some s) (ht : s.node.isTemplate = true) :
    s.node.kind = .group := by
  induction f generalizing s with
  | nil => cases hs
  | cons id key node children siblings ihc ihs =>
    obtain ⟨-, hgroup, hc, hsib⟩ := h
    rcases spot?_cases hs with ⟨-, rfl⟩ | ⟨-, u, hu, rfl⟩ | ⟨-, -, hs⟩
    · exact hgroup ht
    · have hkind : u.node.kind = .group := ihc hc hu ht
      exact hkind
    · exact ihs hsib hs ht

theorem Typed.below? (h : f.Typed) (hg : f.below? x = some g) : g.Typed := by
  induction f with
  | nil => cases hg
  | cons id key node children siblings ihc ihs =>
    obtain ⟨-, -, hc, hs⟩ := h
    rcases below?_cases hg with ⟨-, rfl⟩ | ⟨-, hg⟩ | ⟨-, -, hg⟩
    · exact hc
    · exact ihc hc hg
    · exact ihs hs hg

end Forest

namespace FieldTree

variable {t t' : FieldTree} {id parent x : NodeId} {key : Step} {p q : Place}

/-- Nothing stands below a field. -/
theorem below?_of_field (h : t.fields.Typed) (ht : t.Keyed) (hp : t.place? x = some p) (hfield : p.node.kind = .field)
    {g : Forest} (hg : t.below? x = some g) : g = .nil := by
  by_cases hroot : x = rootId
  · rw [hroot, place?_root] at hp
    obtain rfl := Option.some.inj hp
    have hkind : t.rootPlace.node.kind = .group := ht.root_group
    rw [hkind] at hfield
    cases hfield
  · rw [place?_of_ne_root t hroot, Option.map_eq_some_iff] at hp
    rw [below?_of_ne_root t hroot] at hg
    obtain ⟨s, hs, rfl⟩ := hp
    exact h.leaf ht.nodup hs hg hfield

/-- A node gets children where a child with some key can be inserted, so it is no field. -/
theorem typed_graft (h : t.fields.Typed) (ht : t.Keyed) (hcheck : t.checkInsert parent key = .ok ()) {new : Forest}
    (hnew : new.Typed) : (t.graft parent new).fields.Typed := by
  obtain ⟨p, -, hp, -, hfits, -⟩ := checkInsert_ok ht hcheck
  have hkind : p.node.kind ≠ .field := by
    intro hfield
    rw [hfield] at hfits
    cases hfits
  unfold FieldTree.graft
  split
  · exact Forest.typed_append h hnew
  next hroot =>
    rw [place?_of_ne_root t hroot, Option.map_eq_some_iff] at hp
    obtain ⟨s, hs, rfl⟩ := hp
    apply Forest.typed_graft h ht.nodup _ hnew
    intro s' hs'
    obtain rfl := Option.some.inj (hs.symm.trans hs')
    exact hkind

theorem typed_insertNode (h : t.fields.Typed) (ht : t.Keyed) {node : Node}
    (hnode : node.isTemplate = true → node.kind = .group) (hinsert : t.insertNode parent key node = .ok (id, t')) :
    t'.fields.Typed := by
  obtain ⟨hcheck, -, rfl⟩ := insertNode_effect hinsert
  exact typed_graft h ht hcheck ⟨fun _ => rfl, hnode, trivial, trivial⟩

theorem typed_insertTemplate (h : t.fields.Typed) (ht : t.Keyed) (hinsert : t.insertTemplate parent = .ok (id, t')) :
    t'.fields.Typed := by
  obtain ⟨-, hinsert⟩ := insertTemplate_effect hinsert
  exact typed_insertNode h ht (fun _ => rfl) hinsert

/-- A copy of a field has nothing below it either. -/
theorem typed_copySubtree (h : t.fields.Typed) (ht : t.Keyed) {source : NodeId} {created : List NodeId}
    (hcopy : t.copySubtree source parent key = .ok (created, t')) : t'.fields.Typed := by
  obtain ⟨l, hl, hcheck, -, rfl⟩ := copySubtree_effect hcopy
  obtain ⟨hp, hbelow, -⟩ := locate?_eq_some hl
  have hchildren : l.children.Typed := by
    by_cases hroot : source = rootId
    · rw [hroot, below?_root] at hbelow
      exact Option.some.inj hbelow ▸ h
    · rw [below?_of_ne_root t hroot] at hbelow
      exact h.below? hbelow
  refine typed_graft h ht hcheck ⟨?_, ?_, Forest.typed_copy _ hchildren, trivial⟩
  · intro hfield
    rw [below?_of_field h ht hp hfield hbelow]
    rfl
  · intro hfalse
    cases hfalse

theorem typed_rekey (h : t.fields.Typed) {old : Path} (hrekey : t.rekey id key = .ok (old, t')) : t'.fields.Typed := by
  rcases rekey_effect hrekey with ⟨-, rfl⟩ | ⟨-, rfl, -⟩
  · exact h
  · exact Forest.typed_rekey h

theorem typed_modify (h : t.fields.Typed) {change : Node → Node} (hkind : ∀ n, (change n).kind = n.kind)
    (htemplate : ∀ n, (change n).isTemplate = n.isTemplate) : (t.modify id change).fields.Typed := by
  unfold FieldTree.modify
  split
  · exact h
  · exact Forest.typed_modify hkind htemplate h

theorem typed_removeSubtree (h : t.fields.Typed) {removed : List NodeId}
    (hremove : t.removeSubtree id = .ok (removed, t')) : t'.fields.Typed := by
  obtain ⟨-, -, -, rfl⟩ := removeSubtree_effect hremove
  exact Forest.typed_erase h

end FieldTree

/-- No operation puts anything below a field, nor makes a template of anything but a group. -/
theorem TreeEdit.typed {t t' : FieldTree} (h : t.fields.Typed) (ht : t.Keyed) {edit : TreeEdit}
    (hop : edit.IsOperation) (hrun : edit.run t = .ok t') : t'.fields.Typed := by
  cases TreeEdit.effect hrun with
  | insert hr =>
    refine FieldTree.typed_insertNode h ht ?_ hr
    intro hfalse
    cases hfalse
  | insertTemplate hr => exact FieldTree.typed_insertTemplate h ht hr
  | copySubtree hr => exact FieldTree.typed_copySubtree h ht hr
  | removeSubtree hr => exact FieldTree.typed_removeSubtree h hr
  | rekey hr => exact FieldTree.typed_rekey h hr
  | set id change _ hkind htemplate => exact FieldTree.typed_modify h hkind htemplate
  | modify => exact hop.elim
  | replace => exact hop.elim

/-- Runs changes one after the other. One that fails leaves the tree as it was. -/
def TreeEdit.runAll : List TreeEdit → FieldTree → FieldTree
  | [], t => t
  | edit :: rest, t =>
    match edit.run t with
    | .ok t' => runAll rest t'
    | .error _ => runAll rest t

namespace FieldTree.Built

variable {t : FieldTree} {x parent : NodeId} {p q : Place}

/-- Handles and keys are distinct in a tree that operations have built. -/
theorem keyed (h : t.Built) : t.Keyed := by
  induction h with
  | empty => exact keyed_empty
  | edited _ hop hrun ih => exact TreeEdit.keyed ih hop hrun

theorem runAll (h : t.Built) {edits : List TreeEdit} (hops : ∀ edit ∈ edits, edit.IsOperation) :
    (TreeEdit.runAll edits t).Built := by
  induction edits generalizing t with
  | nil => exact h
  | cons edit rest ih =>
    have hrest : ∀ edit ∈ rest, edit.IsOperation := fun edit hedit => hops edit (List.mem_cons_of_mem _ hedit)
    rw [TreeEdit.runAll]
    split
    next hrun => exact ih (h.edited (hops edit List.mem_cons_self) hrun) hrest
    next => exact ih h hrest

theorem typed (h : t.Built) : t.fields.Typed := by
  induction h with
  | empty => trivial
  | edited h hop hrun ih => exact TreeEdit.typed ih h.keyed hop hrun

/-- A template is no field. -/
theorem group_of_template (h : t.Built) (hp : t.place? x = some p) (htemplate : p.node.isTemplate = true) :
    p.node.kind = .group := by
  by_cases hroot : x = rootId
  · subst hroot
    rw [place?_root] at hp
    obtain rfl := Option.some.inj hp
    exact h.keyed.root_group
  · rw [place?_of_ne_root t hroot] at hp
    obtain ⟨s, hs, rfl⟩ := Option.map_eq_some_iff.1 hp
    exact h.typed.template hs htemplate

/-- Only groups and arrays have children. -/
theorem not_field_of_parent (h : t.Built) (hq : t.place? x = some q) (hparent : q.parent = some parent)
    (hp : t.place? parent = some p) : p.node.kind ≠ .field := by
  intro hfield
  obtain ⟨g, hg⟩ := exists_below? hp
  obtain ⟨-, -, key, -, -, hkey, -⟩ := exists_place?_parent h.keyed (ne_root_of_parent hq hparent) hq
  have hchild : ⟨x, key, q.node⟩ ∈ g.heads := (mem_heads_below? h.keyed hg).2 ⟨q, hq, hparent, hkey, rfl⟩
  rw [below?_of_field h.typed h.keyed hp hfield hg] at hchild
  cases hchild

end FieldTree.Built

end LiveForm
