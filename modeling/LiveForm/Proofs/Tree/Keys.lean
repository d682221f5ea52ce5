import LiveForm.Proofs.Tree.Handles

/-!
# Keys

The operations on trees keep handles and keys distinct, whichever nodes they give formulas to.
-/

set_option autoImplicit false

namespace LiveForm

/-- A change that is one of the operations on trees. -/
def TreeEdit.IsOperation : TreeEdit → Prop
  | modify .. => False
  | replace .. => False
  | _ => True

namespace FieldTree

variable {t t' : FieldTree} {id parent source : NodeId} {key : Step} {new : Forest}

/-- Where handles are in order, only the keys and the root are in question. -/
theorem Handled.keyed (h : t.Handled) (hkeys : t.fields.DistinctKeys) (hkind : t.root.kind = .group)
    (hlive : t.root.isTemplate = false) : t.Keyed :=
  ⟨h.nodup, fun _ hx he => h.root (he ▸ hx), h.bounded.2, h.bounded.1, hkeys, hkind, hlive⟩

theorem keyed_empty : ({} : FieldTree).Keyed :=
  ⟨List.nodup_nil, fun _ hx => absurd hx List.not_mem_nil, fun _ hx => absurd hx List.not_mem_nil, Nat.succ_pos 0,
    trivial, rfl, rfl⟩

theorem Keyed.handled (h : t.Keyed) : t.Handled :=
  ⟨h.nodup, fun hmem => h.ne_root _ hmem rfl, h.next_pos, h.lt_next⟩

/-- A node is added under a key that is free. -/
theorem Keyed.graft (h : t.Keyed) {next : NodeId} {node : Node} {children : Forest}
    (hcheck : t.checkInsert parent key = .ok ()) (hchildren : children.DistinctKeys)
    (hhandled : ({ t.graft parent (.cons id key node children .nil) with next := next } : FieldTree).Handled) :
    ({ t.graft parent (.cons id key node children .nil) with next := next } : FieldTree).Keyed := by
  have hnew : (Forest.cons id key node children .nil).DistinctKeys := ⟨by simp [Forest.heads], hchildren, trivial⟩
  have hroot := root_graft t parent (.cons id key node children .nil)
  exact hhandled.keyed (distinctKeys_graft h hnew fun _ => ne_key_of_checkInsert h hcheck)
    ((congrArg Node.kind hroot).trans h.root_group) ((congrArg Node.isTemplate hroot).trans h.root_live)

theorem Keyed.insertNode (h : t.Keyed) {node : Node} (hinsert : t.insertNode parent key node = .ok (id, t')) :
    t'.Keyed := by
  have hhandled := h.handled.insertNode hinsert
  obtain ⟨hcheck, -, rfl⟩ := insertNode_effect hinsert
  exact h.graft hcheck trivial hhandled

theorem Keyed.insertTemplate (h : t.Keyed) {array : NodeId} (hinsert : t.insertTemplate array = .ok (id, t')) :
    t'.Keyed := by
  obtain ⟨-, hinsert⟩ := insertTemplate_effect hinsert
  exact h.insertNode hinsert

theorem Keyed.copySubtree (h : t.Keyed) {created : List NodeId}
    (hcopy : t.copySubtree source parent key = .ok (created, t')) : t'.Keyed := by
  have hhandled := h.handled.copySubtree hcopy
  obtain ⟨l, hl, hcheck, -, rfl⟩ := copySubtree_effect hcopy
  have hbelow : t.below? source = some l.children := (locate?_eq_some hl).2.1
  exact h.graft hcheck (Forest.distinctKeys_copy (distinctKeys_below? h hbelow)) hhandled

theorem Keyed.removeSubtree (h : t.Keyed) {removed : List NodeId} (hremove : t.removeSubtree id = .ok (removed, t')) :
    t'.Keyed := by
  have hhandled := h.handled.removeSubtree hremove
  obtain ⟨-, -, -, rfl⟩ := removeSubtree_effect hremove
  exact hhandled.keyed (Forest.distinctKeys_erase h.keys) h.root_group h.root_live

/-- A node gets a key that no other child of its parent has. The root may get any. -/
theorem Keyed.rekey (h : t.Keyed) {old : Path} (hrekey : t.rekey id key = .ok (old, t')) : t'.Keyed := by
  rcases rekey_effect hrekey with ⟨-, rfl⟩ | ⟨-, rfl, parent, q, hq, hparent, hfree⟩
  · exact ⟨h.nodup, h.ne_root, h.lt_next, h.next_pos, h.keys, h.root_group, h.root_live⟩
  · exact h.withKey hq hparent hfree

theorem Keyed.modify (h : t.Keyed) {change : Node → Node} (hkind : ∀ n, (change n).kind = n.kind)
    (htemplate : ∀ n, (change n).isTemplate = n.isTemplate) : (t.modify id change).Keyed := by
  have hhandled : (t.modify id change).Handled := h.handled.modify
  refine hhandled.keyed ?_ ?_ ?_ <;> unfold FieldTree.modify <;> split
  · exact h.keys
  · exact Forest.distinctKeys_modify h.keys
  · exact (hkind _).trans h.root_group
  · exact h.root_group
  · exact (htemplate _).trans h.root_live
  · exact h.root_live

end FieldTree

/-- Operations keep handles and keys distinct. -/
theorem TreeEdit.keyed {t t' : FieldTree} (h : t.Keyed) {edit : TreeEdit} (hop : edit.IsOperation)
    (hrun : edit.run t = .ok t') : t'.Keyed := by
  cases TreeEdit.effect hrun with
  | insert hr => exact h.insertNode hr
  | insertTemplate hr => exact h.insertTemplate hr
  | copySubtree hr => exact h.copySubtree hr
  | removeSubtree hr => exact h.removeSubtree hr
  | rekey hr => exact h.rekey hr
  | set id change _ hkind htemplate => exact h.modify hkind htemplate
  | modify => exact hop.elim
  | replace => exact hop.elim

end LiveForm
