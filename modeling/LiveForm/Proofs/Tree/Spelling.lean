import LiveForm.Proofs.Tree.Intact

/-!
# Keys as they are written

Names are keys of what is below a group or below the root, indices are keys of what is below an array. The names that are
in use are known: each of them was given to a node when it was added, and nothing is renamed but elements, which get other
indices. So whatever holds of all names that were ever given holds of the names in the tree.
-/

set_option autoImplicit false

namespace LiveForm

namespace Forest

variable {P : String → Prop} {f : Forest} {above : Kind}

/-- In a forest below a node of some kind, each name is as it should be, and each index is that of a child of an
array. -/
def Spelled (P : String → Prop) (above : Kind) : Forest → Prop
  | nil => True
  | cons _ key node children siblings =>
    (∀ s, key = .name s → P s) ∧ (∀ i, key = .index i → above = .array) ∧ children.Spelled P node.kind ∧
      siblings.Spelled P above

/-- The condition on the key of a node below a node of some kind. -/
def IsSpelled (P : String → Prop) (above : Kind) (key : Step) (_ : Node) : Prop :=
  (∀ s, key = .name s → P s) ∧ ∀ i, key = .index i → above = .array

theorem spelled_iff : f.Spelled P above ↔ f.Fits (IsSpelled P) above := by
  induction f generalizing above with
  | nil => rfl
  | cons id key node children siblings ihc ihs => simp only [Spelled, Fits, IsSpelled, ihc, ihs, and_assoc]

theorem spelled_copy (rename : NodeId → NodeId) (h : f.Spelled P above) : (f.copy rename).Spelled P above :=
  spelled_iff.2 (fits_copy (fun _ _ _ hnode => hnode) rename (spelled_iff.1 h))

theorem spelled_blank : f.blank.Spelled P above ↔ f.Spelled P above := by
  induction f generalizing above with
  | nil => rfl
  | cons id key node children siblings ihc ihs => simp [blank, Spelled, ihc, ihs, Node.blank]

end Forest

namespace FieldTree

variable {P : String → Prop} {t t' : FieldTree} {parent id x : NodeId} {key : Step}

/-- The root has no key, the names in the tree are as they should be, and only children of arrays have indices. -/
structure Spelled (P : String → Prop) (t : FieldTree) : Prop where
  rootKey : t.rootKey = none
  fields : t.fields.Spelled P t.root.kind

theorem Spelled.of_blank (h : t.Spelled P) (hblank : t'.blank = t.blank) : t'.Spelled P := by
  refine ⟨?_, ?_⟩
  · have hkey : t'.blank.rootKey = t.blank.rootKey := by rw [hblank]
    exact hkey.trans h.rootKey
  · rw [← Forest.spelled_blank, fields_of_blank hblank, (root_of_blank hblank).1, Forest.spelled_blank]
    exact h.fields

theorem Spelled.fits (h : t.Spelled P) : t.Fits (Forest.IsSpelled P) :=
  Forest.spelled_iff.1 h.fields

/-- A tree that fits is spelled as it should be. -/
theorem Spelled.of_fits (h : t.Spelled P) (hroot : t'.rootKey = t.rootKey) (hfits : t'.Fits (Forest.IsSpelled P)) :
    t'.Spelled P :=
  ⟨hroot.trans h.rootKey, Forest.spelled_iff.2 hfits⟩

theorem Spelled.modify (h : t.Spelled P) {m : Node → Node} (hkind : ∀ n, (m n).kind = n.kind) :
    (t.modify id m).Spelled P :=
  h.of_fits (rootKey_modify t id m) (h.fits.modify hkind fun _ _ _ hnode => hnode)

theorem Spelled.without (h : t.Spelled P) (id : NodeId) : (t.without id).Spelled P :=
  h.of_fits rfl (h.fits.without id)

/-- A forest is added below a node. -/
theorem Spelled.graft (h : t.Spelled P) (hn : t.fields.ids.Nodup) {new : Forest} {l : Located}
    (hl : t.locate? parent = some l) (hnew : new.Spelled P l.node.kind) (next : NodeId) :
    ({ t.graft parent new with next } : FieldTree).Spelled P :=
  h.of_fits (rootKey_graft t parent new) ((fits_graft hn (locate?_eq_some hl).1).2 ⟨h.fits, Forest.spelled_iff.1 hnew⟩)

/-- A node that may be added has the key of a child of its parent. -/
theorem checkInsert_spelled (hcheck : t.checkInsert parent key = .ok ()) (hkey : ∀ s, key = .name s → P s) :
    ∃ l, t.locate? parent = some l ∧ ∀ id node children, children.Spelled P node.kind →
      (Forest.cons id key node children .nil).Spelled P l.node.kind := by
  rw [checkInsert_eq] at hcheck
  cases hl : t.locate? parent with
  | none =>
    rw [hl] at hcheck
    cases hcheck
  | some l =>
    rw [hl] at hcheck
    dsimp only at hcheck
    split at hcheck
    next hfits =>
      refine ⟨l, rfl, fun id node children hchildren => ⟨hkey, ?_, hchildren, trivial⟩⟩
      rintro i rfl
      cases hkind : l.node.kind with
      | array => rfl
      | field | group => simp [hkind, keyFits] at hfits
    next => cases hcheck

/-- What is below a node is spelled as it should be for the kind of the node. -/
theorem Spelled.below? (h : t.Spelled P) (hn : t.fields.ids.Nodup) {p : Place} {g : Forest} (hp : t.place? x = some p)
    (hg : t.below? x = some g) : g.Spelled P p.node.kind :=
  Forest.spelled_iff.2 (h.fits.below? hn hp hg)

theorem Spelled.insertNode (h : t.Spelled P) (hn : t.fields.ids.Nodup) {node : Node}
    (hkey : ∀ s, key = .name s → P s) (hinsert : t.insertNode parent key node = .ok (id, t')) : t'.Spelled P := by
  obtain ⟨hcheck, -, rfl⟩ := insertNode_effect hinsert
  obtain ⟨l, hl, hfits⟩ := checkInsert_spelled hcheck hkey
  refine h.graft hn hl (hfits _ _ _ ?_) _
  trivial

theorem Spelled.insertTemplate (h : t.Spelled P) (hn : t.fields.ids.Nodup) {array : NodeId}
    (hinsert : t.insertTemplate array = .ok (id, t')) : t'.Spelled P := by
  obtain ⟨-, hinsert⟩ := insertTemplate_effect hinsert
  exact h.insertNode hn (fun s hs => by cases hs) hinsert

theorem Spelled.copySubtree (h : t.Spelled P) (hn : t.fields.ids.Nodup) {source : NodeId} {created : List NodeId}
    (hkey : ∀ s, key = .name s → P s) (hcopy : t.copySubtree source parent key = .ok (created, t')) : t'.Spelled P := by
  obtain ⟨l, hl, hcheck, -, rfl⟩ := copySubtree_effect hcopy
  obtain ⟨l', hl', hfits⟩ := checkInsert_spelled hcheck hkey
  obtain ⟨hp, hbelow, -⟩ := locate?_eq_some hl
  refine h.graft hn hl' (hfits _ _ _ ?_) _
  exact Forest.spelled_copy _ (h.below? hn hp hbelow)

/-- An element gets another index. -/
theorem Spelled.withKey (h : t.Spelled P) (hn : t.fields.ids.Nodup) {e : NodeId} {q : Place} {i j : Int}
    (hq : t.place? e = some q) (hkey : q.key = some (.index i)) : (t.withKey e (.index j)).Spelled P := by
  have hroot : e ≠ rootId := by
    rintro rfl
    rw [place?_root] at hq
    obtain rfl := Option.some.inj hq
    have hnone : (none : Option Step) = some (.index i) := h.rootKey.symm.trans hkey
    cases hnone
  refine h.of_fits rfl (h.fits.withKey hn hroot hq fun old a hold hfits => ⟨fun name hname => ?_, fun _ _ => ?_⟩)
  · cases hname
  · exact hfits.2 i (Option.some.inj (hold.symm.trans hkey))

/-- Elements move up. -/
theorem Spelled.shifted (h : t.Spelled P) (ht : t.Intact) {array : NodeId} {gap : Int} {moves rest : List (Int × NodeId)}
    (hclosing : t.Closing array gap rest) (hmoves : moves <+: rest) : (t.shifted moves).Spelled P := by
  induction moves generalizing t gap rest with
  | nil => exact h
  | cons entry moves ih =>
    obtain ⟨i, e⟩ := entry
    obtain ⟨others, rfl⟩ := hmoves
    obtain ⟨q, hq, -, hkey, -⟩ := hclosing.child i e List.mem_cons_self
    have hmoved : (t.withKey e (.index (i - 1))).Intact :=
      hclosing.intact ht (List.cons_prefix_cons.2 ⟨rfl, List.nil_prefix⟩)
    exact ih (h.withKey ht.wellFormed.nodup hq hkey) hmoved (hclosing.step ht.wellFormed) (List.prefix_append _ _)

/-- The key of a node tells something of its parent. -/
theorem Spelled.child (h : t.Spelled P) (ht : t.WellFormed) {q p : Place} (hq : t.place? x = some q)
    (hparent : q.parent = some parent) (hp : t.place? parent = some p) :
    (∀ s, q.key = some (.name s) → P s) ∧ ∀ i, q.key = some (.index i) → p.node.kind = .array := by
  obtain ⟨key, hkey, hname, hindex⟩ := h.fits.child ht.keyed hq hparent hp
  exact ⟨fun name hq => hname name (Option.some.inj (hkey.symm.trans hq)),
    fun i hq => hindex i (Option.some.inj (hkey.symm.trans hq))⟩

/-- An element is removed, and some of those behind it move up. -/
theorem Spelled.removedInPart (h : t.Spelled P) (ht : t.Intact) {array e : NodeId} {index : Int}
    {done : List (Int × NodeId)} (he : t.childByKey? array (.index index) = some e)
    (hdone : done <+: (t.without e).elementsBehind array index) : ((t.without e).shifted done).Spelled P := by
  obtain ⟨q, hq, hparent, hkey⟩ := (childByKey?_eq_some ht.wellFormed.keyed).1 he
  have hroot : e ≠ rootId := ne_root_of_parent hq hparent
  obtain ⟨parent, p, -, hparent', hp, -⟩ := exists_place?_parent ht.wellFormed.keyed hroot hq
  obtain rfl := Option.some.inj (hparent.symm.trans hparent')
  have harray := (h.child ht.wellFormed hq hparent hp).2 index hkey
  exact (h.without e).shifted (ht.without hroot) (closing_without ht.wellFormed ht.shaped hp harray he hroot) hdone

end FieldTree

end LiveForm
