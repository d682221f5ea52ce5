import LiveForm.Proofs.Tree.Fitting
import LiveForm.Proofs.Tree.Linked

/-!
# Which node has which key

The root has no key, children of groups have names, children of arrays have indices, and the index of templates is that of
templates only. A tree in which this holds keeps it under an operation exactly if the operation suits it: new nodes are
checked for the kind of the key but may take the index of templates, and a node that is given another key may take any.
-/

set_option autoImplicit false

namespace LiveForm

namespace FieldTree

variable {t t' : FieldTree} {id parent x : NodeId} {key : Step} {p q : Place} {new : Forest} {kind : Kind} {node : Node}

/-- All nodes have the keys that the nodes above them ask for. -/
structure Disciplined (t : FieldTree) : Prop where
  root : t.rootKey = none
  names : ∀ parent node, t.get? parent = some node → node.kind = .group →
    ∀ c ∈ t.children parent, ∃ name, c.key = .name name
  indices : ∀ parent node, t.get? parent = some node → node.kind = .array →
    ∀ c ∈ t.children parent, ∃ i, c.key = .index i ∧ (i = templateIndex → c.node.isTemplate = true)

/-- What a group and an array ask of the keys of their children. -/
def KeyMeets (above : Kind) (key : Step) (node : Node) : Prop :=
  (above = .group → ∃ name, key = .name name) ∧
    (above = .array → ∃ i, key = .index i ∧ (i = templateIndex → node.isTemplate = true))

/-- Of a key that is checked for its kind, only the index of templates is in question. -/
theorem keyMeets_iff (hfits : keyFits kind key = true) :
    KeyMeets kind key node ↔ (key = .index templateIndex → node.isTemplate = true) := by
  cases kind <;> cases key <;> simp [keyFits, KeyMeets] at hfits ⊢

theorem KeyMeets.keyFits (h : KeyMeets kind key node) (hkind : kind ≠ .field) : keyFits kind key = true := by
  cases kind with
  | field => exact absurd rfl hkind
  | group =>
    obtain ⟨name, rfl⟩ := h.1 rfl
    rfl
  | array =>
    obtain ⟨i, rfl, -⟩ := h.2 rfl
    rfl

/-- A key tells which kind of node asks for it, if it is not a field. -/
theorem KeyMeets.change {above : Kind} {old : Step} (habove : above ≠ .field) (hold : KeyMeets above old node)
    (hnew : KeyMeets above key node) (h : KeyMeets kind old node) : KeyMeets kind key node := by
  constructor
  · rintro rfl
    obtain ⟨name, rfl⟩ := h.1 rfl
    have hgroup : above = .group := by
      cases above with
      | field => exact absurd rfl habove
      | group => rfl
      | array =>
        obtain ⟨i, hi, -⟩ := hold.2 rfl
        cases hi
    exact hnew.1 hgroup
  · rintro rfl
    obtain ⟨i, rfl, -⟩ := h.2 rfl
    have harray : above = .array := by
      cases above with
      | field => exact absurd rfl habove
      | array => rfl
      | group =>
        obtain ⟨name, hname⟩ := hold.1 rfl
        cases hname
    exact hnew.2 harray

/-- The discipline is a condition on all nodes. -/
theorem disciplined_iff (ht : t.Keyed) : t.Disciplined ↔ t.rootKey = none ∧ t.Fits KeyMeets := by
  constructor
  · intro h
    have hheads {x : NodeId} {p : Place} {g : Forest} (hp : t.place? x = some p) (hg : t.below? x = some g) :
        ∀ c ∈ g.heads, KeyMeets p.node.kind c.key c.node := by
      have hget : t.get? x = some p.node := by rw [get?_eq, hp, Option.map_some]
      intro c hc
      have hc' : c ∈ t.children x := by rwa [children_eq, hg]
      exact ⟨fun hkind => h.names x _ hget hkind c hc', fun hkind => h.indices x _ hget hkind c hc'⟩
    refine ⟨h.root, Forest.fits_of_heads ht.nodup (hheads t.place?_root t.below?_root) fun x s g hs hg => ?_⟩
    have hx : x ≠ rootId := ht.ne_root x (Forest.mem_ids_of_spot? hs)
    have hp := place?_of_ne_root t hx
    rw [hs, Option.map_some] at hp
    exact hheads hp ((below?_of_ne_root t hx).trans hg)
  · rintro ⟨hroot, hfits⟩
    have hchild (parent : NodeId) (node : Node) (hget : t.get? parent = some node) :
        ∀ c ∈ t.children parent, KeyMeets node.kind c.key c.node := by
      rw [get?_eq, Option.map_eq_some_iff] at hget
      obtain ⟨p, hp, rfl⟩ := hget
      obtain ⟨g, hg⟩ := exists_below? hp
      rw [children_eq, hg]
      exact fun c hc => (hfits.below? ht.nodup hp hg).head hc
    exact ⟨hroot, fun parent node hget hkind c hc => (hchild parent node hget c hc).1 hkind,
      fun parent node hget hkind c hc => (hchild parent node hget c hc).2 hkind⟩

/-- A node that is added and checked may only get the index of templates if it is a template. -/
theorem disciplined_graft (h : t.Disciplined) (ht : t.Keyed) (hcheck : t.checkInsert parent key = .ok ())
    {children : Forest} {next : NodeId} (hchildren : children.Fits KeyMeets node.kind)
    (ht' : ({ t.graft parent (.cons x key node children .nil) with next } : FieldTree).Keyed) :
    ({ t.graft parent (.cons x key node children .nil) with next } : FieldTree).Disciplined ↔
      (key = .index templateIndex → node.isTemplate = true) := by
  obtain ⟨p, -, hp, -, hfits, -⟩ := checkInsert_ok ht hcheck
  obtain ⟨hroot, hold⟩ := (disciplined_iff ht).1 h
  have hgraft : ({ t.graft parent (.cons x key node children .nil) with next } : FieldTree).Fits KeyMeets ↔
      t.Fits KeyMeets ∧ (Forest.cons x key node children .nil).Fits KeyMeets p.node.kind := fits_graft ht.nodup hp
  rw [disciplined_iff ht', hgraft, ← keyMeets_iff hfits]
  constructor
  · rintro ⟨-, -, hmeets, -⟩
    exact hmeets
  · intro hmeets
    exact ⟨(rootKey_graft t parent _).trans hroot, hold, hmeets, hchildren, trivial⟩

theorem disciplined_insertNode (h : t.Disciplined) (ht : t.Keyed)
    (hinsert : t.insertNode parent key node = .ok (id, t')) :
    t'.Disciplined ↔ (key = .index templateIndex → node.isTemplate = true) := by
  have ht' := ht.insertNode hinsert
  obtain ⟨hcheck, -, rfl⟩ := insertNode_effect hinsert
  exact disciplined_graft h ht hcheck trivial ht'

theorem disciplined_copySubtree (h : t.Disciplined) (ht : t.Keyed) {source : NodeId} {created : List NodeId}
    (hcopy : t.copySubtree source parent key = .ok (created, t')) :
    t'.Disciplined ↔ key ≠ .index templateIndex := by
  have ht' := ht.copySubtree hcopy
  obtain ⟨l, hl, hcheck, -, rfl⟩ := copySubtree_effect hcopy
  obtain ⟨hp, hbelow, -⟩ := locate?_eq_some hl
  have hchildren : l.children.Fits KeyMeets l.node.kind := ((disciplined_iff ht).1 h).2.below? ht.nodup hp hbelow
  have hcopied : (l.children.copy fun id => t.next + 1 + l.children.copyOrder.idxOf id).Fits KeyMeets l.node.kind :=
    Forest.fits_copy (fun _ _ _ hnode => hnode) _ hchildren
  refine (disciplined_graft h ht hcheck ?_ ht').trans ?_
  · exact hcopied
  · simp

/-- A node other than the root may have a key: its parent asks for keys of that kind, and the index of templates is for
templates only. -/
def KeySuits (t : FieldTree) (id : NodeId) (key : Step) : Prop :=
  ∃ parent above node, t.parent? id = some parent ∧ t.get? parent = some above ∧ t.get? id = some node ∧
    keyFits above.kind key = true ∧ (key = .index templateIndex → node.isTemplate = true)

theorem keySuits_iff (ht : t.Built) (hq : t.place? id = some q) (hparent : q.parent = some parent)
    (hp : t.place? parent = some p) : t.KeySuits id key ↔ KeyMeets p.node.kind key q.node := by
  have hpq : t.parent? id = some parent := parent?_eq_some.2 ⟨q, hq, hparent⟩
  have habove : t.get? parent = some p.node := by rw [get?_eq, hp, Option.map_some]
  have hnode : t.get? id = some q.node := by rw [get?_eq, hq, Option.map_some]
  constructor
  · rintro ⟨_, above, node, hparent', habove', hnode', hfits, htemplate⟩
    obtain rfl := Option.some.inj (hpq.symm.trans hparent')
    obtain rfl := Option.some.inj (habove.symm.trans habove')
    obtain rfl := Option.some.inj (hnode.symm.trans hnode')
    exact (keyMeets_iff hfits).2 htemplate
  · intro hmeets
    have hfits := hmeets.keyFits (ht.not_field_of_parent hq hparent hp)
    exact ⟨parent, p.node, q.node, hpq, habove, hnode, hfits, (keyMeets_iff hfits).1 hmeets⟩

theorem not_keySuits_root : ¬ t.KeySuits rootId key := by
  rintro ⟨parent, -, -, hparent, -⟩
  rw [parent?_eq, place?_root] at hparent
  cases hparent

/-- A node may get the keys that suit it. None suits the root. -/
theorem disciplined_rekey (h : t.Disciplined) (ht : t.Built) {old : Path} (hrekey : t.rekey id key = .ok (old, t')) :
    t'.Disciplined ↔ t.KeySuits id key := by
  have ht' : t'.Keyed := ht.keyed.rekey hrekey
  rcases rekey_effect hrekey with ⟨rfl, rfl⟩ | ⟨hid, rfl, parent, q, hq, hparent, -⟩
  · exact iff_of_false (fun hd => by cases hd.root) not_keySuits_root
  obtain ⟨parent', p, -, hparent', hp, -⟩ := exists_place?_parent ht.keyed hid hq
  obtain rfl := Option.some.inj (hparent.symm.trans hparent')
  obtain ⟨hroot, hfits⟩ := (disciplined_iff ht.keyed).1 h
  rw [keySuits_iff ht hq hparent hp, disciplined_iff ht']
  constructor
  · rintro ⟨-, hfits'⟩
    have hself : (t.withKey id key).place? id = _ := place?_withKey_of_within ht.keyed hid hq (within_refl hq)
    rw [hq, Option.map_some, if_pos rfl] at hself
    obtain ⟨parentKey, parentPath, habove⟩ : ∃ k path, (t.withKey id key).place? parent = some { p with key := k, path } :=
      exists_place?_withKey ht.keyed hid hp
    obtain ⟨newKey, hnew, hmeets⟩ := hfits'.child ht' hself hparent habove
    obtain rfl := Option.some.inj hnew
    exact hmeets
  · intro hmeets
    obtain ⟨oldKey, hold, hmeets'⟩ := hfits.child ht.keyed hq hparent hp
    refine ⟨hroot, hfits.withKey ht.keyed.nodup hid hq fun k a hk ha => ?_⟩
    obtain rfl := Option.some.inj (hold.symm.trans hk)
    exact hmeets'.change (ht.not_field_of_parent hq hparent hp) hmeets ha

theorem Disciplined.modify (h : t.Disciplined) (ht : t.Keyed) {change : Node → Node}
    (hkind : ∀ n, (change n).kind = n.kind) (htemplate : ∀ n, (change n).isTemplate = n.isTemplate) :
    (t.modify id change).Disciplined := by
  obtain ⟨hroot, hfits⟩ := (disciplined_iff ht).1 h
  refine (disciplined_iff (ht.modify hkind htemplate)).2 ⟨(rootKey_modify t id change).trans hroot, ?_⟩
  refine hfits.modify hkind fun above key node hnode => ?_
  rwa [KeyMeets, htemplate]

theorem Disciplined.removeSubtree (h : t.Disciplined) (ht : t.Keyed) {removed : List NodeId}
    (hremove : t.removeSubtree id = .ok (removed, t')) : t'.Disciplined := by
  have ht' := ht.removeSubtree hremove
  obtain ⟨-, -, -, rfl⟩ := removeSubtree_effect hremove
  obtain ⟨hroot, hfits⟩ := (disciplined_iff ht).1 h
  exact (disciplined_iff ht').2 ⟨hroot, hfits.without id⟩

end FieldTree

namespace TreeEdit

/-- The key that an operation gives to a node is one that the node may have. The index of templates is for templates only,
and the root has no key. -/
def Suits (t : FieldTree) : TreeEdit → Prop
  | insert _ key _ => key ≠ .index templateIndex
  | copySubtree _ _ key => key ≠ .index templateIndex
  | rekey id key => t.KeySuits id key
  | _ => True

/-- Each of the operations that succeed suits the tree that it finds. -/
def AllSuit : List TreeEdit → FieldTree → Prop
  | [], _ => True
  | edit :: rest, t =>
    match edit.run t with
    | .ok t' => edit.Suits t ∧ AllSuit rest t'
    | .error _ => AllSuit rest t

variable {t t' : FieldTree} {edit : TreeEdit} {edits : List TreeEdit}

theorem suits_of_setsData (h : edit.SetsData) : edit.Suits t := by
  cases edit <;> trivial

/-- An operation keeps the discipline exactly if it suits the tree. -/
theorem disciplined_run (h : t.Disciplined) (ht : t.Built) (hop : edit.IsOperation) (hrun : edit.run t = .ok t') :
    t'.Disciplined ↔ edit.Suits t := by
  cases effect hrun with
  | insert hr =>
    refine (FieldTree.disciplined_insertNode h ht.keyed hr).trans ?_
    simp [Suits]
  | insertTemplate hr =>
    refine iff_of_true ?_ trivial
    exact (FieldTree.disciplined_insertNode h ht.keyed (FieldTree.insertTemplate_effect hr).2).2 fun _ => rfl
  | copySubtree hr => exact FieldTree.disciplined_copySubtree h ht.keyed hr
  | removeSubtree hr => exact iff_of_true (h.removeSubtree ht.keyed hr) trivial
  | rekey hr => exact FieldTree.disciplined_rekey h ht hr
  | set id change hsets hkind htemplate =>
    exact iff_of_true (h.modify ht.keyed hkind htemplate) (suits_of_setsData hsets)
  | modify => exact hop.elim
  | replace => exact hop.elim

theorem disciplined_runAll (h : t.Disciplined) (ht : t.Built) (hops : ∀ edit ∈ edits, edit.IsOperation)
    (hsuit : AllSuit edits t) : (runAll edits t).Disciplined := by
  induction edits generalizing t with
  | nil => exact h
  | cons edit rest ih =>
    obtain ⟨hop, hrest⟩ := List.forall_mem_cons.1 hops
    rw [AllSuit] at hsuit
    rw [runAll]
    cases hrun : edit.run t with
    | ok t' =>
      rw [hrun] at hsuit
      exact ih ((disciplined_run h ht hop hrun).2 hsuit.1) (ht.edited hop hrun) hrest hsuit.2
    | error e =>
      rw [hrun] at hsuit
      exact ih h ht hrest hsuit

theorem disciplined_empty : ({} : FieldTree).Disciplined :=
  (FieldTree.disciplined_iff FieldTree.keyed_empty).2 ⟨rfl, trivial⟩

/-- Operations that suit the trees that they find build trees in which every node has the key that its parent asks for.
One that succeeds and does not suit the tree breaks this. -/
theorem key_discipline (edits : List TreeEdit) :
    ((∀ edit ∈ edits, edit.IsOperation) → AllSuit edits {} → (runAll edits {}).Disciplined) ∧
    ∀ (t t' : FieldTree) (edit : TreeEdit), t.Built → t.Disciplined → edit.IsOperation → edit.run t = .ok t' →
      (t'.Disciplined ↔ edit.Suits t) :=
  ⟨fun hops hsuit => disciplined_runAll disciplined_empty .empty hops hsuit,
    fun _ _ _ ht h hop hrun => disciplined_run h ht hop hrun⟩

/-- The element of an array and its template follow the discipline, and a name that is replaced by an index breaks it. -/
theorem disciplined_emptiedRow : (runAll emptiedRow {}).Disciplined ∧
    ∃ t', (rekey 3 (.index 0)).run (runAll emptiedRow {}) = .ok t' ∧ ¬ t'.Disciplined := by
  have hops : ∀ edit ∈ emptiedRow, edit.IsOperation := by simp [emptiedRow, IsOperation]
  have helement : Step.index 0 ≠ .index templateIndex := by decide
  have hsuit : AllSuit emptiedRow {} := ⟨Step.noConfusion, trivial, Step.noConfusion, helement, trivial, trivial⟩
  have hdisciplined := (key_discipline emptiedRow).1 hops hsuit
  have hbuilt : (runAll emptiedRow {}).Built := FieldTree.Built.empty.runAll hops
  refine ⟨hdisciplined, _, rfl, fun h => ?_⟩
  obtain ⟨parent, above, node, hparent, habove, -, hfits, -⟩ :=
    ((key_discipline emptiedRow).2 _ _ (rekey 3 (.index 0)) hbuilt hdisciplined trivial rfl).1 h
  obtain rfl : 2 = parent := Option.some.inj hparent
  obtain rfl : { kind := .group, isTemplate := true } = above := Option.some.inj habove
  cases hfits

/-- Not all operations follow the discipline: a child of the root may be given an index. -/
theorem undisciplined_rekey :
    ¬ ∀ edits : List TreeEdit, (∀ edit ∈ edits, edit.IsOperation) → (runAll edits {}).Disciplined := by
  intro h
  have hd := h [.insert rootId (.name "a") .field, .rekey 1 (.index 0)] (by simp [IsOperation])
  obtain ⟨name, hname⟩ := hd.names rootId { kind := .group } rfl rfl ⟨1, .index 0, { kind := .field }⟩ List.mem_cons_self
  cases hname

end TreeEdit

end LiveForm
