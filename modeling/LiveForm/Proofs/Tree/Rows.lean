import LiveForm.Proofs.Tree.Evolution
import LiveForm.Proofs.Tree.Shifting
import LiveForm.Proofs.Tree.Walks
import LiveForm.Proofs.Tree.Stacking

/-!
# Rows

The children of an array form a row: a template, and elements that are numbered from zero on without a gap. Whatever is
done to the tree leaves rows to all arrays, as long as the elements behind one that is removed move up.
-/

set_option autoImplicit false

namespace LiveForm

/-- What matters of a child of an array: its key, and whether it is the template. -/
def Child.label (c : Child) : Step × Bool :=
  (c.key, c.node.isTemplate)

/-- The labels of a template and of some elements. -/
def row (n : Nat) : List (Step × Bool) :=
  (.index templateIndex, true) :: (List.range n).map fun i : Nat => (.index i, false)

theorem mem_row {n : Nat} {key : Step} {template : Bool} : (key, template) ∈ row n ↔
    (key = .index templateIndex ∧ template = true) ∨ ∃ i : Nat, i < n ∧ key = .index i ∧ template = false := by
  simp only [row, List.mem_cons, Prod.mk.injEq, List.mem_map, List.mem_range]
  refine or_congr_right (exists_congr fun i => and_congr_right fun _ => ?_)
  rw [eq_comm, @eq_comm _ false]

theorem nodup_row (n : Nat) : (row n).Nodup := by
  refine List.nodup_cons.2 ⟨by simp, List.nodup_range.map fun i j h => ?_⟩
  exact Int.ofNat.inj (Step.index.inj (congrArg Prod.fst h))

namespace Forest

variable {f g new : Forest} {target x : NodeId}

/-- A forest is the children of an array. -/
def Rowed (f : Forest) : Prop :=
  ∃ n, (f.heads.map Child.label).Perm (row n)

/-- All arrays of a forest have rows. -/
def Lined : Forest → Prop
  | nil => True
  | cons _ _ node children siblings => (node.kind = .array → children.Rowed) ∧ children.Lined ∧ siblings.Lined

theorem rowed_copy (rename : NodeId → NodeId) (h : f.Rowed) : (f.copy rename).Rowed := by
  obtain ⟨n, hn⟩ := h
  refine ⟨n, ?_⟩
  rwa [heads_copy, List.map_map]

theorem lined_copy (rename : NodeId → NodeId) (h : f.Lined) : (f.copy rename).Lined := by
  induction f with
  | nil => trivial
  | cons id key node children siblings ihc ihs =>
    exact ⟨fun harray => rowed_copy rename (h.1 harray), ihc h.2.1, ihs h.2.2⟩

/-- What is below an array is a row. -/
theorem Lined.rowed (h : f.Lined) (hn : f.ids.Nodup) {s : Spot} (hs : f.spot? x = some s) (hg : f.below? x = some g)
    (harray : s.node.kind = .array) : g.Rowed := by
  induction f generalizing s with
  | nil => simp [spot?] at hs
  | cons id key node children siblings ihc ihs =>
    obtain ⟨-, -, hnc, hns, -⟩ := nodup_ids_cons hn
    rcases spot?_cases hs with ⟨rfl, rfl⟩ | ⟨-, u, hu, rfl⟩ | ⟨-, -, hs⟩
    · rw [below?, if_pos rfl] at hg
      obtain rfl := Option.some.inj hg
      exact h.1 harray
    · exact ihc h.2.1 hnc hu ((below?_of_mem_children hn (mem_ids_of_spot? hu)).symm.trans hg) harray
    · exact ihs h.2.2 hns hs ((below?_of_mem_siblings hn (mem_ids_of_spot? hs)).symm.trans hg) harray

/-- A forest is lined if what is below each array is a row. -/
theorem lined_of_rowed (hn : f.ids.Nodup)
    (h : ∀ x s g, f.spot? x = some s → f.below? x = some g → s.node.kind = .array → g.Rowed) : f.Lined := by
  induction f with
  | nil => trivial
  | cons id key node children siblings ihc ihs =>
    obtain ⟨-, -, hnc, hns, -⟩ := nodup_ids_cons hn
    refine ⟨fun harray => h id _ children (by rw [spot?, if_pos rfl]) (by rw [below?, if_pos rfl]) harray,
      ihc hnc fun x s g hs hg harray => ?_, ihs hns fun x s g hs hg harray => ?_⟩
    · exact h x (s.beneath id key node) g (spot?_of_mem_children hn hs)
        ((below?_of_mem_children hn (mem_ids_of_spot? hs)).trans hg) harray
    · exact h x s g (spot?_of_mem_siblings hn hs) ((below?_of_mem_siblings hn (mem_ids_of_spot? hs)).trans hg) harray

theorem lined_newNode (id : NodeId) (key : Step) (kind : Kind) (formula : Option String) :
    (FieldTree.newNode id key kind formula).Lined := by
  unfold FieldTree.newNode
  split
  · exact ⟨fun _ => ⟨0, List.Perm.refl _⟩, ⟨fun h => by simp at h, trivial, trivial⟩, trivial⟩
  next hkind => exact ⟨fun h => absurd h hkind, trivial, trivial⟩

end Forest

namespace FieldTree

variable {t t' : FieldTree} {array parent id x : NodeId} {n : Nat} {new : Forest}

/-- The children of a node are a template and some elements. -/
def HasRow (t : FieldTree) (array : NodeId) (n : Nat) : Prop :=
  ((t.children array).map Child.label).Perm (row n)

/-- All arrays have rows: each has one template, and its elements are numbered without a gap. -/
def Lined (t : FieldTree) : Prop :=
  ∀ array p, t.place? array = some p → p.node.kind = .array → ∃ n, t.HasRow array n

/-- A node has a child with a label. -/
def Labelled (t : FieldTree) (parent : NodeId) (key : Step) (template : Bool) : Prop :=
  ∃ x q, t.place? x = some q ∧ q.parent = some parent ∧ q.key = some key ∧ q.node.isTemplate = template

theorem mem_labels (ht : t.WellFormed) {key : Step} {template : Bool} :
    (key, template) ∈ (t.children parent).map Child.label ↔ t.Labelled parent key template := by
  rw [children_eq]
  cases hg : t.below? parent with
  | none =>
    simp only [Option.map_none, Option.getD_none, List.map_nil, List.not_mem_nil, false_iff]
    rintro ⟨x, q, hq, hparent, -⟩
    obtain ⟨g, hg'⟩ := exists_below?_parent ht.keyed hq hparent
    simp [hg] at hg'
  | some g =>
    simp only [Option.map_some, Option.getD_some, List.mem_map, Child.label, Prod.mk.injEq]
    constructor
    · rintro ⟨c, hc, rfl, rfl⟩
      obtain ⟨q, hq, hparent, hkey, hnode⟩ := (mem_heads_below? ht.keyed hg).1 hc
      exact ⟨c.id, q, hq, hparent, hkey, by rw [hnode]⟩
    · rintro ⟨x, q, hq, hparent, hkey, rfl⟩
      exact ⟨⟨x, key, q.node⟩, (mem_heads_below? ht.keyed hg).2 ⟨q, hq, hparent, hkey, rfl⟩, rfl, rfl⟩

theorem nodup_labels (ht : t.WellFormed) : ((t.children parent).map Child.label).Nodup := by
  rw [children_eq]
  cases hg : t.below? parent with
  | none => simp
  | some g =>
    refine List.Nodup.of_map Prod.fst ?_
    rw [List.map_map]
    exact Forest.nodup_keys (distinctKeys_below? ht.keyed hg)

/-- A row is made of the labels that it should have. -/
theorem hasRow_iff (ht : t.WellFormed) :
    t.HasRow array n ↔ ∀ key template, t.Labelled array key template ↔ (key, template) ∈ row n := by
  rw [HasRow, List.perm_ext_iff_of_nodup (nodup_labels ht) (nodup_row n), Prod.forall]
  exact forall₂_congr fun _ _ => by rw [mem_labels ht]

theorem HasRow.of_labelled (h : t.HasRow array n) (ht : t.WellFormed) (ht' : t'.WellFormed)
    (hsame : ∀ key template, t'.Labelled array key template ↔ t.Labelled array key template) : t'.HasRow array n :=
  (hasRow_iff ht').2 fun key template => (hsame key template).trans ((hasRow_iff ht).1 h key template)

theorem labelled_of_blank (h : t'.blank = t.blank) {key : Step} {template : Bool} (hl : t.Labelled parent key template) :
    t'.Labelled parent key template := by
  obtain ⟨x, q, hq, hparent, hkey, htemplate⟩ := hl
  obtain ⟨q', hq', hqq⟩ := place?_of_blank h hq
  exact ⟨x, q', hq', (show q'.blank.parent = q.blank.parent by rw [hqq]).trans hparent,
    (show q'.blank.key = q.blank.key by rw [hqq]).trans hkey,
    (show q'.blank.node.isTemplate = q.blank.node.isTemplate by rw [hqq]).trans htemplate⟩

theorem HasRow.of_blank (h : t.HasRow array n) (ht : t.WellFormed) (hblank : t'.blank = t.blank) : t'.HasRow array n :=
  h.of_labelled ht (ht.of_blank hblank) fun _ _ => ⟨labelled_of_blank hblank.symm, labelled_of_blank hblank⟩

theorem Lined.of_blank (h : t.Lined) (ht : t.WellFormed) (hblank : t'.blank = t.blank) : t'.Lined := by
  intro array p hp harray
  obtain ⟨p', hp', hpp⟩ := place?_of_blank hblank.symm hp
  obtain ⟨n, hn⟩ := h array p' hp' ((Place.blank_eq hpp).2.2.1.trans harray)
  exact ⟨n, hn.of_blank ht hblank⟩

/-- The next element gets the number of the elements before it. -/
theorem HasRow.nextIndex (h : t.HasRow array n) (ht : t.WellFormed) : Form.nextIndex t array = n := by
  have hrow := (hasRow_iff ht).1 h
  have hlt {i : Int} {x : NodeId} (hx : (i, x) ∈ t.elements array) : ∃ k : Nat, k < n ∧ i = k := by
    obtain ⟨q, hq, hparent, hkey, hlive⟩ := (mem_elements ht).1 hx
    rcases mem_row.1 ((hrow _ _).1 ⟨x, q, hq, hparent, hkey, hlive⟩) with ⟨-, h⟩ | ⟨k, hk, hi, -⟩
    · cases h
    · exact ⟨k, hk, Step.index.inj hi⟩
  have hmem {k : Nat} (hk : k < n) : ∃ x, ((k : Int), x) ∈ t.elements array := by
    obtain ⟨x, q, hq, hparent, hkey, hlive⟩ := (hrow (.index k) false).2 (mem_row.2 (.inr ⟨k, hk, rfl, rfl⟩))
    exact ⟨x, (mem_elements ht).2 ⟨q, hq, hparent, hkey, hlive⟩⟩
  unfold Form.nextIndex
  split
  next i x hlast =>
    obtain ⟨k, hk, rfl⟩ := hlt (List.mem_of_getLast? hlast)
    obtain ⟨y, hy⟩ := hmem (k := n - 1) (by omega)
    have hle : ((n - 1 : Nat) : Int) ≤ k := by
      obtain ⟨before, hbefore⟩ := List.getLast?_eq_some_iff.1 hlast
      have hsorted := sorted_elements ht array
      rw [hbefore] at hsorted hy
      rcases List.mem_append.1 hy with hy | hy
      · exact Int.le_of_lt ((List.pairwise_append.1 hsorted).2.2 _ hy _ (List.mem_singleton.2 rfl))
      · exact Int.le_of_eq (congrArg Prod.fst (List.mem_singleton.1 hy))
    omega
  next hnone =>
    rw [List.getLast?_eq_none_iff] at hnone
    cases n with
    | zero => rfl
    | succ n =>
      obtain ⟨x, hx⟩ := hmem (Nat.zero_lt_succ n)
      simp [hnone] at hx

section Changes

/-- What is below an array is a row. -/
theorem Lined.rowed (h : t.Lined) {p : Place} {g : Forest} (hp : t.place? x = some p) (harray : p.node.kind = .array)
    (hg : t.below? x = some g) : g.Rowed := by
  obtain ⟨n, hn⟩ := h x p hp harray
  refine ⟨n, ?_⟩
  rwa [HasRow, children_eq, hg] at hn

theorem Lined.below? (h : t.Lined) (ht : t.WellFormed) {p : Place} {g : Forest} (hp : t.place? x = some p)
    (hg : t.below? x = some g) : g.Lined := by
  refine Forest.lined_of_rowed (nodup_below? ht.keyed hg).1 fun y s g' hs hg' harray => ?_
  have hy : t.place? y = some (s.place x p.path p.inTemplate) := by
    rw [place?_below ht.keyed hp hg (Forest.mem_ids_of_spot? hs), hs, Option.map_some]
  exact h.rowed hy harray (below?_of_below? ht.keyed hg hg')

/-- A forest of rows is put below a node. -/
theorem Grafts.lined (hgraft : Grafts t parent new t') (ht : t.WellFormed) (h : t.Lined) (hnew : new.Lined)
    (hparent : ∀ p n, t.place? parent = some p → p.node.kind = .array → t.HasRow parent n → ∃ m, t'.HasRow parent m) :
    t'.Lined := by
  obtain ⟨p₀, hp₀⟩ := hgraft.placed
  intro array p hp harray
  rw [hgraft.place? ht hp₀] at hp
  split at hp
  next hmem =>
    obtain ⟨s, hs, rfl⟩ := Option.map_eq_some_iff.1 hp
    obtain ⟨g, hg⟩ := Forest.exists_below? hmem
    obtain ⟨n, hn⟩ := hnew.rowed hgraft.nodup hs hg harray
    refine ⟨n, ?_⟩
    have hbelow : t'.below? array = some g := by
      rw [hgraft.eq]
      exact (below?_graft_new ht.keyed hp₀ (hgraft.fresh array hmem)).trans hg
    rwa [HasRow, children_eq, hbelow]
  next hmem =>
    obtain ⟨n, hn⟩ := h array p hp harray
    by_cases hpa : parent = array
    · subst hpa
      exact hparent p n hp harray hn
    · refine ⟨n, ?_⟩
      have hchildren : t'.children array = t.children array := by
        rw [hgraft.eq]
        exact children_graft hpa hmem
      rwa [HasRow, hchildren]

/-- A copy has rows where the original has them. -/
theorem Lined.copied (h : t.Lined) (ht : t.WellFormed) {source : NodeId} {l : Located} (hl : t.locate? source = some l)
    (key : Step) : (t.copied l key).Lined := by
  obtain ⟨hp, hg, -⟩ := locate?_eq_some hl
  exact ⟨fun harray => Forest.rowed_copy _ (h.rowed hp harray hg), Forest.lined_copy _ (h.below? ht hp hg), trivial⟩

/-- A node with the next number is added to an array. -/
theorem HasRow.grafts (h : t.HasRow array n) (ht : t.WellFormed) {node : Node} {body : Forest}
    (hgraft : Grafts t array (.cons id (.index n) node body .nil) t') (hlive : node.isTemplate = false) :
    t'.HasRow array (n + 1) := by
  obtain ⟨p, hp⟩ := hgraft.placed
  obtain ⟨g, hg⟩ := exists_below? hp
  have hrow : row (n + 1) = row n ++ [(.index n, false)] := by
    simp [row, List.range_succ]
  have hlabel : Child.label ⟨id, .index n, node⟩ = (.index n, false) := by rw [Child.label, hlive]
  rw [HasRow, children_eq, hg] at h
  rw [HasRow, children_eq, hgraft.below?_parent ht hg, Option.map_some, Option.getD_some, Forest.heads_append,
    List.map_append, hrow, Forest.heads, Forest.heads, List.map_singleton, hlabel]
  exact h.append (List.Perm.refl _)

/-- An element is added to an array. -/
theorem HasRow.pushed (h : t.HasRow array n) (ht : t.WellFormed) {template : NodeId} {created : List NodeId}
    (hcopy : t.copySubtree template array (.index (Form.nextIndex t array)) = .ok (created, t')) :
    t'.HasRow array (n + 1) := by
  obtain ⟨l, -, -, hgraft, -⟩ := copySubtree_ok ht hcopy
  rw [h.nextIndex ht] at hgraft
  exact h.grafts ht hgraft rfl

/-- A value is entered. -/
theorem Lined.entered (h : t.Lined) (ht : t.Intact) (id : NodeId) (value : Value) :
    (t.modify id fun n => { n with value }).Lined := by
  have hplace (x : NodeId) : (t.modify id fun n => { n with value }).place? x = (t.place? x).map fun p =>
      { p with node := { p.node with value := if x = id then value else p.node.value } } := by
    rw [place?_modify (f := fun n => { n with value }) fun _ => rfl]
    refine congrArg (Option.map · (t.place? x)) (funext fun p => ?_)
    split <;> rfl
  intro array p hp harray
  rw [hplace, Option.map_eq_some_iff] at hp
  obtain ⟨p', hp', rfl⟩ := hp
  obtain ⟨n, hn⟩ := h array p' hp' harray
  refine ⟨n, hn.of_labelled ht.wellFormed (ht.entered id value).wellFormed fun key template => ⟨?_, ?_⟩⟩
  · rintro ⟨x, q, hq, hlabel⟩
    rw [hplace, Option.map_eq_some_iff] at hq
    obtain ⟨q', hq', rfl⟩ := hq
    exact ⟨x, q', hq', hlabel⟩
  · rintro ⟨x, q, hq, hlabel⟩
    exact ⟨x, _, (hplace x).trans (congrArg _ hq), hlabel⟩

/-- A node that is no element is removed. -/
theorem Lined.without (h : t.Lined) (ht : t.WellFormed) (hid : id ≠ rootId) (hapart : t.Apart id) :
    (t.without id).Lined := by
  intro array p hp harray
  obtain ⟨hp', hnot⟩ := place?_of_place?_without ht.keyed hid hp
  obtain ⟨n, hn⟩ := h array p hp' harray
  refine ⟨n, hn.of_labelled ht (ht.without hid) fun key template => ⟨?_, ?_⟩⟩
  · rintro ⟨x, q, hq, hlabel⟩
    exact ⟨x, q, (place?_of_place?_without ht.keyed hid hq).1, hlabel⟩
  · rintro ⟨x, q, hq, hparent, hlabel⟩
    refine ⟨x, q, ?_, hparent, hlabel⟩
    rwa [place?_without_of_not_within ht.keyed hid fun hw => ?_]
    by_cases hx : x = id
    · subst hx
      exact hapart.parent q array p hq hparent hp' harray
    · exact hnot (hw.above ht.keyed hx hq hparent)

/-- Whatever is done to the tree, its arrays keep rows, as long as no element is removed. -/
theorem Lined.change (h : t.Lined) (ht : t.Intact) (hchange : Change t t') : t'.Lined := by
  have hwf := ht.wellFormed
  cases hchange with
  | values hblank => exact h.of_blank hwf hblank
  | used => exact h
  | entered id value => exact h.entered ht id value
  | @inserted _ p name kind formula hp hgroup hcheck hformula =>
    refine (grafts_withNew hwf hcheck hformula).lined hwf h (Forest.lined_newNode _ _ _ _) fun p' n hp' harray => ?_
    obtain rfl := Option.some.inj (hp.symm.trans hp')
    simp [hgroup] at harray
  | copied hp hgroup hcopy =>
    obtain ⟨l, hl, -, hgraft, -⟩ := copySubtree_ok hwf hcopy
    refine hgraft.lined hwf h (h.copied hwf hl _) fun p' n hp' harray => ?_
    obtain rfl := Option.some.inj (hp.symm.trans hp')
    simp [hgroup] at harray
  | pushed hp harray hq hparent hcopy =>
    obtain ⟨l, hl, -, hgraft, -⟩ := copySubtree_ok hwf hcopy
    exact hgraft.lined hwf h (h.copied hwf hl _) fun p' n hp' harray hn => ⟨n + 1, hn.pushed hwf hcopy⟩
  | dropped hid hapart => exact h.without hwf hid hapart

theorem Lined.evolves (h : t.Lined) (ht : t.Intact) (hevolves : t.Evolves t') : t'.Lined := by
  induction hevolves with
  | refl => exact h
  | tail hbefore hchange ih => exact ih.change (ht.evolves hbefore) hchange

end Changes

section Removing

variable {e : NodeId} {gap index : Int} {moves : List (Int × NodeId)} {k : Nat}

/-- Elements that move up get the index before theirs, and nothing else changes for them or for other children. -/
theorem Closing.moved (h : t.Closing array gap moves) (ht : t.Intact) {q : Place} (hq : t.place? x = some q) :
    ∃ q', (t.shifted moves).place? x = some q' ∧ q'.node = q.node ∧ q'.parent = q.parent ∧
      (∀ i, (i, x) ∈ moves → q'.key = some (.index (i - 1))) ∧ ((∀ i, (i, x) ∉ moves) → q'.key = q.key) := by
  induction moves generalizing t gap q with
  | nil => exact ⟨q, hq, rfl, rfl, fun i hi => absurd hi List.not_mem_nil, fun _ => rfl⟩
  | cons entry rest ih =>
    obtain ⟨i, e⟩ := entry
    obtain ⟨u, hu, huparent, -⟩ := h.child i e List.mem_cons_self
    obtain ⟨q₁, hq₁, hnode₁, hparent₁, hkey₁⟩ :=
      key_withKey ht.wellFormed h.ne_root hu hq
    have hmoved : (t.withKey e (.index (i - 1))).Intact := h.intact ht (List.prefix_append [(i, e)] rest)
    have hrest := h.step ht.wellFormed
    obtain ⟨q', hq', hnode, hparent, hin, hout⟩ := ih hrest hmoved hq₁
    refine ⟨q', hq', hnode.trans hnode₁, hparent.trans hparent₁, fun j hj => ?_, fun hnot => ?_⟩
    · rcases List.mem_cons.1 hj with heq | hj
      · obtain ⟨rfl, rfl⟩ := Prod.mk.inj heq
        -- its index is now less than those of the elements to come
        rw [if_pos rfl] at hkey₁
        rw [hout fun k hk => ?_, hkey₁]
        obtain ⟨v, hv, -, hvkey, -⟩ := hrest.child k x hk
        obtain rfl := Option.some.inj (hq₁.symm.trans hv)
        have hlt : j < k := hrest.behind _ hk
        have hk' : j - 1 = k := Step.index.inj (Option.some.inj (hkey₁.symm.trans hvkey))
        omega
      · exact hin j hj
    · rw [hout fun k hk => hnot k (List.mem_cons_of_mem _ hk), hkey₁, if_neg]
      rintro rfl
      exact hnot i List.mem_cons_self

theorem exists_place?_of_shifted {q' : Place} (hq' : (t.shifted moves).place? x = some q') :
    ∃ q, t.place? x = some q := by
  induction moves generalizing t with
  | nil => exact ⟨q', hq'⟩
  | cons entry rest ih =>
    obtain ⟨q, hq⟩ := ih hq'
    rw [← Option.ne_none_iff_exists']
    intro hnone
    rw [place?_eq_none_withKey.2 hnone] at hq
    cases hq

variable {p : Place}

/-- What is left of the children of a node once an element of an array is gone and those behind it have moved up. -/
theorem place?_removed (ht : t.Intact) (hp : t.place? array = some p) (harray : p.node.kind = .array)
    (he : t.childByKey? array (.index index) = some e) (hx : ¬ t.Within e x) {q : Place} (hq : t.place? x = some q) :
    ∃ q', (t.removed array e index).place? x = some q' ∧ q'.node = q.node ∧ q'.parent = q.parent ∧
      (q.parent ≠ some array → q'.key = q.key) ∧
      (q.parent = some array → q.node.isTemplate = true → q'.key = q.key) ∧
      ∀ i, q.parent = some array → q.node.isTemplate = false → q.key = some (.index i) →
        q'.key = some (.index (if index < i then i - 1 else i)) := by
  have hwf := ht.wellFormed
  obtain ⟨u, hu, huparent, -⟩ := (childByKey?_eq_some hwf.keyed).1 he
  have hroot := ne_root_of_parent hu huparent
  have hclosing := closing_without hwf ht.shaped hp harray he hroot
  have hq₁ : (t.without e).place? x = some q := by rwa [place?_without_of_not_within hwf.keyed hroot hx]
  obtain ⟨q', hq', hnode, hparent, hin, hout⟩ := hclosing.moved (ht.without hroot) hq₁
  have hmem (i : Int) : (i, x) ∈ (t.without e).elementsBehind array index ↔
      (q.parent = some array ∧ q.key = some (.index i) ∧ q.node.isTemplate = false) ∧ index < i := by
    rw [elementsBehind, List.mem_filter, mem_elements (hwf.without hroot)]
    simp [hq₁]
  refine ⟨q', hq', hnode, hparent, fun hne => hout fun i hi => hne ((hmem i).1 hi).1.1, fun _ htemplate => ?_,
    fun i hpa hlive hkey => ?_⟩
  · refine hout fun i hi => ?_
    simp [htemplate] at hmem
    exact hmem i hi
  · split
    next hlt => exact hin i ((hmem i).2 ⟨⟨hpa, hkey, hlive⟩, hlt⟩)
    next hle =>
      rw [hout fun j hj => ?_, hkey]
      obtain ⟨⟨-, hkey', -⟩, hlt⟩ := (hmem j).1 hj
      obtain rfl : i = j := Step.index.inj (Option.some.inj (hkey.symm.trans hkey'))
      exact hle hlt

theorem intact_removed (ht : t.Intact) (hp : t.place? array = some p) (harray : p.node.kind = .array)
    (he : t.childByKey? array (.index index) = some e) : (t.removed array e index).Intact := by
  obtain ⟨u, hu, huparent, -⟩ := (childByKey?_eq_some ht.wellFormed.keyed).1 he
  have hroot := ne_root_of_parent hu huparent
  exact (closing_without ht.wellFormed ht.shaped hp harray he hroot).intact (ht.without hroot) List.prefix_rfl

theorem exists_place?_of_removed (ht : t.WellFormed) (he : t.childByKey? array (.index index) = some e) {q' : Place}
    (hq' : (t.removed array e index).place? x = some q') : ∃ q, t.place? x = some q ∧ ¬ t.Within e x := by
  obtain ⟨u, hu, huparent, -⟩ := (childByKey?_eq_some ht.keyed).1 he
  obtain ⟨q, hq⟩ := exists_place?_of_shifted hq'
  exact ⟨q, place?_of_place?_without ht.keyed (ne_root_of_parent hu huparent) hq⟩

/-- An element has one of the numbers of its row. -/
theorem HasRow.lt_of_child (h : t.HasRow array n) (ht : t.WellFormed)
    (he : t.childByKey? array (.index k) = some e) : k < n := by
  obtain ⟨q, hq, hparent, hkey⟩ := (childByKey?_eq_some ht.keyed).1 he
  rcases mem_row.1 (((hasRow_iff ht).1 h _ _).1 ⟨e, q, hq, hparent, hkey, rfl⟩) with ⟨hindex, -⟩ | ⟨j, hj, hkj, -⟩
  · have hk : (k : Int) = -1 := Step.index.inj hindex
    omega
  · have hk : (k : Int) = j := Step.index.inj hkj
    omega

/-- A child of an array that has another key than the element is not below the element. -/
theorem not_within_of_key_ne (ht : t.WellFormed) (he : t.childByKey? array (.index k) = some e) {q : Place}
    (hq : t.place? x = some q) (hparent : q.parent = some array) (hkey : q.key ≠ some (.index k)) :
    ¬ t.Within e x := fun hw => by
  obtain ⟨u, hu, huparent, hukey⟩ := (childByKey?_eq_some ht.keyed).1 he
  by_cases hx : x = e
  · subst hx
    obtain rfl := Option.some.inj (hu.symm.trans hq)
    exact hkey hukey
  · exact not_within_parent ht.keyed hu huparent (hw.above ht.keyed hx hq hparent)

/-- What is a child of the array after the removal has one of the keys of a row that is shorter by one. -/
theorem HasRow.mem_row_of_removed (h : t.HasRow array n) (ht : t.Intact) (hp : t.place? array = some p)
    (harray : p.node.kind = .array) (he : t.childByKey? array (.index k) = some e) {q' : Place} {key : Step}
    (hq' : (t.removed array e k).place? x = some q') (hparent' : q'.parent = some array)
    (hkey' : q'.key = some key) : (key, q'.node.isTemplate) ∈ row (n - 1) := by
  have hwf := ht.wellFormed
  have hkn := h.lt_of_child hwf he
  have hrow := (hasRow_iff hwf).1 h
  obtain ⟨u, hu, huparent, hukey⟩ := (childByKey?_eq_some hwf.keyed).1 he
  obtain ⟨q, hq, hx⟩ := exists_place?_of_removed hwf he hq'
  obtain ⟨q'', hq'', hnode, hparent, -, htemplate, hlive⟩ := place?_removed ht hp harray he hx hq
  obtain rfl := Option.some.inj (hq'.symm.trans hq'')
  rw [hparent] at hparent'
  rw [hnode]
  cases hb : q.node.isTemplate with
  | true =>
    rw [htemplate hparent' hb] at hkey'
    rcases mem_row.1 ((hrow _ _).1 ⟨x, q, hq, hparent', hkey', hb⟩) with hrow' | ⟨_, _, _, h⟩
    · exact mem_row.2 (.inl hrow')
    · cases h
  | false =>
    obtain ⟨-, i, hi, -⟩ := ht.shaped.child hwf hp harray hq hparent'
    rcases mem_row.1 ((hrow _ _).1 ⟨x, q, hq, hparent', hi, hb⟩) with ⟨-, h⟩ | ⟨j, hj, hij, -⟩
    · cases h
    obtain rfl : i = j := Step.index.inj hij
    have hjk : j ≠ k := by
      rintro rfl
      obtain rfl : x = e := eq_of_key_eq hwf hq hu hparent' huparent hi hukey
      exact hx (within_refl hu)
    obtain rfl := Option.some.inj (hkey'.symm.trans (hlive _ hparent' hb hi))
    by_cases hlt : k < j
    · refine mem_row.2 (.inr ⟨j - 1, by omega, ?_, rfl⟩)
      rw [if_pos (by omega)]
      congr 1
      omega
    · refine mem_row.2 (.inr ⟨j, by omega, ?_, rfl⟩)
      rw [if_neg (by omega)]

/-- An array has one element less. -/
theorem HasRow.removed (h : t.HasRow array n) (ht : t.Intact) (hp : t.place? array = some p)
    (harray : p.node.kind = .array) (he : t.childByKey? array (.index k) = some e) :
    (t.removed array e k).HasRow array (n - 1) := by
  have hwf := ht.wellFormed
  have hkn := h.lt_of_child hwf he
  have hrow := (hasRow_iff hwf).1 h
  rw [hasRow_iff (intact_removed ht hp harray he).wellFormed]
  intro key template
  constructor
  · rintro ⟨x, q', hq', hparent', hkey', rfl⟩
    exact h.mem_row_of_removed ht hp harray he hq' hparent' hkey'
  · rintro hmem
    rcases mem_row.1 hmem with ⟨rfl, rfl⟩ | ⟨i, hi, rfl, rfl⟩
    · obtain ⟨x, q, hq, hparent, hkey, hb⟩ := (hrow _ _).2 (mem_row.2 (.inl ⟨rfl, rfl⟩))
      have hx : ¬ t.Within e x := not_within_of_key_ne hwf he hq hparent fun hk => by
        have hk' : templateIndex = k := Step.index.inj (Option.some.inj (hkey.symm.trans hk))
        have hindex : templateIndex = -1 := rfl
        omega
      obtain ⟨q', hq', hnode, hparent', -, htemplate, -⟩ := place?_removed ht hp harray he hx hq
      exact ⟨x, q', hq', hparent'.trans hparent, (htemplate hparent hb).trans hkey, by rw [hnode, hb]⟩
    · -- the element that had this index, or the one behind it
      obtain ⟨j, hj, hjk, hji⟩ : ∃ j : Nat, j < n ∧ j ≠ k ∧ (if (k : Int) < j then (j : Int) - 1 else j) = i := by
        by_cases hik : i < k
        · exact ⟨i, by omega, by omega, if_neg (by omega)⟩
        · exact ⟨i + 1, by omega, by omega, by rw [if_pos (by omega)]; omega⟩
      obtain ⟨x, q, hq, hparent, hkey, hb⟩ := (hrow _ _).2 (mem_row.2 (.inr ⟨j, hj, rfl, rfl⟩))
      have hx : ¬ t.Within e x := not_within_of_key_ne hwf he hq hparent fun hk =>
        hjk (Int.ofNat.inj (Step.index.inj (Option.some.inj (hkey.symm.trans hk))))
      obtain ⟨q', hq', hnode, hparent', -, -, hlive⟩ := place?_removed ht hp harray he hx hq
      exact ⟨x, q', hq', hparent'.trans hparent, by rw [hlive _ hparent hb hkey, hji], by rw [hnode, hb]⟩

/-- All arrays of the tree keep rows. -/
theorem Lined.removed (h : t.Lined) (ht : t.Intact) (hp : t.place? array = some p) (harray : p.node.kind = .array)
    (he : t.childByKey? array (.index k) = some e) : (t.removed array e k).Lined := by
  have hwf := ht.wellFormed
  intro x q' hq' hkind
  obtain ⟨q, hq, hx⟩ := exists_place?_of_removed hwf he hq'
  obtain ⟨q'', hq'', hnode, -⟩ := place?_removed ht hp harray he hx hq
  obtain rfl := Option.some.inj (hq'.symm.trans hq'')
  rw [hnode] at hkind
  obtain ⟨n, hn⟩ := h x q hq hkind
  by_cases hxa : x = array
  · subst hxa
    exact ⟨n - 1, hn.removed ht hp harray he⟩
  refine ⟨n, hn.of_labelled hwf (intact_removed ht hp harray he).wellFormed fun key template => ⟨?_, ?_⟩⟩
  · rintro ⟨c, r', hr', hparent', hkey', rfl⟩
    obtain ⟨r, hr, hc⟩ := exists_place?_of_removed hwf he hr'
    obtain ⟨r'', hr'', hnode', hparent, hkey, -⟩ := place?_removed ht hp harray he hc hr
    obtain rfl := Option.some.inj (hr'.symm.trans hr'')
    rw [hparent] at hparent'
    have hother : r.parent ≠ some array := fun ha => hxa (Option.some.inj (hparent'.symm.trans ha))
    exact ⟨c, r, hr, hparent', (hkey hother).symm.trans hkey', by rw [hnode']⟩
  · rintro ⟨c, r, hr, hparent, hkey, rfl⟩
    have hother : r.parent ≠ some array := fun ha => hxa (Option.some.inj (hparent.symm.trans ha))
    have hc : ¬ t.Within e c := fun hw => by
      obtain ⟨u, hu, huparent, -⟩ := (childByKey?_eq_some hwf.keyed).1 he
      by_cases hce : c = e
      · subst hce
        obtain rfl := Option.some.inj (hu.symm.trans hr)
        exact hother huparent
      · exact hx (hw.above hwf.keyed hce hr hparent)
    obtain ⟨r', hr', hnode', hparent', hkey', -⟩ := place?_removed ht hp harray he hc hr
    exact ⟨c, r', hr', hparent'.trans hparent, (hkey' hother).trans hkey, by rw [hnode']⟩

end Removing

end FieldTree

end LiveForm
