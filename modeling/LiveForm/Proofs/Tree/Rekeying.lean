import LiveForm.Proofs.Tree.Children
import LiveForm.Tree.Edit

/-!
# Giving a node another key

A new key changes the paths of the node and of all that is below it, each in the one step that leads to
the node. All else stays.
-/

set_option autoImplicit false

namespace LiveForm

namespace Forest

variable {target : NodeId} {newKey : Step}

theorem rekey_of_not_mem {f : Forest} (h : target ∉ f.ids) : f.rekey target newKey = f := by
  induction f with
  | nil => rfl
  | cons id key node children siblings ihc ihs =>
    simp only [ids, List.mem_cons, List.mem_append, not_or] at h
    simp [rekey, ihc h.2.1, ihs h.2.2, Ne.symm h.1]

/-- A node that is given its own key stays as it is. -/
theorem rekey_self {f : Forest} {s : Spot} (hn : f.ids.Nodup) (hs : f.spot? target = some s) :
    f.rekey target s.key = f := by
  induction f generalizing s with
  | nil => rfl
  | cons id key node children siblings ihc ihs =>
    obtain ⟨hic, his, hnc, hns, hcs⟩ := nodup_ids_cons hn
    rcases spot?_cases hs with ⟨rfl, rfl⟩ | ⟨hid, s', hs', rfl⟩ | ⟨hid, hnot, hs⟩
    · rw [rekey, if_pos rfl, rekey_of_not_mem hic, rekey_of_not_mem his]
    · have hkey : (s'.beneath id key node).key = s'.key := rfl
      rw [rekey, if_neg hid, hkey, ihc hnc hs', rekey_of_not_mem (hcs _ (mem_ids_of_spot? hs'))]
    · rw [rekey, if_neg hid, ihs hns hs, rekey_of_not_mem hnot]

theorem ids_rekey (f : Forest) : (f.rekey target newKey).ids = f.ids := by
  induction f with
  | nil => rfl
  | cons id key node children siblings ihc ihs => simp [rekey, ids, ihc, ihs]

theorem heads_rekey (f : Forest) : (f.rekey target newKey).heads =
    f.heads.map fun c => { c with key := if c.id = target then newKey else c.key } := by
  induction f with
  | nil => rfl
  | cons id key node children siblings _ ihs => simp [rekey, heads, ihs]

/-- Nodes beside the rekeyed one and the nodes below these stay where they are. -/
theorem spot?_rekey_of_not_mem {f g : Forest} {x : NodeId} (hn : f.ids.Nodup)
    (hg : f.below? target = some g) (hxt : x ≠ target) (hx : x ∉ g.ids) :
    (f.rekey target newKey).spot? x = f.spot? x := by
  induction f with
  | nil => rfl
  | cons id key node children siblings ihc ihs =>
    obtain ⟨hic, his, hnc, hns, hcs⟩ := nodup_ids_cons hn
    rw [rekey]
    rcases below?_cases hg with ⟨rfl, rfl⟩ | ⟨ht, hg⟩ | ⟨ht, htc, hg⟩
    · rw [rekey_of_not_mem his, rekey_of_not_mem hic, spot?, spot?, if_neg (Ne.symm hxt), if_neg (Ne.symm hxt),
        spot?_eq_none.2 hx, Option.map_none, Option.map_none]
    · rw [if_neg ht, rekey_of_not_mem (hcs _ (mem_of_below? hg)), spot?, spot?, ihc hnc hg]
    · rw [if_neg ht, rekey_of_not_mem htc, spot?, spot?, ihs hns hg]

/-- The steps of a node at or below the rekeyed one: the step to the latter is the new key. -/
def rekeyedSteps (old : List Step) (newKey : Step) (steps : List Step) : List Step :=
  old.dropLast ++ newKey :: steps.drop old.length

theorem rekeyedSteps_cons {k : Step} {old steps : List Step} (h : old ≠ []) :
    rekeyedSteps (k :: old) newKey (k :: steps) = k :: rekeyedSteps old newKey steps := by
  simp [rekeyedSteps, List.dropLast_cons_of_ne_nil h]

/-- The nodes at and below the rekeyed one keep what is theirs, and their paths follow. -/
theorem spot?_rekey_of_mem {f g : Forest} {x : NodeId} {u : Spot} (hn : f.ids.Nodup)
    (hu : f.spot? target = some u) (hg : f.below? target = some g) (hx : x = target ∨ x ∈ g.ids) :
    (f.rekey target newKey).spot? x = (f.spot? x).map fun s =>
      { s with key := if x = target then newKey else s.key
               steps := rekeyedSteps u.steps newKey s.steps } := by
  induction f generalizing u with
  | nil => rfl
  | cons id key node children siblings ihc ihs =>
    obtain ⟨hic, his, hnc, hns, hcs⟩ := nodup_ids_cons hn
    rw [rekey]
    rcases below?_cases hg with ⟨rfl, rfl⟩ | ⟨ht, hg⟩ | ⟨ht, htc, hg⟩
    · rw [spot?, if_pos rfl] at hu
      obtain rfl := Option.some.inj hu
      rw [if_pos rfl, rekey_of_not_mem his, rekey_of_not_mem hic]
      rcases hx with rfl | hx
      · simp [spot?, rekeyedSteps]
      · have hne : x ≠ id := fun he => hic (he ▸ hx)
        have hn' : (cons id newKey node g siblings).ids.Nodup := hn
        rw [spot?_cons_of_mem_children hn' hx, spot?_cons_of_mem_children hn hx]
        cases g.spot? x with
        | none => rfl
        | some s => simp [Spot.beneath, rekeyedSteps, hne]
    · have htc : target ∈ children.ids := mem_of_below? hg
      have hxc : x ∈ children.ids := hx.elim (· ▸ htc) (mem_ids_of_below? hg)
      have hn' : (cons id key node (children.rekey target newKey) siblings).ids.Nodup := by rwa [ids, ids_rekey]
      obtain ⟨v, hv⟩ := Option.isSome_iff_exists.1 ((isSome_spot? target children).2 htc)
      obtain rfl := Option.some.inj ((spot?_of_mem_children hn hv).symm.trans hu)
      rw [if_neg ht, rekey_of_not_mem (hcs _ htc), spot?_cons_of_mem_children hn' (by rwa [ids_rekey]),
        spot?_cons_of_mem_children hn hxc, ihc hnc hv hg]
      cases children.spot? x with
      | none => rfl
      | some s => simp [Spot.beneath, rekeyedSteps_cons (steps_ne_nil hv)]
    · have hts : target ∈ siblings.ids := mem_of_below? hg
      have hxs : x ∈ siblings.ids := hx.elim (· ▸ hts) (mem_ids_of_below? hg)
      have hn' : (cons id key node children (siblings.rekey target newKey)).ids.Nodup := by rwa [ids, ids_rekey]
      rw [spot?_cons_of_mem_siblings hn hts] at hu
      rw [if_neg ht, rekey_of_not_mem htc, spot?_cons_of_mem_siblings hn' (by rwa [ids_rekey]),
        spot?_cons_of_mem_siblings hn hxs, ihs hns hu hg]

/-- Keys stay distinct if nothing beside the node has the new key. -/
theorem distinctKeys_rekey {f : Forest} (hn : f.ids.Nodup) (hk : f.DistinctKeys)
    (hown : target ∈ f.heads.map Child.id → ∀ c ∈ f.heads, c.key = newKey → c.id = target)
    (hlow : ∀ p g, f.below? p = some g → target ∈ g.heads.map Child.id →
      ∀ c ∈ g.heads, c.key = newKey → c.id = target) : (f.rekey target newKey).DistinctKeys := by
  induction f with
  | nil => exact hk
  | cons id key node children siblings ihc ihs =>
    obtain ⟨-, his, hnc, hns, -⟩ := nodup_ids_cons hn
    obtain ⟨hkh, hkc, hks⟩ := hk
    simp only [heads, List.map_cons, List.mem_cons] at hown
    have hsub {x : NodeId} (hx : x ∈ siblings.heads.map Child.id) : x ∈ siblings.ids := by
      obtain ⟨c, hc, rfl⟩ := List.mem_map.1 hx
      exact mem_ids_of_mem_heads hc
    refine ⟨?_, ihc hnc hkc ?_ ?_, ihs hns hks ?_ ?_⟩
    · rw [heads_rekey]
      simp only [List.forall_mem_map]
      intro c hc
      have hmem : c.id ∈ siblings.heads.map Child.id := List.mem_map_of_mem hc
      have hci : c.id ≠ id := fun he => his (he ▸ hsub hmem)
      by_cases hct : c.id = target
      · have hit : id ≠ target := fun he => hci (hct.trans he.symm)
        rw [if_pos hct, if_neg hit]
        intro he
        exact hit (hown (.inr (hct ▸ hmem)) _ (.inl rfl) he.symm)
      · rw [if_neg hct]
        by_cases hit : id = target
        · rw [if_pos hit]
          intro he
          exact hct (hown (.inl hit.symm) c (.inr hc) he)
        · rw [if_neg hit]
          exact hkh c hc
    · exact hlow id children (by rw [below?, if_pos rfl])
    · exact fun p g hg => hlow p g ((below?_of_mem_children hn (mem_of_below? hg)).trans hg)
    · exact fun hmem c hc => hown (.inr hmem) c (.inr hc)
    · exact fun p g hg => hlow p g ((below?_of_mem_siblings hn (mem_of_below? hg)).trans hg)

end Forest

namespace FieldTree

variable {t : FieldTree} {target : NodeId} {newKey : Step}

/-- The tree in which a node other than the root has another key. -/
def withKey (t : FieldTree) (id : NodeId) (key : Step) : FieldTree :=
  { t with fields := t.fields.rekey id key }

/-- A node can be given a key that none of its siblings has. -/
theorem rekey_eq {parent : NodeId} {q : Place} (hq : t.place? target = some q) (hparent : q.parent = some parent)
    (hfree : t.childByKey? parent newKey = none) : t.rekey target newKey = .ok (q.path, t.withKey target newKey) := by
  obtain ⟨l, hl, rfl⟩ := exists_locate? hq
  have hparent' : l.parent = some parent := hparent
  simp [FieldTree.rekey, FieldTree.require, hl, hparent', hfree, bind, Except.bind, pure, Except.pure,
    withKey, Located.place]

theorem place?_withKey_of_not_within (h : t.Keyed) (ht : target ≠ rootId) {x : NodeId}
    (hx : ¬ t.Within target x) : (t.withKey target newKey).place? x = t.place? x := by
  by_cases hxr : x = rootId
  · subst hxr
    rw [place?_root, place?_root]
    rfl
  · rw [place?_of_ne_root _ hxr, place?_of_ne_root t hxr]
    by_cases hmem : target ∈ t.fields.ids
    · obtain ⟨g, hg⟩ := Forest.exists_below? hmem
      have hg' : t.below? target = some g := by rwa [below?_of_ne_root t ht]
      rw [within_iff h hg', not_or] at hx
      rw [withKey, Forest.spot?_rekey_of_not_mem h.nodup hg hx.1 hx.2]
      rfl
    · rw [withKey, Forest.rekey_of_not_mem hmem]

/-- The place of a node at or below the rekeyed one. -/
theorem place?_withKey_of_within (h : t.Keyed) (ht : target ≠ rootId) {x : NodeId} {p : Place}
    (hp : t.place? target = some p) (hx : t.Within target x) :
    (t.withKey target newKey).place? x = (t.place? x).map fun q =>
      { q with key := if x = target then some newKey else q.key
               path := ⟨Forest.rekeyedSteps p.path.steps newKey q.path.steps⟩ } := by
  obtain ⟨g, hg⟩ := exists_below? hp
  have hmem := (within_iff h hg).1 hx
  rw [below?_of_ne_root t ht] at hg
  have hxr : x ≠ rootId := by
    rcases hmem with rfl | hmem
    · exact ht
    · exact h.ne_root x (Forest.mem_ids_of_below? hg hmem)
  rw [place?_of_ne_root t ht, Option.map_eq_some_iff] at hp
  obtain ⟨u, hu, rfl⟩ := hp
  rw [place?_of_ne_root _ hxr, place?_of_ne_root t hxr, withKey,
    Forest.spot?_rekey_of_mem h.nodup hu hg hmem]
  cases hs : t.fields.spot? x with
  | none => rfl
  | some s =>
    have hne := Forest.steps_ne_nil hu
    simp only [Option.map_some, Option.some.injEq, Spot.place, Place.mk.injEq, and_true, true_and]
    refine ⟨by split <;> rfl, ?_⟩
    simp [Forest.rekeyedSteps, rootPlace, locatedRoot, Located.place, List.dropLast_append_of_ne_nil hne]

/-- Rekeying keeps the data, the parents and the template flags of all nodes. -/
theorem exists_place?_withKey (h : t.Keyed) (ht : target ≠ rootId) {x : NodeId} {q : Place}
    (hq : t.place? x = some q) : ∃ key path, (t.withKey target newKey).place? x =
      some { q with key := key, path := path } := by
  by_cases hx : t.Within target x
  · obtain ⟨p, hp⟩ : ∃ p, t.place? target = some p := by
      obtain ⟨p, _, hp, _⟩ := hx
      exact ⟨p, hp⟩
    rw [place?_withKey_of_within h ht hp hx, hq]
    exact ⟨_, _, rfl⟩
  · rw [place?_withKey_of_not_within h ht hx, hq]
    exact ⟨_, _, rfl⟩

theorem place?_eq_none_withKey {x : NodeId} :
    (t.withKey target newKey).place? x = none ↔ t.place? x = none := by
  rw [place?_eq_none, place?_eq_none, withKey, Forest.ids_rekey]

theorem Keyed.withKey (h : t.Keyed) {p : Place} {parent : NodeId}
    (hp : t.place? target = some p) (hparent : p.parent = some parent)
    (hfree : ∀ holder, t.childByKey? parent newKey = some holder → holder = target) :
    (t.withKey target newKey).Keyed where
  nodup := by simpa [FieldTree.withKey, Forest.ids_rekey] using h.nodup
  ne_root := by simpa [FieldTree.withKey, Forest.ids_rekey] using h.ne_root
  lt_next := by simpa [FieldTree.withKey, Forest.ids_rekey] using h.lt_next
  next_pos := h.next_pos
  root_group := h.root_group
  root_live := h.root_live
  keys := by
    have hcheck {upper : NodeId} {g : Forest} (hg : t.below? upper = some g)
        (hmem : target ∈ g.heads.map Child.id) :
        ∀ c ∈ g.heads, c.key = newKey → c.id = target := by
      rintro ⟨id, key, node⟩ hc rfl
      obtain ⟨c', hc', hid⟩ := List.mem_map.1 hmem
      obtain ⟨q, hq, hqp, -, -⟩ := (mem_heads_below? h hg).1 hc'
      rw [hid, hp] at hq
      obtain rfl := Option.some.inj hq
      obtain rfl : parent = upper := Option.some.inj (hparent.symm.trans hqp)
      refine hfree id ?_
      obtain ⟨l, hl, rfl⟩ := Option.map_eq_some_iff.1 hg
      rw [childByKey?, hl, Option.bind_some]
      exact (Forest.childByKey?_eq_some (distinctKeys_below? h hg)).2 ⟨node, hc⟩
    refine Forest.distinctKeys_rekey h.nodup h.keys (hcheck (below?_root t)) ?_
    intro upper g hg
    have hu : upper ≠ rootId :=
      h.ne_root upper (Forest.mem_of_below? hg)
    exact hcheck (by rwa [below?_of_ne_root t hu])

theorem WellFormed.withKey (h : t.WellFormed) (ht : target ≠ rootId) {p : Place} {parent : NodeId}
    (hp : t.place? target = some p) (hparent : p.parent = some parent)
    (hfree : ∀ holder, t.childByKey? parent newKey = some holder → holder = target) :
    (t.withKey target newKey).WellFormed :=
  { h.keyed.withKey hp hparent hfree with
    formulas := fun x q hq => by
      rcases hq' : t.place? x with _ | q'
      · rw [place?_eq_none_withKey.2 hq'] at hq
        simp at hq
      · obtain ⟨key, path, hq''⟩ := exists_place?_withKey h.keyed ht hq'
        obtain rfl := Option.some.inj (hq.symm.trans hq'')
        exact h.formulas x q' hq' }

end FieldTree

end LiveForm
