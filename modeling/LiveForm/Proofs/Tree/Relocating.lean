import LiveForm.Proofs.Selector.Matching
import LiveForm.Proofs.Tree.Arrays
import Mathlib.Data.List.Induction

/-!
# Moving a subtree to other paths

A node gets another key, and the paths of all nodes below it begin with other steps from then on. While it is still
taken to be at its old path, no other node comes to be taken for it, since the new path was free.
-/

set_option autoImplicit false

namespace LiveForm

/-- A list that leads into another one, but does not reach its end, leads into all that has but the last of its steps. -/
theorem isPrefix_of_dropLast {l a b rest : List Step} (hl : l <+: a ++ rest) (hnot : ¬ a <+: l)
    (hab : a.dropLast <+: b) : l <+: b := by
  have hla := (List.prefix_or_prefix_of_prefix hl (List.prefix_append a rest)).resolve_right hnot
  rcases List.eq_nil_or_concat a with rfl | ⟨above, k, rfl⟩
  · exact (hnot List.nil_prefix).elim
  · rw [List.concat_eq_append] at hla hnot hab
    rw [List.dropLast_concat] at hab
    rcases List.prefix_concat_iff.1 hla with rfl | hla
    · exact (hnot List.prefix_rfl).elim
    · exact hla.trans hab

namespace FieldTree

variable {t t' : FieldTree} {e x y parent : NodeId} {old new : List Step} {key : Step} {p q : Place}

/-- Above every node there is one for each initial part of its path. -/
theorem exists_place?_of_prefix (ht : t.Keyed) {pre : List Step} (hroot : t.rootPlace.path.steps <+: pre)
    (hq : t.place? x = some q) (hpre : pre <+: q.path.steps) : ∃ y p, t.place? y = some p ∧ p.path.steps = pre := by
  obtain ⟨rest, hrest⟩ := hpre
  induction rest using List.reverseRecOn generalizing x q with
  | nil => exact ⟨x, q, hq, by rw [← hrest, List.append_nil]⟩
  | append_singleton rest k ih =>
    by_cases hx : x = rootId
    · subst hx
      rw [place?_root] at hq
      obtain rfl := Option.some.inj hq
      have hle := hroot.length_le
      have hlen := congrArg List.length hrest
      simp only [List.length_append, List.length_cons, List.length_nil] at hlen
      omega
    · obtain ⟨parent, p, key, -, hp, -, hpath, -⟩ := exists_place?_parent ht hx hq
      refine ih hp ?_
      rw [hpath, Path.child, ← List.append_assoc] at hrest
      exact (List.append_inj' hrest rfl).1

theorem rootPath_isPrefix (ht : t.Keyed) (hp : t.place? x = some p) : t.rootPlace.path.steps <+: p.path.steps := by
  obtain ⟨r, p', hr, hp', hpre⟩ := within_root ht hp
  rw [place?_root] at hr
  obtain rfl := Option.some.inj hr
  obtain rfl := Option.some.inj (hp.symm.trans hp')
  exact hpre

/-- Nothing is at or below the path that a free key would lead to. -/
theorem not_isPrefix_of_free (ht : t.Keyed) (hp : t.place? parent = some p) (hfree : t.childByKey? parent key = none)
    (hq : t.place? x = some q) : ¬ p.path.steps ++ [key] <+: q.path.steps := by
  intro hpre
  have hroot := rootPath_isPrefix ht hp
  obtain ⟨y, v, hv, hvpath⟩ := exists_place?_of_prefix ht (hroot.trans (List.prefix_append _ _)) hq hpre
  have hy : y ≠ rootId := by
    rintro rfl
    rw [place?_root] at hv
    obtain rfl := Option.some.inj hv
    have := hroot.length_le
    simp only [hvpath, List.length_append, List.length_cons, List.length_nil] at this
    omega
  -- The node at that path would be a child with the key.
  obtain ⟨upper, w, k, hparent, hw, hkey, hpath, -⟩ := exists_place?_parent ht hy hv
  rw [hpath, Path.child] at hvpath
  obtain ⟨hwp, hk⟩ := List.append_inj' hvpath rfl
  obtain rfl := eq_of_path_eq ht hw hp (congrArg Path.mk hwp)
  obtain rfl : k = key := (List.cons.inj hk).1
  have hholder := (childByKey?_eq_some ht).2 ⟨v, hv, hparent, hkey⟩
  simp [hfree] at hholder

/-- A tree in which the paths of a node and of all that is below it begin with other steps, where there was nothing. -/
structure Reroutes (t t' : FieldTree) (e : NodeId) (old new : List Step) : Prop where
  before : t.Keyed
  after : t'.Keyed
  outside : ∀ x, ¬ t.Within e x → t'.place? x = t.place? x
  inside : ∀ x q, t.place? x = some q → t.Within e x → ∃ key rest, q.path.steps = old ++ rest ∧
    t'.place? x = some { q with key := key, path := ⟨new ++ rest⟩ }
  top : ∀ q, t.place? e = some q → q.path.steps = old
  within : ∀ x q, t.place? x = some q → old <+: q.path.steps → t.Within e x
  vacant : ∀ x q, t.place? x = some q → ¬ new <+: q.path.steps
  above_old : old.dropLast <+: new
  above_new : new.dropLast <+: old

/-- A tree with the same nodes, in which a node and all that is below it may have other paths. These are none that
another node has had. -/
structure Relocates (t t' : FieldTree) (e : NodeId) : Prop where
  before : t.Keyed
  after : t'.Keyed
  outside : ∀ x, ¬ t.Within e x → t'.place? x = t.place? x
  place? : ∀ {x q}, t.place? x = some q → ∃ q', t'.place? x = some q' ∧ q'.node = q.node ∧ q'.parent = q.parent ∧
    q'.inTemplate = q.inTemplate
  within_iff : ∀ {x y}, t'.Within x y ↔ t.Within x y
  free : ∀ {x y p p' q q'}, t.Within e x → t.place? x = some p → t'.place? x = some p' → t.place? y = some q →
    t'.place? y = some q' → p'.path = p.path ∨ (q'.path ≠ p.path ∧ q.path ≠ p'.path)
  /-- Nothing comes to lie at or below the old path of a node that is below the moved one. -/
  strays : ∀ {x y p q'}, t.Within e x → x ≠ e → t.place? x = some p → t'.place? y = some q' →
    p.path.steps <+: q'.path.steps → t.Within x y

section Rerouting

variable (h : Reroutes t t' e old new)

include h

/-- A moved node is at the new steps. -/
theorem Reroutes.steps (hx : t.Within e x) (hq : t.place? x = some q) (hp : t'.place? x = some p) :
    ∃ rest, q.path.steps = old ++ rest ∧ p.path.steps = new ++ rest := by
  obtain ⟨key, rest, hsteps, hplace⟩ := h.inside x q hq hx
  obtain rfl := Option.some.inj (hplace.symm.trans hp)
  exact ⟨rest, hsteps, rfl⟩

/-- A path that leads to a node that has not moved leads to the old steps if it leads to the new ones. -/
theorem Reroutes.isPrefix_iff (hx : ¬ t.Within e x) (hq : t.place? x = some q) {rest : List Step} :
    q.path.steps <+: new ++ rest ↔ q.path.steps <+: old ++ rest := by
  constructor
  · intro hpre
    exact (isPrefix_of_dropLast hpre (h.vacant x q hq) h.above_new).trans (List.prefix_append _ _)
  · intro hpre
    have hnot : ¬ old <+: q.path.steps := fun hold => hx (h.within x q hq hold)
    exact (isPrefix_of_dropLast hpre hnot h.above_old).trans (List.prefix_append _ _)

theorem Reroutes.place? (hq : t.place? x = some q) : ∃ q', t'.place? x = some q' ∧ q'.node = q.node ∧
    q'.parent = q.parent ∧ q'.inTemplate = q.inTemplate := by
  by_cases hx : t.Within e x
  · obtain ⟨key, rest, -, hplace⟩ := h.inside x q hq hx
    exact ⟨_, hplace, rfl, rfl, rfl⟩
  · exact ⟨q, by rw [h.outside x hx, hq], rfl, rfl, rfl⟩

theorem Reroutes.exists_place? (hq : t'.place? x = some q) : ∃ p, t.place? x = some p := by
  cases hp : t.place? x with
  | some p => exact ⟨p, rfl⟩
  | none =>
    have hx : ¬ t.Within e x := by
      rintro ⟨-, u, -, hu, -⟩
      simp [hp] at hu
    rw [h.outside x hx, hp] at hq
    simp at hq

/-- One path leads to the other as before. -/
theorem Reroutes.isPrefix_place {p q p' q' : Place} (hp : t.place? x = some p) (hq : t.place? y = some q)
    (hp' : t'.place? x = some p') (hq' : t'.place? y = some q') :
    p'.path.steps <+: q'.path.steps ↔ p.path.steps <+: q.path.steps := by
  by_cases hx : t.Within e x
  · obtain ⟨rest, hpo, hpn⟩ := h.steps hx hp hp'
    by_cases hy : t.Within e y
    · obtain ⟨rest', hqo, hqn⟩ := h.steps hy hq hq'
      rw [hpo, hpn, hqo, hqn, List.prefix_append_right_inj, List.prefix_append_right_inj]
    · rw [h.outside y hy, hq] at hq'
      obtain rfl := Option.some.inj hq'
      refine iff_of_false (fun hpre => h.vacant y q hq (.trans ?_ hpre)) fun hpre => hy (h.within y q hq (.trans ?_ hpre))
      · rw [hpn]
        exact List.prefix_append _ _
      · rw [hpo]
        exact List.prefix_append _ _
  · rw [h.outside x hx, hp] at hp'
    obtain rfl := Option.some.inj hp'
    by_cases hy : t.Within e y
    · obtain ⟨rest', hqo, hqn⟩ := h.steps hy hq hq'
      rw [hqo, hqn]
      exact h.isPrefix_iff hx hp
    · rw [h.outside y hy, hq] at hq'
      rw [Option.some.inj hq']

/-- Each node is below the same ones as before. -/
theorem Reroutes.within_iff : t'.Within x y ↔ t.Within x y := by
  constructor
  · rintro ⟨p', q', hp', hq', hpre⟩
    obtain ⟨p, hp⟩ := h.exists_place? hp'
    obtain ⟨q, hq⟩ := h.exists_place? hq'
    exact ⟨p, q, hp, hq, (h.isPrefix_place hp hq hp' hq').1 hpre⟩
  · rintro ⟨p, q, hp, hq, hpre⟩
    obtain ⟨_, hp', -⟩ := h.place? hp
    obtain ⟨_, hq', -⟩ := h.place? hq
    exact ⟨_, _, hp', hq', (h.isPrefix_place hp hq hp' hq').2 hpre⟩

theorem Reroutes.relocates : Relocates t t' e where
  before := h.before
  after := h.after
  outside := h.outside
  place? := h.place?
  within_iff := h.within_iff
  free {x y p p' q q'} hx hp hp' hq hq' := by
    obtain ⟨rest, hold, hnew⟩ := h.steps hx hp hp'
    refine .inr ⟨fun he => ?_, fun he => h.vacant y q hq ?_⟩
    · by_cases hy : t.Within e y
      · obtain ⟨rest', -, hqn⟩ := h.steps hy hq hq'
        refine h.vacant x p hp ?_
        rw [← he, hqn]
        exact List.prefix_append _ _
      · rw [h.outside y hy, hq] at hq'
        obtain rfl := Option.some.inj hq'
        exact hy (eq_of_path_eq h.before hq hp he ▸ hx)
    · rw [he, hnew]
      exact List.prefix_append _ _
  strays {x y p q'} hx hne hp hq' hpre := by
    obtain ⟨u, _, hu, _, _⟩ := id hx
    obtain ⟨_, hp', -⟩ := h.place? hp
    obtain ⟨q, hq⟩ := h.exists_place? hq'
    obtain ⟨rest, hold, -⟩ := h.steps hx hp hp'
    by_cases hy : t.Within e y
    · -- The new steps would have to go on along the old path, where there was nothing.
      obtain ⟨rest', -, hnew⟩ := h.steps hy hq hq'
      rw [hnew] at hpre
      have hshort : p.path.steps <+: old := isPrefix_of_dropLast hpre (h.vacant x p hp) h.above_new
      have hsame : p.path.steps = u.path.steps := by
        rw [h.top u hu]
        exact hshort.eq_of_length_le (hold ▸ (List.prefix_append old rest).length_le)
      exact (hne (eq_of_path_eq h.before hp hu (congrArg Path.mk hsame))).elim
    · rw [h.outside y hy, hq] at hq'
      obtain rfl := Option.some.inj hq'
      refine (hy (h.within y q hq (.trans ?_ hpre))).elim
      rw [hold]
      exact List.prefix_append _ _

end Rerouting

theorem Relocates.refl (ht : t.Keyed) (e : NodeId) : Relocates t t e where
  before := ht
  after := ht
  outside _ _ := rfl
  place? hq := ⟨_, hq, rfl, rfl, rfl⟩
  within_iff := .rfl
  free _ hp hp' _ _ := .inl (by rw [Option.some.inj (hp'.symm.trans hp)])
  strays _ _ hp hq' hpre := ⟨_, _, hp, hq', hpre⟩

section Relocating

variable (h : Relocates t t' e)

include h

theorem Relocates.place?_back (hq : t'.place? x = some q) : ∃ p, t.place? x = some p ∧ q.node = p.node ∧
    q.parent = p.parent ∧ q.inTemplate = p.inTemplate := by
  cases hp : t.place? x with
  | none =>
    have hx : ¬ t.Within e x := by
      rintro ⟨-, u, -, hu, -⟩
      simp [hp] at hu
    rw [h.outside x hx, hp] at hq
    simp at hq
  | some p =>
    obtain ⟨q', hq', hnode, hparent, htemplate⟩ := h.place? hp
    obtain rfl := Option.some.inj (hq.symm.trans hq')
    exact ⟨p, rfl, hnode, hparent, htemplate⟩

theorem Relocates.parent_eq (x : NodeId) : (t'.place? x).bind Place.parent = (t.place? x).bind Place.parent := by
  cases hx : t.place? x with
  | some q =>
    obtain ⟨q', hq', -, hparent, -⟩ := h.place? hx
    simp [hq', hparent]
  | none =>
    cases hx' : t'.place? x with
    | none => rfl
    | some q =>
      obtain ⟨p, hp, -⟩ := h.place?_back hx'
      simp [hx] at hp

theorem Relocates.wellFormed (ht : t.WellFormed) : t'.WellFormed :=
  { h.after with
    formulas := fun x q hq => by
      obtain ⟨p, hp, hnode, -⟩ := h.place?_back hq
      rw [hnode]
      exact ht.formulas x p hp }

/-- A selector goes on to stand for a node that has not moved. -/
theorem Relocates.matches_iff {s : Selector} {base : NodeId} (hx : ¬ t.Within e x) :
    t'.Matches s base x ↔ t.Matches s base x := by
  have hsame := h.outside x hx
  by_cases hbase : t.Within e base
  · constructor
    · rintro ⟨p, q, steps, hp, hq, -, -, -, hsteps, -⟩
      exact (hx (hbase.trans (h.within_iff.1 ⟨p, q, hp, hq, ⟨steps, hsteps.symm⟩⟩))).elim
    · rintro ⟨p, q, steps, hp, hq, -, -, -, hsteps, -⟩
      exact (hx (hbase.trans ⟨p, q, hp, hq, ⟨steps, hsteps.symm⟩⟩)).elim
  · unfold Matches
    rw [hsame, h.outside base hbase]

/-- The base of a match is above the field. -/
theorem Relocates.within_of_matches {s : Selector} {base : NodeId} (hm : t'.Matches s base x) : t.Within base x := by
  obtain ⟨p, q, steps, hp, hq, -, -, -, hsteps, -⟩ := hm
  exact h.within_iff.1 ⟨p, q, hp, hq, ⟨steps, hsteps.symm⟩⟩

/-- A selector whose base is still taken to be at its old place accepts nothing that is not below the base. -/
theorem Relocates.within_of_accepts {s : Selector} {base : NodeId} (hbase : t.Within e base) (hne : base ≠ e)
    (hp : t.place? base = some p) (haccepts : s.accepts t' p.path x = true) : t.Within base x := by
  obtain ⟨q, hq, -, hpre⟩ := Selector.prefix_of_accepts haccepts
  exact h.strays hbase hne hp hq hpre

end Relocating

section Rekeying

/-- A node that is given a key which none of its siblings has. -/
theorem reroutes_withKey (ht : t.Keyed) (hp : t.place? parent = some p) (hq : t.place? e = some q)
    (hparent : q.parent = some parent) {k : Step} (hkey : q.key = some k)
    (hfree : t.childByKey? parent key = none) :
    Reroutes t (t.withKey e key) e (p.path.steps ++ [k]) (p.path.steps ++ [key]) := by
  have he := ne_root_of_parent hq hparent
  obtain ⟨_, p', k', hupper, hp', hkey', hpath, -⟩ := exists_place?_parent ht he hq
  obtain rfl := Option.some.inj (hparent.symm.trans hupper)
  obtain rfl := Option.some.inj (hp.symm.trans hp')
  obtain rfl := Option.some.inj (hkey.symm.trans hkey')
  have hsteps : q.path.steps = p.path.steps ++ [k] := congrArg Path.steps hpath
  refine
    { before := ht
      after := ht.withKey hq hparent fun holder hholder => by simp [hfree] at hholder
      outside := fun x hx => place?_withKey_of_not_within ht he hx
      inside := fun x u hu hx => ?_
      top := fun u hu => by rw [Option.some.inj (hu.symm.trans hq), hsteps]
      within := fun x u hu hpre => ⟨q, u, hq, hu, by rwa [hsteps]⟩
      vacant := fun x u hu => not_isPrefix_of_free ht hp hfree hu
      above_old := by simp
      above_new := by simp }
  obtain ⟨q', u', hq', hu', rest, hrest⟩ := id hx
  obtain rfl := Option.some.inj (hq.symm.trans hq')
  obtain rfl := Option.some.inj (hu.symm.trans hu')
  rw [hsteps] at hrest
  refine ⟨if x = e then some key else u.key, rest, hrest.symm, ?_⟩
  rw [place?_withKey_of_within ht he hq hx, hu, Option.map_some, hsteps, ← hrest]
  simp [Forest.rekeyedSteps]

/-- The tree after the root was given another key. -/
def withRootKey (t : FieldTree) (key : Step) : FieldTree :=
  { t with rootKey := some key }

theorem steps_rootPlace (t : FieldTree) : t.rootPlace.path.steps = t.rootKey.toList := rfl

/-- The root gets another key. If it had none, then none of its children has that key. -/
theorem reroutes_withRootKey (ht : t.Keyed) (hne : t.rootKey ≠ some key)
    (hfree : t.rootKey = none → t.childByKey? rootId key = none) :
    Reroutes t (t.withRootKey key) rootId t.rootKey.toList [key] where
  before := ht
  after := { ht with }
  outside x hx := by
    have hnone : t.place? x = none := by
      cases hq : t.place? x with
      | none => rfl
      | some q => exact (hx (within_root ht hq)).elim
    rw [hnone]
    exact place?_eq_none.2 (place?_eq_none (t := t).1 hnone)
  inside x q hq _ := by
    by_cases hx : x = rootId
    · subst hx
      rw [place?_root] at hq
      obtain rfl := Option.some.inj hq
      exact ⟨some key, [], by rw [List.append_nil]; rfl, by rw [place?_root]; rfl⟩
    · rw [place?_of_ne_root t hx] at hq
      obtain ⟨s, hs, rfl⟩ := Option.map_eq_some_iff.1 hq
      refine ⟨some s.key, s.steps, rfl, ?_⟩
      rw [place?_of_ne_root _ hx]
      exact Option.map_eq_some_iff.2 ⟨s, hs, rfl⟩
  top q hq := by
    rw [place?_root] at hq
    rw [← Option.some.inj hq, steps_rootPlace]
  within x q hq _ := within_root ht hq
  vacant x q hq := by
    cases hkey : t.rootKey with
    | none =>
      have hnot := not_isPrefix_of_free ht (place?_root t) (hfree hkey) hq
      rwa [steps_rootPlace, hkey] at hnot
    | some k =>
      obtain ⟨rest, hrest⟩ := rootPath_isPrefix ht hq
      rw [steps_rootPlace, hkey, Option.toList_some] at hrest
      rw [← hrest, List.singleton_append, List.cons_prefix_cons]
      rintro ⟨rfl, -⟩
      exact hne hkey
  above_old := by cases t.rootKey <;> simp
  above_new := by simp

/-- A node that is given a key is in the tree. -/
theorem exists_place?_of_rekey {path : Path} (hrekey : t.rekey e key = .ok (path, t')) : ∃ q, t.place? e = some q := by
  obtain ⟨l, hl, -⟩ := require_bind_ok hrekey
  exact ⟨_, (locate?_eq_some hl).1⟩

/-- What a node and all that is below it go through if the node is given another key. The root must not get the key of
one of its children, unless it had a key before. -/
theorem relocates_of_rekey (ht : t.Keyed) {path : Path} (hrekey : t.rekey e key = .ok (path, t'))
    (hroot : e = rootId → t.rootKey = none → t.childByKey? rootId key = none) : Relocates t t' e := by
  rcases rekey_effect hrekey with ⟨rfl, rfl⟩ | ⟨he, rfl, parent, q, hq, hparent, hown⟩
  · by_cases hkey : t.rootKey = some key
    · rw [← hkey]
      exact .refl ht _
    · exact (reroutes_withRootKey ht hkey (hroot rfl)).relocates
  · obtain ⟨parent', p, k, hparent', hp, hkey, -⟩ := exists_place?_parent ht he hq
    obtain rfl := Option.some.inj (hparent.symm.trans hparent')
    cases hfree : t.childByKey? parent key with
    | none => exact (reroutes_withKey ht hp hq hparent hkey hfree).relocates
    | some holder =>
      obtain rfl := hown holder hfree
      -- The key is its own.
      have hself : t.fields.rekey holder key = t.fields := by
        obtain ⟨u, hu, -, hukey⟩ := (childByKey?_eq_some ht).1 hfree
        rw [place?_of_ne_root t he] at hu
        obtain ⟨s, hs, rfl⟩ := Option.map_eq_some_iff.1 hu
        obtain rfl : s.key = key := Option.some.inj hukey
        exact Forest.rekey_self ht.nodup hs
      rw [withKey, hself]
      exact .refl ht _

end Rekeying

end FieldTree

end LiveForm
