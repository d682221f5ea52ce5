import LiveForm.Proofs.Path.Syntax
import LiveForm.Proofs.Tree.WellFormed

/-!
# Finding nodes by their paths

A path leads to the node whose path it is, if there is one. So a node is found by the text of its path exactly if the
grammar of paths can write that text.
-/

set_option autoImplicit false

namespace LiveForm

namespace Forest

variable {f : Forest} {x : NodeId} {steps : List Step}

/-- A walk along some steps ends at the node that has them. -/
theorem spot?_of_find? (hn : f.ids.Nodup) (h : f.find? steps = some x) : ∃ s, f.spot? x = some s ∧ s.steps = steps := by
  induction f generalizing steps with
  | nil => cases h
  | cons id key node children siblings ihc ihs =>
    obtain ⟨-, -, hnc, hns, -⟩ := nodup_ids_cons hn
    cases steps with
    | nil => cases h
    | cons step rest =>
      rw [find?] at h
      split at h
      next hkey =>
        subst hkey
        split at h
        next hrest =>
          obtain rfl := Option.some.inj h
          obtain rfl := List.isEmpty_iff.1 hrest
          exact ⟨_, if_pos rfl, rfl⟩
        next =>
          obtain ⟨s, hs, rfl⟩ := ihc hnc h
          exact ⟨s.beneath id key node, spot?_of_mem_children hn hs, rfl⟩
      next =>
        obtain ⟨s, hs, hsteps⟩ := ihs hns h
        exact ⟨s, spot?_of_mem_siblings hn hs, hsteps⟩

/-- Where keys are distinct, the steps to a node lead to it. -/
theorem find?_of_spot? (hk : f.DistinctKeys) {s : Spot} (h : f.spot? x = some s) : f.find? s.steps = some x := by
  induction f generalizing s with
  | nil => cases h
  | cons id key node children siblings ihc ihs =>
    obtain ⟨hkh, hkc, hks⟩ := hk
    rcases spot?_cases h with ⟨rfl, rfl⟩ | ⟨-, u, hu, rfl⟩ | ⟨-, -, h⟩
    · rw [find?, if_pos rfl, if_pos (by rfl)]
    · have hne : u.steps.isEmpty = false := List.isEmpty_eq_false_iff.2 (steps_ne_nil hu)
      simp only [Spot.beneath, find?, hne, if_true, Bool.false_eq_true, if_false]
      exact ihc hkc hu
    · -- the steps start with the key of another node, which is not that of the first one
      obtain ⟨c, hc, rest, hrest⟩ := steps_of_spot? h
      have hfind := ihs hks h
      rw [hrest] at hfind ⊢
      rwa [find?, if_neg (Ne.symm (hkh c hc))]

end Forest

namespace FieldTree

variable {t : FieldTree} {x : NodeId} {p : Path}

/-- The node that a path leads to is the one whose path it is. -/
theorem find?_eq_some (h : t.Keyed) (hroot : t.rootKey = none) :
    t.find? p = some x ↔ ∃ q, t.place? x = some q ∧ q.path = p := by
  have habove : t.rootPlace.path = .root := by simp [rootPlace, Located.place, locatedRoot, hroot, Path.root]
  unfold find?
  split
  next hp =>
    have hp : p = .root := congrArg Path.mk (List.isEmpty_iff.1 hp)
    constructor
    · intro hx
      obtain rfl := Option.some.inj hx
      exact ⟨_, t.place?_root, habove.trans hp.symm⟩
    · rintro ⟨q, hq, hpath⟩
      rw [eq_of_path_eq h hq t.place?_root (hpath.trans (hp.trans habove.symm))]
  next hp =>
    constructor
    · intro hx
      obtain ⟨s, hs, hsteps⟩ := Forest.spot?_of_find? h.nodup hx
      have hne := h.ne_root x (Forest.mem_ids_of_spot? hs)
      refine ⟨_, (t.place?_of_ne_root hne).trans (by rw [hs]; rfl), ?_⟩
      simp [Spot.place, habove, Path.root, hsteps]
    · rintro ⟨q, hq, rfl⟩
      have hne : x ≠ rootId := by
        rintro rfl
        obtain rfl := Option.some.inj (t.place?_root.symm.trans hq)
        simp [habove, Path.root, Path.isRoot] at hp
      rw [place?_of_ne_root t hne, Option.map_eq_some_iff] at hq
      obtain ⟨s, hs, rfl⟩ := hq
      simpa [Spot.place, habove, Path.root] using Forest.find?_of_spot? h.keys hs

/-- A node is found by the text of its path exactly if the grammar can write that path. -/
theorem find?_parse_render (h : t.WellFormed) (hroot : t.rootKey = none) {q : Place} (hq : t.place? x = some q) :
    (∃ p, Path.parse q.path.render = .ok p ∧ t.find? p = some x) ↔ q.path.Writable := by
  constructor
  · rintro ⟨p, hp, hx⟩
    obtain ⟨q', hq', rfl⟩ := (find?_eq_some h.keyed hroot).1 hx
    obtain rfl := Option.some.inj (hq.symm.trans hq')
    exact Path.writable_of_parse hp
  · intro hwritable
    exact ⟨q.path, Path.parse_render hwritable, (find?_eq_some h.keyed hroot).2 ⟨q, hq, rfl⟩⟩

end FieldTree

end LiveForm
