import LiveForm.Proofs.Tree.Arrays
import LiveForm.Proofs.Tree.Rekeying

/-!
# Closing a gap in an array

When an element is gone, the elements behind it move up by one, in the order of their indices. Each of them finds the
index in front of it free: by then there is a gap, and all that is still behind the gap is still to be moved.
-/

set_option autoImplicit false

namespace LiveForm.FieldTree

variable {t : FieldTree} {array e target : NodeId} {gap i : Int} {rest : List (Int × NodeId)}

/-- A node keeps all but its path when another one is given a new key. -/
theorem key_withKey (h : t.WellFormed) {x : NodeId} {p q : Place} {key : Step} (ht : target ≠ rootId)
    (hp : t.place? target = some p) (hq : t.place? x = some q) : ∃ q', (t.withKey target key).place? x = some q' ∧
      q'.node = q.node ∧ q'.parent = q.parent ∧ q'.key = if x = target then some key else q.key := by
  by_cases hx : t.Within target x
  · rw [place?_withKey_of_within h.keyed ht hp hx, hq]
    exact ⟨_, rfl, rfl, rfl, rfl⟩
  · have hne : x ≠ target := by
      rintro rfl
      exact hx (within_refl hq)
    rw [place?_withKey_of_not_within h.keyed ht hx, hq, if_neg hne]
    exact ⟨q, rfl, rfl, rfl, rfl⟩

/-- The elements behind an index. -/
def elementsBehind (t : FieldTree) (array : NodeId) (index : Int) : List (Int × NodeId) :=
  (t.elements array).filter fun entry => index < entry.1

/-- Some elements of an array with a gap in it are those behind the gap. -/
structure Closing (t : FieldTree) (array : NodeId) (gap : Int) (rest : List (Int × NodeId)) : Prop where
  placed : ∃ p, t.place? array = some p
  slot : templateIndex ≤ gap
  child : ∀ i e, (i, e) ∈ rest → ∃ q, t.place? e = some q ∧ q.parent = some array ∧ q.key = some (.index i) ∧
    q.node.isTemplate = false
  behind : ∀ entry ∈ rest, gap < entry.1
  sorted : rest.Pairwise fun a b => a.1 < b.1
  listed : ∀ x q k, t.place? x = some q → q.parent = some array → q.key = some (.index k) → gap ≤ k → (k, x) ∈ rest

/-- What follows an element that is removed is behind a gap. -/
theorem closing_without (ht : t.WellFormed) (hs : t.Shaped) {p : Place} (hp : t.place? array = some p)
    (harray : p.node.kind = .array) (he : t.childByKey? array (.index i) = some e) (hroot : e ≠ rootId) :
    (t.without e).Closing array i ((t.without e).elementsBehind array i) := by
  have hwf := ht.without hroot
  have hold {x : NodeId} {q : Place} (hq : (t.without e).place? x = some q) : t.place? x = some q := by
    by_cases hx : t.Within e x
    · simp [place?_without_of_within ht.keyed hroot hx] at hq
    · rwa [place?_without_of_not_within ht.keyed hroot hx] at hq
  obtain ⟨q, hq, hparent, hkey⟩ := (childByKey?_eq_some ht.keyed).1 he
  obtain ⟨-, k, hk, hslot⟩ := hs.child ht hp harray hq hparent
  obtain rfl : i = k := by
    have := Option.some.inj (hkey.symm.trans hk)
    simpa using this
  have hnot : ¬ t.Within e array := not_within_parent ht.keyed hq hparent
  exact
    { placed := ⟨p, by rw [place?_without_of_not_within ht.keyed hroot hnot, hp]⟩
      slot := hslot
      child := fun j x hx => (mem_elements hwf).1 (List.mem_filter.1 hx).1
      behind := fun entry hentry => by simpa using (List.mem_filter.1 hentry).2
      sorted := (sorted_elements hwf array).filter _
      listed := fun x u k hu hparent' hkey' hle => by
        have hux := hold hu
        have hne : i ≠ k := by
          rintro rfl
          have hx : t.childByKey? array (.index i) = some x := (childByKey?_eq_some ht.keyed).2 ⟨u, hux, hparent', hkey'⟩
          obtain rfl := Option.some.inj (he.symm.trans hx)
          simp [place?_without_of_within ht.keyed hroot (within_refl hq)] at hu
        have hlive : u.node.isTemplate = false := by
          rw [← Bool.not_eq_true]
          intro htemplate
          have hk' := hs.template ht hux htemplate
          rw [hkey', Option.some.injEq, Step.index.injEq] at hk'
          omega
        refine List.mem_filter.2 ⟨(mem_elements hwf).2 ⟨u, hu, hparent', hkey', hlive⟩, ?_⟩
        simp only [decide_eq_true_eq]
        omega }

theorem Closing.ne_root (h : Closing t array gap ((i, e) :: rest)) : e ≠ rootId := by
  obtain ⟨q, hq, hparent, -⟩ := h.child i e List.mem_cons_self
  exact ne_root_of_parent hq hparent

/-- The index in front of the next element is free. -/
theorem Closing.free (h : Closing t array gap ((i, e) :: rest)) (ht : t.WellFormed) :
    t.childByKey? array (.index (i - 1)) = none := by
  rw [Option.eq_none_iff_forall_ne_some]
  intro x hx
  obtain ⟨q, hq, hparent, hkey⟩ := (childByKey?_eq_some ht.keyed).1 hx
  have hi : gap < i := h.behind _ List.mem_cons_self
  have hmem := h.listed x q (i - 1) hq hparent hkey (by omega)
  rcases List.mem_cons.1 hmem with heq | hrest
  · have hi' : i - 1 = i := congrArg Prod.fst heq
    omega
  · have hi' : i < i - 1 := (List.pairwise_cons.1 h.sorted).1 _ hrest
    omega

/-- An element leaves a gap where it was. -/
theorem Closing.step (h : Closing t array gap ((i, e) :: rest)) (ht : t.WellFormed) :
    Closing (t.withKey e (.index (i - 1))) array i rest := by
  have hroot := h.ne_root
  obtain ⟨p, hp⟩ := h.placed
  obtain ⟨q, hq, hparent, hkey, -⟩ := h.child i e List.mem_cons_self
  obtain ⟨hlt, hsorted⟩ := List.pairwise_cons.1 h.sorted
  refine
    { placed := ?_
      slot := ?_
      child := fun j x hx => ?_
      behind := hlt
      sorted := hsorted
      listed := fun x u' k hu' hparent' hkey' hle => ?_ }
  · obtain ⟨p', hp', -⟩ := key_withKey ht hroot hq hp
    exact ⟨p', hp'⟩
  · have hslot := h.slot
    have hi : gap < i := h.behind _ List.mem_cons_self
    omega
  · obtain ⟨u, hu, huparent, hukey, hulive⟩ := h.child j x (List.mem_cons_of_mem _ hx)
    have hne : x ≠ e := by
      rintro rfl
      obtain rfl := Option.some.inj (hq.symm.trans hu)
      have hij : i < j := hlt _ hx
      rw [hkey, Option.some.injEq, Step.index.injEq] at hukey
      omega
    obtain ⟨u', hu', hnode, hparent', hkey'⟩ := key_withKey ht hroot hq hu
    rw [if_neg hne] at hkey'
    exact ⟨u', hu', hparent'.trans huparent, hkey'.trans hukey, by rw [hnode, hulive]⟩
  · obtain ⟨u, hu⟩ : ∃ u, t.place? x = some u := by
      rw [← Option.ne_none_iff_exists']
      intro hnone
      rw [← place?_eq_none_withKey, hu'] at hnone
      cases hnone
    obtain ⟨v, hv, -, hvparent, hvkey⟩ := key_withKey ht hroot hq hu
    obtain rfl := Option.some.inj (hu'.symm.trans hv)
    rw [hkey'] at hvkey
    by_cases hx : x = e
    · rw [if_pos hx, Option.some.injEq, Step.index.injEq] at hvkey
      omega
    · rw [if_neg hx] at hvkey
      have hi : gap < i := h.behind _ List.mem_cons_self
      have hmem := h.listed x u k hu (hvparent.symm.trans hparent') hvkey.symm (by omega)
      refine (List.mem_cons.1 hmem).resolve_left fun heq => hx (congrArg Prod.snd heq)

/-- The tree keeps its shape when an element moves up. -/
theorem Closing.shaped (h : Closing t array gap ((i, e) :: rest)) (ht : t.WellFormed) (hs : t.Shaped) :
    (t.withKey e (.index (i - 1))).Shaped := by
  obtain ⟨q, hq, -, -, hlive⟩ := h.child i e List.mem_cons_self
  have hslot := h.slot
  have hi : gap < i := h.behind _ List.mem_cons_self
  exact hs.withKey ht h.ne_root hq hlive ⟨i - 1, rfl, by omega⟩

end LiveForm.FieldTree
