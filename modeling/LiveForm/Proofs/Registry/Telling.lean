import LiveForm.Proofs.Formula.Reading
import LiveForm.Proofs.Tree.Relocating

/-!
# Telling a registry of new paths

The nodes of a moved subtree are reported one after the other, and with each of them the bindings that are based there
are told of the new path. In between, some bindings know where their bases are and others do not yet. These accept no
field, since nothing has taken the places that the subtree has left.
-/

set_option autoImplicit false

namespace LiveForm

/-- The bindings of the second registry are those of the first one, of which those that are based at some nodes have been
told of the paths of these nodes in a tree. -/
def Registry.Informed (r : Registry) (t' : FieldTree) (told : List NodeId) (r' : Registry) : Prop :=
  ∀ id, r'.bound? id = (r.bound? id).map fun d =>
    { d with basePath := if d.base ∈ told then t'.path d.base else d.basePath }

namespace Registry.Informed

variable {r r' : Registry} {t t' : FieldTree} {e n : NodeId} {told : List NodeId} {id : BindingId}

theorem start (r : Registry) (t' : FieldTree) : r.Informed t' [] r := fun id => by
  cases r.bound? id <;> simp

theorem exists_get? (h : r.Informed t' told r') {d : Bound} (hd : r.bound? id = some d) :
    ∃ b, r'.get? id = some b := by
  have hbound := h id
  rw [hd, Option.map_some] at hbound
  obtain ⟨b, hb, -⟩ := Option.map_eq_some_iff.1 hbound
  exact ⟨b, hb⟩

/-- A binding is one of those before, told of some new paths. -/
theorem exists_bound (h : r.Informed t' told r') {b : Binding} (hb : r'.get? id = some b) :
    ∃ d, r.bound? id = some d ∧ b.selector = d.selector ∧ b.base = d.base ∧
      b.basePath = if d.base ∈ told then t'.path d.base else d.basePath := by
  have hbound := h id
  rw [bound?, hb, Option.map_some] at hbound
  obtain ⟨d, hd, hbd⟩ := Option.map_eq_some_iff.1 hbound.symm
  exact ⟨d, hd, (congrArg Bound.selector hbd).symm, (congrArg Bound.base hbd).symm,
    (congrArg Bound.basePath hbd).symm⟩

section Relocating

variable (h : r.Informed t' told r') (hm : t.Relocates t' e) (hright : r.Right t)

include h hm hright

/-- If the path of a node has changed then the bindings at its old path are those that are based there. -/
theorem mem_followers (hn : t.Within e n) (hnew : n ∉ told) :
    id ∈ r'.followers (t.path n) (t'.path n) ↔
      t.path n ≠ t'.path n ∧ ∃ d, r.bound? id = some d ∧ d.base = n := by
  obtain ⟨q, hq⟩ := hn.exists_place?
  obtain ⟨q', hq', -⟩ := hm.place? hq
  rw [FieldTree.path_of_place? hq, FieldTree.path_of_place? hq', Registry.mem_followers]
  refine and_congr_right fun hne => ?_
  -- No binding is taken to be based at the new path, and only those of the node at the old one.
  have hbases {j : BindingId} {b : Binding} (hb : r'.get? j = some b) : b.basePath ≠ q'.path ∧
      ∀ d, r.bound? j = some d → (b.basePath = q.path ↔ d.base = n) := by
    obtain ⟨d, hd, -, -, hbase⟩ := h.exists_bound hb
    obtain ⟨p, hp, -, hdp⟩ := (hright.bound j d hd).placed
    obtain ⟨p', hp', -⟩ := hm.place? hp
    obtain ⟨hold, hfree⟩ := (hm.free hn hq hq' hp hp').resolve_left fun he => hne he.symm
    suffices hsuff : b.basePath ≠ q'.path ∧ (b.basePath = q.path ↔ d.base = n) by
      exact ⟨hsuff.1, fun d' hd' => Option.some.inj (hd.symm.trans hd') ▸ hsuff.2⟩
    rw [hbase]
    split
    next htold =>
      have hnn : d.base ≠ n := fun he => hnew (he ▸ htold)
      rw [FieldTree.path_of_place? hp']
      exact ⟨fun he => hnn (FieldTree.eq_of_path_eq hm.after hp' hq' he), iff_of_false hold hnn⟩
    next =>
      rw [hdp]
      refine ⟨hfree, fun he => FieldTree.eq_of_path_eq hm.before hp hq he, ?_⟩
      rintro rfl
      rw [Option.some.inj (hp.symm.trans hq)]
  constructor
  · rintro ⟨b, hb, hbase, -⟩
    obtain ⟨d, hd, -⟩ := h.exists_bound hb
    exact ⟨d, hd, ((hbases hb).2 d hd).1 hbase⟩
  · rintro ⟨d, hd, hbase⟩
    obtain ⟨b, hb⟩ := h.exists_get? hd
    exact ⟨b, hb, ((hbases hb).2 d hd).2 hbase, fun j b' hb' hkey => (hbases hb').1 hkey.2⟩

/-- The bindings of one node more are told of its path. -/
theorem rekey (hn : t.Within e n) (hnew : n ∉ told) :
    r.Informed t' (told ++ [n]) (r'.rekey (t.path n) (t'.path n)) := by
  intro id
  have hbound := h id
  rw [bound?, get?_rekey]
  cases hd : r.bound? id with
  | none =>
    rw [hd, Option.map_none, bound?, Option.map_eq_none_iff] at hbound
    rw [hbound]
    split <;> rfl
  | some d =>
    obtain ⟨b, hb⟩ := h.exists_get? hd
    rw [bound?, hb, hd, Option.map_some, Option.map_some, Option.some.injEq] at hbound
    rw [hb, Option.map_some]
    by_cases hbase : d.base = n
    · have hin : d.base ∈ told ++ [n] := by simp [hbase]
      have hnot : d.base ∉ told := hbase ▸ hnew
      rw [if_neg hnot] at hbound
      simp only [Option.map_some, hin, if_true]
      split
      next =>
        rw [Option.map_some, ← hbase]
        exact congrArg (fun d' : Bound => some { d' with basePath := t'.path d.base }) hbound
      next hfollow =>
        -- The path is the old one.
        have hsame : t.path n = t'.path n := by
          by_contra hne
          exact hfollow ((h.mem_followers hm hright hn hnew).2 ⟨hne, d, hd, hbase⟩)
        obtain ⟨p, hp, -, hdp⟩ := (hright.bound id d hd).placed
        rw [Option.map_some, hbound, hbase, ← hsame, ← hbase, FieldTree.path_of_place? hp, hdp]
    · have hfollow : id ∉ r'.followers (t.path n) (t'.path n) := by
        rw [h.mem_followers hm hright hn hnew]
        rintro ⟨-, d', hd', hbase'⟩
        exact hbase (Option.some.inj (hd.symm.trans hd') ▸ hbase')
      have hin : d.base ∈ told ++ [n] ↔ d.base ∈ told := by simp [hbase]
      rw [if_neg hfollow, Option.map_some, hbound]
      simp only [hin, Option.map_some]

/-- A binding that knows where its base is accepts by their paths the fields that it stands for. If it does not know, then
it accepts nothing but what is below the base. -/
theorem accepts_iff {b : Binding} (hb : r'.get? id = some b) {d : Bound} (hd : r.bound? id = some d)
    (htold : t.Within e d.base → d.base ∈ told ∨ d.base ≠ e ∧ ¬ t.Within d.base n) :
    b.accepts t' n = true ↔ t'.Matches d.selector d.base n := by
  obtain ⟨p, hp, hlive, hpath⟩ := (hright.bound id d hd).placed
  obtain ⟨p', hp', -, -, hlive'⟩ := hm.place? hp
  have hbound := h id
  rw [bound?, hb, hd, Option.map_some, Option.map_some, Option.some.injEq] at hbound
  have haccepts : b.accepts t' n =
      d.selector.accepts t' (if d.base ∈ told then t'.path d.base else d.basePath) n :=
    congrArg (fun d : Bound => d.selector.accepts t' d.basePath n) hbound
  rw [haccepts]
  by_cases hin : d.base ∈ told
  · rw [if_pos hin, FieldTree.path_of_place? hp']
    exact Selector.accepts_iff hp' (hlive'.trans hlive)
  · rw [if_neg hin, hpath]
    by_cases hbase : t.Within e d.base
    · obtain ⟨hne, hnot⟩ := (htold hbase).resolve_left hin
      exact iff_of_false (fun hacc => hnot (hm.within_of_accepts hbase hne hp hacc)) fun hmatch =>
        hnot (hm.within_of_matches hmatch)
    · rw [← Selector.accepts_iff (t := t') (by rw [hm.outside _ hbase, hp]) hlive]

/-- The bindings that accept a moved node are those that stand for it, if those of the nodes above it have been told. -/
theorem mem_accepting (hn : t.Within e n) {d : Bound} (hd : r.bound? id = some d)
    (htold : t.Within e d.base → d.base ∈ told ∨ ¬ t.Within d.base n) :
    id ∈ r'.accepting t' n ↔ t'.Matches d.selector d.base n := by
  obtain ⟨b, hb⟩ := h.exists_get? hd
  have hiff : id ∈ r'.accepting t' n ↔ b.accepts t' n = true := by
    rw [Registry.mem_accepting]
    constructor
    · rintro ⟨b', hb', hacc⟩
      rwa [Option.some.inj (hb.symm.trans hb')]
    · exact fun hacc => ⟨b, hb, hacc⟩
  rw [hiff]
  refine h.accepts_iff hm hright hb hd fun hbase => (htold hbase).imp_right fun hnot => ⟨?_, hnot⟩
  exact fun he => hnot (he ▸ hn)

/-- When all bindings have been told that are based where nodes have moved, each knows the path of its base. -/
theorem right (hall : ∀ x, t.Within e x → x ∈ told) : r'.Right t' := by
  have hplaced {id : BindingId} {d d' : Bound} (hd : r.bound? id = some d) (hd' : r'.bound? id = some d') :
      d'.selector = d.selector ∧ d'.base = d.base ∧
        ∃ p', t'.place? d.base = some p' ∧ p'.inTemplate = false ∧ d'.basePath = p'.path := by
    rw [h, hd, Option.map_some, Option.some.injEq] at hd'
    subst hd'
    obtain ⟨p, hp, hlive, hpath⟩ := (hright.bound id d hd).placed
    obtain ⟨p', hp', -, -, hlive'⟩ := hm.place? hp
    refine ⟨rfl, rfl, p', hp', hlive'.trans hlive, ?_⟩
    by_cases hin : d.base ∈ told
    · simp only [hin, if_true, FieldTree.path_of_place? hp']
    · have hout := hm.outside d.base fun hx => hin (hall _ hx)
      simp only [hin, if_false, hpath, Option.some.inj (hp'.symm.trans (hout.trans hp))]
  have hold {id : BindingId} {d' : Bound} (hd' : r'.bound? id = some d') : ∃ d, r.bound? id = some d := by
    rw [h] at hd'
    exact (Option.map_eq_some_iff.1 hd').imp fun _ => And.left
  refine ⟨fun id d' hd' => ?_, fun id id' d' c' hd' hc' hsource hpath => ?_⟩
  · obtain ⟨d, hd⟩ := hold hd'
    obtain ⟨hs, hbase, hplace⟩ := hplaced hd hd'
    exact ⟨by rw [hs]; exact (hright.bound id d hd).parsed, by rw [hbase]; exact hplace⟩
  · obtain ⟨d, hd⟩ := hold hd'
    obtain ⟨c, hc⟩ := hold hc'
    obtain ⟨hds, -, p', hp', -, hdp⟩ := hplaced hd hd'
    obtain ⟨hcs, -, q', hq', -, hcp⟩ := hplaced hc hc'
    -- Their bases were the same node, and so they were at the same path.
    have hsame : d.base = c.base := FieldTree.eq_of_path_eq hm.after hp' hq' (hdp.symm.trans (hpath.trans hcp))
    refine hright.key id id' d c hd hc (by rw [← hds, hsource, hcs]) ?_
    obtain ⟨u, hu, -, hdu⟩ := (hright.bound id d hd).placed
    obtain ⟨v, hv, -, hcv⟩ := (hright.bound id' c hc).placed
    rw [hdu, hcv, Option.some.inj (hu.symm.trans (hsame ▸ hv))]

end Relocating

end Registry.Informed

end LiveForm
