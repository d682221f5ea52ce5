import Mathlib
import LiveForm.Proofs.Form.Histories
import LiveForm.Proofs.Tree.Rows

/-!
# The numbers of elements

The elements of each array are numbered from zero on without a gap, beside one template, whatever is done to a form. Two
kinds of removals are exceptions: the greatest index is read as that of the template, which is lost then, and a removal
that is given up leaves a gap.
-/

set_option autoImplicit false

namespace LiveForm

/-- A word of 64 bits as a signed integer. -/
theorem toInt_toInt64 (index : UInt64) :
    index.toInt64.toInt = if 2 * index.toNat < 2 ^ 64 then (index.toNat : Int) else index.toNat - 2 ^ 64 :=
  BitVec.toInt_eq_toNat_cond index.toBitVec

/-- The greatest index is that of the template. -/
theorem toInt_eq_templateIndex {index : UInt64} : index.toInt64.toInt = templateIndex ↔ index.toNat = 2 ^ 64 - 1 := by
  have hlt := index.toNat_lt
  have htemplate : templateIndex = -1 := rfl
  rw [toInt_toInt64, htemplate]
  split <;> omega

theorem toInt_of_nonneg {index : UInt64} (h : 0 ≤ index.toInt64.toInt) : index.toInt64.toInt = index.toNat := by
  have hlt := index.toNat_lt
  rw [toInt_toInt64] at h ⊢
  split at h <;> omega

/-- An edit is no removal that is given up on account of a circle or that has the greatest index. -/
def Edit.Regular (f : Form) : Edit → Prop
  | removeElement path index => index.toNat ≠ 2 ^ 64 - 1 ∧
      ∀ paths g, Form.removeElement path index f ≠ .error (.cycle paths) g
  | _ => True

namespace Form

variable {α : Type} {f g : Form} {array : NodeId} {path : String} {index : UInt64}

section Growing

/-- What an edit has made of the tree, what follows the edit keeps. -/
theorem ends_batch_blank {x : FormM α} {P : α → FieldTree → Prop}
    (hx : Ends (x f.paused) (fun a g => Consistent g ∧ P a g.tree.blank) fun _ _ => True) :
    Ends (Form.batch x f) (fun a g => P a g.tree.blank) fun _ _ => True := by
  refine Ends.bind (Ends.pure (Ends.bind (ends_inScope (hx.mono ?_ fun _ _ he => he))))
  rintro a g ⟨hg, htree⟩
  have hresumed : Consistent g.resumed := hg.congr rfl rfl hg.levels
  dsimp only
  split
  · refine Ends.bind (Ends.bind ((Steady.recomputePendingBy g.resumed (.start hresumed)).mono ?_ fun _ _ _ => trivial))
    rintro _ g' hg'
    have hkept : P a g'.tree.blank := hg'.tree.symm ▸ htree
    exact hkept
  · exact htree

/-- An array that gets an element. -/
theorem Intact.pushElementAt (h : Intact f) : Ends (Form.pushElementAt array f)
    (fun id g => ∃ p template q created t', f.tree.place? array = some p ∧ p.node.kind = .array ∧
      f.tree.place? template = some q ∧ q.parent = some array ∧
      f.tree.copySubtree template array (.index (nextIndex f.tree array)) = .ok (created, t') ∧
      id = f.tree.next ∧ g.tree.blank = t'.blank)
    fun _ _ => True := by
  unfold Form.pushElementAt
  refine Ends.bind (ends_expectArray.mono ?_ fun _ _ _ => trivial)
  rintro _ f ⟨rfl, hkind⟩
  refine Ends.bind (ends_templateOf.mono ?_ fun _ _ _ => trivial)
  rintro template f ⟨rfl, htemplate⟩
  obtain ⟨q, hq, hparent, -⟩ := FieldTree.template?_eq_some h.tree.wellFormed htemplate
  rw [FieldTree.get?_eq, Option.map_map, Option.map_eq_some_iff] at hkind
  obtain ⟨p, hp, harray⟩ := hkind
  have hpaused : Intact f.paused := ⟨h.consistent.congr rfl rfl h.consistent.levels, h.tree⟩
  refine Ends.bind (Ends.pure (ends_batch_blank (P := fun id t => ∃ p template q created t',
    f.tree.place? array = some p ∧ p.node.kind = .array ∧ f.tree.place? template = some q ∧ q.parent = some array ∧
    f.tree.copySubtree template array (.index (nextIndex f.tree array)) = .ok (created, t') ∧
    id = f.tree.next ∧ t = t'.blank) (Ends.bind (FormM.ends_onTree (fun created t' hcopy => ?_) fun _ _ => trivial))))
  obtain ⟨l, -, hhead, -⟩ := FieldTree.copySubtree_ok h.tree.wellFormed hcopy
  refine Ends.bind ((hpaused.copied hcopy (.pushed hp harray hq hparent hcopy)).mono ?_ fun _ _ _ => trivial)
  rintro _ g ⟨-, hg⟩
  refine Ends.pure ⟨hg.consistent, p, template, q, created, t', hp, harray, hq, hparent, hcopy, ?_, hg.tree⟩
  cases created with
  | nil => cases hhead
  | cons first _ => exact Option.some.inj hhead

end Growing

section Rows

/-- A new element gets the number of the elements before it. -/
theorem Intact.pushElement (h : Intact f) (hlined : f.tree.Lined) {id : NodeId}
    (hpush : Form.pushElement path f = .ok id g) : ∃ array n, f.tree.Resolves path array ∧ f.tree.HasRow array n ∧
      g.tree.HasRow array (n + 1) ∧ ∃ q, g.tree.place? id = some q ∧ q.parent = some array ∧ q.key = some (.index n) := by
  have hends : Ends (Form.pushElement path f) (fun id g => ∃ array n, f.tree.Resolves path array ∧ f.tree.HasRow array n ∧
      g.tree.HasRow array (n + 1) ∧ ∃ q, g.tree.place? id = some q ∧ q.parent = some array ∧ q.key = some (.index n))
      fun _ _ => True := by
    refine Ends.bind ((ends_resolve path).mono ?_ fun _ _ _ => trivial)
    rintro array f' ⟨rfl, hres⟩
    refine h.pushElementAt.mono ?_ fun _ _ _ => trivial
    rintro id g ⟨p, template, q, created, t', hp, harray, hq, hparent, hcopy, rfl, hblank⟩
    have hwf := h.tree.wellFormed
    obtain ⟨n, hn⟩ := hlined array p hp harray
    have ht' : t'.Intact := h.tree.change (.pushed hp harray hq hparent hcopy)
    refine ⟨array, n, hres, hn, (hn.pushed hwf hcopy).of_blank ht'.wellFormed hblank, ?_⟩
    obtain ⟨l, -, -, hgraft, -⟩ := FieldTree.copySubtree_ok hwf hcopy
    obtain ⟨u, hu, huu⟩ := FieldTree.place?_of_blank hblank (hgraft.place?_root hwf hp)
    refine ⟨u, hu, show u.blank.parent = _ by rw [huu]; rfl, ?_⟩
    show u.blank.key = _
    rw [huu, ← hn.nextIndex hwf]
    rfl
  exact hends.of_ok hpush

/-- Only an element that is there is removed, and then the array has one element less. -/
theorem Intact.removeElement (h : Intact f) (hlined : f.tree.Lined) (hindex : index.toNat ≠ 2 ^ 64 - 1)
    (hremove : Form.removeElement path index f = .ok () g) : g.tree.Lined ∧ ∃ array n, f.tree.Resolves path array ∧
      f.tree.HasRow array n ∧ index.toNat < n ∧ g.tree.HasRow array (n - 1) := by
  obtain ⟨-, -, array, p, e, hres, hp, harray, he, hblank⟩ := (h.remove path index).of_ok hremove
  have hwf := h.tree.wellFormed
  obtain ⟨n, hn⟩ := hlined array p hp harray
  obtain ⟨q, hq, hparent, hkey⟩ := (FieldTree.childByKey?_eq_some hwf.keyed).1 he
  obtain ⟨-, i, hi, hle⟩ := h.tree.shaped.child hwf hp harray hq hparent
  have hii : index.toInt64.toInt = i := Step.index.inj (Option.some.inj (hkey.symm.trans hi))
  have hne : index.toInt64.toInt ≠ templateIndex := fun heq => hindex (toInt_eq_templateIndex.1 heq)
  have htemplate : templateIndex = -1 := rfl
  rw [toInt_of_nonneg (by omega)] at he hblank
  have hremoved := FieldTree.intact_removed h.tree hp harray he
  exact ⟨(hlined.removed h.tree hp harray he).of_blank hremoved.wellFormed hblank, array, n, hres, hn,
    hn.lt_of_child hwf he, (hn.removed h.tree hp harray he).of_blank hremoved.wellFormed hblank⟩

/-- An edit that makes the tree evolve leaves rows to all arrays. -/
theorem Intact.lined_gentle {x : FormM α} (h : Intact f) (hlined : f.tree.Lined) (hx : Gentle x) :
    (after x f).tree.Lined := by
  have hevolves {g : Form} (hg : Evolved f g) : g.tree.Lined := hlined.evolves h.tree hg.tree
  exact ((hx f h).mono (fun _ _ hg => hevolves hg) fun _ _ hg => hevolves hg).after

/-- A regular edit leaves rows to all arrays. -/
theorem Intact.lined_edit (h : Intact f) (hlined : f.tree.Lined) {edit : Edit} (hregular : edit.Regular f) :
    (after edit.run f).tree.Lined := by
  cases edit with
  | addField parent key kind formula => exact h.lined_gentle hlined (Gentle.addField parent key kind formula).discard
  | pushElement path => exact h.lined_gentle hlined (Gentle.pushElement path).discard
  | removeElement path index =>
    have hends := h.remove path index
    unfold after
    cases hrun : Form.removeElement path index f with
    | ok _ g =>
      rw [Edit.run, hrun]
      exact (h.removeElement hlined hregular.1 hrun).1
    | error e g =>
      rw [Edit.run, hrun]
      obtain ⟨-, -, hblank | ⟨⟨paths, rfl⟩, -⟩⟩ := hends.of_error hrun
      · exact hlined.of_blank h.tree.wellFormed hblank
      · exact absurd hrun (hregular.2 paths g)
  | setValue path value => exact h.lined_gentle hlined (Gentle.setValue path value)
  | clearOverride path => exact h.lined_gentle hlined (Gentle.clearOverride path)
  | recomputePending => exact h.lined_gentle hlined Gentle.recomputePending.discard
  | recomputeAll => exact h.lined_gentle hlined Gentle.recomputeAll.discard
  | rebuild => exact h.lined_gentle hlined Gentle.rebuild
  | openScope => exact hlined
  | closeScope => exact hlined

theorem lined_ofSettings (s : Settings) : (ofSettings s).tree.Lined := by
  intro array p hp harray
  obtain rfl := place?_ofSettings hp
  cases harray

/-- Whatever has been done to a form by regular edits, its arrays have rows. -/
theorem Reached.lined {admits : Settings → Prop} (h : Reached admits Edit.Regular f) : f.tree.Lined := by
  induction h with
  | created => exact lined_ofSettings _
  | @loaded document s f hs hload =>
    obtain ⟨g, hg, hrebuilt, -⟩ := (ends_load document s).of_ok (load_of_ofDocument hload)
    have hstart := Intact.ofSettings s
    have hlined : g.tree.Lined := (lined_ofSettings s).evolves hstart.tree hg.tree
    exact hlined.of_blank (hg.intact hstart).tree.wellFormed hrebuilt.blank
  | edited hbefore hregular ih => exact hbefore.intact.lined_edit ih hregular

/-- The arrays of a form have a template and elements that are numbered without a gap, as long as no removal of an
element is given up and none has the greatest index. Then only an element that is there can be removed, and a new one
gets the next number. -/
theorem lined_of_reached (h : Reached (fun _ => True) Edit.Regular f) : f.tree.Lined ∧
    (∀ path (index : UInt64) g, index.toNat ≠ 2 ^ 64 - 1 → Form.removeElement path index f = .ok () g →
      ∃ array n, f.tree.Resolves path array ∧ f.tree.HasRow array n ∧ index.toNat < n ∧ g.tree.HasRow array (n - 1)) ∧
    ∀ path id g, Form.pushElement path f = .ok id g → ∃ array n, f.tree.Resolves path array ∧ f.tree.HasRow array n ∧
      g.tree.HasRow array (n + 1) ∧ ∃ q, g.tree.place? id = some q ∧ q.parent = some array ∧ q.key = some (.index n) :=
  ⟨h.lined, fun _ _ _ hindex hremove => (h.intact.removeElement h.lined hindex hremove).2,
    fun _ _ _ hpush => h.intact.pushElement h.lined hpush⟩

/-- Once the first of two elements is gone, a new one has the number one again. -/
theorem numbered_after_removal :
    let f := Edit.runAll [.addField "" "a" .array none, .pushElement "/a", .pushElement "/a", .removeElement "/a" 0]
      (ofSettings {})
    f.tree.Lined ∧ ∃ id g array n, Form.pushElement "/a" f = .ok id g ∧ f.tree.Resolves "/a" array ∧
      f.tree.HasRow array n ∧ g.tree.HasRow array (n + 1) := by
  have hremoval : succeeds (Form.removeElement "/a" 0 (Edit.runAll [.addField "" "a" .array none, .pushElement "/a",
      .pushElement "/a"] (ofSettings {}))) = true := by cbv
  have hpush : succeeds (Form.pushElement "/a" (Edit.runAll [.addField "" "a" .array none, .pushElement "/a",
      .pushElement "/a", .removeElement "/a" 0] (ofSettings {}))) = true := by cbv
  intro f
  have hindex : (0 : UInt64).toNat ≠ 2 ^ 64 - 1 := by decide
  obtain ⟨hlined, -, hpushes⟩ := lined_of_reached (f := f) (Reached.runAll (.created trivial)
    ⟨trivial, trivial, trivial, ⟨hindex, orderly_of_succeeds hremoval⟩, trivial⟩)
  refine ⟨hlined, ?_⟩
  cases hrun : Form.pushElement "/a" f with
  | ok id g =>
    obtain ⟨array, n, hres, hn, hn', -⟩ := hpushes "/a" id g hrun
    exact ⟨id, g, array, n, rfl, hres, hn, hn'⟩
  | error e g =>
    rw [show Form.pushElement _ _ = _ from hrun] at hpush
    cases hpush

/-- The template of an array is removed as the element with the greatest index. -/
theorem template_lost : ¬ (Edit.runAll [.addField "" "a" .array none, .removeElement "/a" 18446744073709551615]
    (ofSettings {})).tree.Lined := by
  have htree : (Edit.runAll [.addField "" "a" .array none, .removeElement "/a" 18446744073709551615]
      (ofSettings {})).tree = { fields := .cons 1 (.name "a") { kind := .array } .nil .nil, next := 3 } := by cbv
  rw [htree]
  intro hlined
  obtain ⟨n, hn⟩ := hlined 1 _ rfl rfl
  exact absurd hn.length_eq (by simp [row, FieldTree.children, FieldTree.locate?, Forest.locate?, Forest.heads, rootId])

end Rows

end Form

end LiveForm
