import LiveForm.Form.Listing
import LiveForm.Proofs.Form.Naming
import LiveForm.Proofs.Form.Numbering
import LiveForm.Proofs.Tree.Finding

/-!
# The paths that a form shows

The fields of a form are listed with their paths, and it is by the texts of these that users speak of the fields. A text
leads back to the field that it is shown for exactly if the grammar of paths can write the path. It can as long as all names
that were added are plain, but that is not checked when a field is added.
-/

set_option autoImplicit false

namespace LiveForm

namespace FieldTree

variable {t : FieldTree} {x : NodeId} {n : Nat}

/-- There are not more elements than handles. -/
theorem HasRow.le_next (h : t.HasRow x n) (ht : t.WellFormed) : n ≤ t.next := by
  have hlength : (t.children x).length = n + 1 := by
    have hlabels := h.length_eq
    simpa [row] using hlabels
  rw [children_eq] at hlength
  cases hg : t.below? x with
  | none =>
    rw [hg] at hlength
    cases hlength
  | some g =>
    rw [hg, Option.map_some, Option.getD_some] at hlength
    have hnodup : (g.heads.map Child.id).Nodup := (Forest.sublist_heads g).nodup (nodup_below? ht.keyed hg).1
    have hbound : ∀ id ∈ g.heads.map Child.id, id < t.next := by
      intro id hid
      obtain ⟨c, hc, rfl⟩ := List.mem_map.1 hid
      obtain ⟨q, hq, -⟩ := (mem_heads_below? ht.keyed hg).1 hc
      exact lt_next_of_place? ht hq
    have hsub : (g.heads.map Child.id).Subperm (List.range t.next) :=
      List.subperm_of_subset hnodup fun id hid => List.mem_range.2 (hbound id hid)
    have hle := hsub.length_le
    rw [List.length_map, hlength, List.length_range] at hle
    omega

/-- Where names are plain and elements are numbered from zero on, the path of every node outside templates can be
written. -/
theorem Spelled.writable (h : t.Spelled fun s => (Step.name s).Writable) (ht : t.WellFormed) (hlined : t.Lined)
    (hnext : t.next ≤ 2 ^ 63) {q : Place} (hq : t.place? x = some q) (hlive : q.inTemplate = false) :
    q.path.Writable := by
  -- from the root down, by the number of steps
  induction hlength : q.path.steps.length using Nat.strongRecOn generalizing x q with
  | ind length ih =>
    by_cases hx : x = rootId
    · subst hx
      obtain rfl := Option.some.inj (t.place?_root.symm.trans hq)
      intro step hstep
      have hpath : t.rootPlace.path.steps = t.rootKey.toList := rfl
      rw [hpath, h.rootKey] at hstep
      cases hstep
    · obtain ⟨parent, p, key, hparent, hp, hkey, hpath, hin⟩ := exists_place?_parent ht.keyed hx hq
      rw [hlive] at hin
      obtain ⟨hplive, htemplate⟩ := Bool.or_eq_false_iff.1 hin.symm
      obtain ⟨hname, hindex⟩ := h.child ht hq hparent hp
      have hsteps : q.path.steps = p.path.steps ++ [key] := by rw [hpath, Path.child]
      have hpwritable : p.path.Writable := by
        refine ih p.path.steps.length ?_ hp hplive rfl
        rw [← hlength, hsteps, List.length_append, List.length_singleton]
        exact Nat.lt_succ_self _
      have hwritable : key.Writable := by
        cases key with
        | name s => exact hname s hkey
        | index i =>
          obtain ⟨n, hn⟩ := hlined parent p hp (hindex i hkey)
          have hle : n ≤ 2 ^ 63 := (hn.le_next ht).trans hnext
          have hmem := ((hasRow_iff ht).1 hn (.index i) false).1 ⟨x, q, hq, hparent, hkey, htemplate⟩
          rcases mem_row.1 hmem with ⟨-, hfalse⟩ | ⟨k, hk, hik, -⟩
          · cases hfalse
          · obtain rfl : i = k := Step.index.inj hik
            exact ⟨by omega, by omega⟩
      intro step hstep
      rw [hsteps, List.mem_append, List.mem_singleton] at hstep
      rcases hstep with hstep | rfl
      · exact hpwritable step hstep
      · exact hwritable

end FieldTree

/-- A name that is added by an edit is plain. -/
abbrev Edit.Plain (edit : Edit) : Prop :=
  edit.Adds fun s => (Step.name s).Writable

namespace Form

variable {f : Form} {l l' : Located}

theorem place?_of_mem_liveFields (ht : f.tree.WellFormed) (hl : l ∈ f.tree.liveFields) :
    f.tree.place? l.id = some l.place ∧ l.inTemplate = false := by
  obtain ⟨hmem, hlive⟩ := List.mem_filter.1 hl
  rw [Bool.and_eq_true, Bool.not_eq_true'] at hlive
  exact ⟨(FieldTree.locate?_eq_some ((mem_located ht.keyed).1 hmem)).1, hlive.2⟩

/-- A field is found by the text of its path exactly if the path can be written. -/
theorem Intact.resolve_render (h : Intact f) (hroot : f.tree.rootKey = none) (hl : l ∈ f.tree.liveFields) :
    resolve l.path.render f = .ok l.id f ↔ l.path.Writable := by
  obtain ⟨hplace, -⟩ := place?_of_mem_liveFields h.tree.wellFormed hl
  have hfound := FieldTree.find?_parse_render h.tree.wellFormed hroot hplace
  refine Iff.trans ⟨fun hrun => ?_, ?_⟩ hfound
  · obtain ⟨-, hres⟩ := (ends_resolve l.path.render).of_ok hrun
    exact hres
  · rintro ⟨p, hp, hfind⟩
    have hp : Path.parse l.path.render = .ok p := hp
    simp [resolve, hp, hfind]

/-- Listed fields with the same path are the same. -/
theorem Intact.eq_of_path (h : Intact f) (hl : l ∈ f.tree.liveFields) (hl' : l' ∈ f.tree.liveFields)
    (hpath : l.path = l'.path) : l = l' := by
  have ht := h.tree.wellFormed
  obtain ⟨hp, -⟩ := place?_of_mem_liveFields ht hl
  obtain ⟨hp', -⟩ := place?_of_mem_liveFields ht hl'
  have hid : l.id = l'.id := FieldTree.eq_of_path_eq ht.keyed hp hp' hpath
  have hlocate := (mem_located ht.keyed).1 (List.mem_filter.1 hl).1
  have hlocate' := (mem_located ht.keyed).1 (List.mem_filter.1 hl').1
  rw [hid, hlocate'] at hlocate
  exact (Option.some.inj hlocate).symm

/-- In any form a listed field is found by the text of its path, and by no other field's, exactly if the path can be
written. All paths can, as long as added names are plain, elements are removed in a regular way, and handles fit into 63
bits. -/
theorem resolves_iff_writable (h : Arisen f) :
    (∀ l ∈ f.tree.liveFields, resolve l.path.render f = .ok l.id f ↔ l.path.Writable) ∧
    (∀ l ∈ f.tree.liveFields, ∀ l' ∈ f.tree.liveFields, l.path.Writable → l'.path.Writable →
      l.path.render = l'.path.render → l = l') ∧
    (Reached (fun _ => True) (fun f edit => edit.Regular f ∧ edit.Plain) f → f.tree.next ≤ 2 ^ 63 →
      ∀ l ∈ f.tree.liveFields, l.path.Writable) := by
  have hintact := h.intact
  have hroot : f.tree.rootKey = none := (h.named (P := fun _ => True) (fun _ _ => trivial) fun _ edit _ => by
    cases edit <;> trivial).tree.rootKey
  refine ⟨fun l hl => hintact.resolve_render hroot hl, fun l hl l' hl' hw hw' htext => ?_, fun hplain hnext l hl => ?_⟩
  · exact hintact.eq_of_path hl hl' (Path.eq_of_render_eq hw hw' htext)
  · obtain ⟨hplace, hlive⟩ := place?_of_mem_liveFields hintact.tree.wellFormed hl
    have hnamed := (hplain.named (P := fun s => (Step.name s).Writable) (fun _ hs => hs) fun _ _ hedit => hedit.2).tree
    have hlined := (hplain.mono (fun _ hs => hs) fun _ _ hedit => hedit.1).lined
    exact hnamed.writable hintact.tree.wellFormed hlined hnext hplace hlive

/-- A field of an element is found by the text that is shown for it. -/
theorem resolved_in_element :
    let f := Edit.runAll [.addField "" "a" .array none, .addField "/a" "x" .field none, .pushElement "/a"] (ofSettings {})
    f.values.map (fun entry => entry.1.render) = ["a[0].x"] ∧
      ∀ l ∈ f.tree.liveFields, resolve l.path.render f = .ok l.id f := by
  have htexts : (Edit.runAll [.addField "" "a" .array none, .addField "/a" "x" .field none, .pushElement "/a"]
      (ofSettings {})).values.map (fun entry => entry.1.render) = ["a[0].x"] := by cbv
  have hnext : (Edit.runAll [.addField "" "a" .array none, .addField "/a" "x" .field none, .pushElement "/a"]
      (ofSettings {})).tree.next = 8 := by cbv
  intro f
  obtain ⟨hresolve, -, hwritable⟩ := resolves_iff_writable (f := f) (Reached.runAll (.created trivial)
    ⟨trivial, trivial, trivial, trivial⟩)
  have hplain (s : String) (hs : Path.piece? s.toList = some [.name s]) : (Step.name s).Writable := hs
  have hreached : Reached (fun _ => True) (fun f edit => edit.Regular f ∧ edit.Plain) f :=
    Reached.runAll (.created trivial) ⟨⟨trivial, hplain "a" (by cbv)⟩, ⟨trivial, hplain "x" (by cbv)⟩,
      ⟨trivial, trivial⟩, trivial⟩
  have hbound : f.tree.next ≤ 2 ^ 63 := by
    rw [show f.tree.next = 8 from hnext]
    decide
  exact ⟨htexts, fun l hl => (hresolve l hl).2 (hwritable hreached hbound l hl)⟩

/-- A field whose name has a dot in it is not found by the text that is shown for it. -/
theorem unresolved_after_addition :
    let f := Edit.runAll [.addField "" "a.b" .field none] (ofSettings {})
    f.values.map (fun entry => entry.1.render) = ["a.b"] ∧ ∀ id g, resolve "a.b" f ≠ .ok id g := by
  have htexts : (Edit.runAll [.addField "" "a.b" .field none] (ofSettings {})).values.map
      (fun entry => entry.1.render) = ["a.b"] := by cbv
  have hfails : succeeds (resolve "a.b" (Edit.runAll [.addField "" "a.b" .field none] (ofSettings {}))) = false := by
    cbv
  intro f
  refine ⟨htexts, fun id g hrun => ?_⟩
  rw [show resolve "a.b" (Edit.runAll [.addField "" "a.b" .field none] (ofSettings {})) = .ok id g from hrun] at hfails
  cases hfails

end Form

end LiveForm
