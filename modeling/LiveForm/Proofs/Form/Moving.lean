import LiveForm.Proofs.Form.Renaming

/-!
# Moving an element

Once all nodes of a moved subtree have been relinked, the form is settled again. This is how the elements of an array
move up, one after the other, when one in front of them is gone.
-/

set_option autoImplicit false

namespace LiveForm.Form

variable {f g : Form} {t' : FieldTree} {e array : NodeId} {i : Int} {nodes : List NodeId}
  {synced : List (Selector × NodeId)}

/-- A moved node counts as relinked once all of the subtree is. -/
theorem Amid.matches_iff (hm : f.tree.Relocates t' e) (hnodes : ∀ x, x ∈ nodes ↔ f.tree.Within e x)
    {s : Selector} {base m : NodeId} :
    f.tree.MatchesAmid t' nodes synced s base m ↔ t'.Matches s base m := by
  by_cases hmoved : m ∈ nodes
  · rw [FieldTree.MatchesAmid, if_pos (.inl hmoved)]
  · rw [FieldTree.MatchesAmid, hm.matches_iff fun hx => hmoved ((hnodes m).2 hx), ite_self]

/-- When all nodes of a moved subtree have been reported and all caches hold what they should, a form follows the tree
after the move. -/
theorem FollowsBut.relocated (hf : Follows f) (hm : f.tree.Relocates t' e) (htree : g.tree = t')
    (hformula : ∀ n, g.graph.formula? n = f.graph.formula? n) (hbound : f.registry.Informed t' nodes g.registry)
    (hnodes : ∀ x, f.tree.Within e x → x ∈ nodes)
    (hcaches : ∀ id d m, f.registry.bound? id = some d → (g.registry.Caches id m ↔ t'.Matches d.selector d.base m)) :
    Follows g := by
  have hcaches' {id : BindingId} {d : Bound} {m : NodeId} (hd : g.registry.bound? id = some d) :
      g.registry.Caches id m ↔ t'.Matches d.selector d.base m := by
    rw [hbound] at hd
    obtain ⟨d', hd', rfl⟩ := Option.map_eq_some_iff.1 hd
    exact hcaches id d' m hd'
  refine
    { right := by rw [htree]; exact hbound.right hm hf.right hnodes
      cached := fun id d m hd hc => by rw [htree]; exact (hcaches' hd).1 hc
      complete := fun id d m hd _ hmatch _ => (hcaches' hd).2 (by rwa [htree] at hmatch)
      reads := fun n F hF => ?_
      registered := fun n expression hat _ => ?_ }
  · rw [hformula] at hF
    obtain ⟨expression, ⟨q, hq, hlive, hformula⟩, hreads⟩ := hf.reads n F hF
    obtain ⟨q', hq', hnode, -, hin⟩ := hm.place? hq
    rw [htree]
    refine ⟨expression, ⟨q', hq', hin.trans hlive, by rw [hnode, hformula]⟩, hreads.congr (hm.parent_eq n) ?_⟩
    rintro id - d hd
    exact ⟨{ d with basePath := if d.base ∈ nodes then t'.path d.base else d.basePath },
      by rw [hbound, hd, Option.map_some], rfl, rfl⟩
  · obtain ⟨q, hq, hlive, hexpression⟩ := hat
    rw [htree] at hq
    obtain ⟨p, hp, hnode, -, hin⟩ := hm.place?_back hq
    rw [hformula]
    exact hf.registered n expression ⟨p, hp, hin.symm.trans hlive, by rw [← hnode, hexpression]⟩ not_false

/-- When all nodes of the subtree have been relinked, all links are those of the tree after the move. -/
theorem Amid.settled (h : Amid f t' nodes nodes synced g) (hf : Settled f)
    (hm : f.tree.Relocates t' e) (hnodes : ∀ x, x ∈ nodes ↔ f.tree.Within e x) : Settled g := by
  have hfollows : Follows g := hf.current.follows.relocated hm h.tree h.formula h.bound (fun x => (hnodes x).2)
    fun id d m hd => by rw [h.caches id d m hd, Amid.matches_iff hm hnodes]
  have htree : g.tree.WellFormed := by
    rw [h.tree]
    exact hm.wellFormed hf.current.tree
  exact { coherent := h.coherent, acyclic := h.acyclic, levels := h.levels, current := hfollows.current htree }

theorem Amid.advance (h : Amid f t' nodes nodes synced g) (hcarries : f.tree.Carries t') : Advance f g where
  schedule := h.beside.schedule
  stopAtOverride := h.beside.stopAtOverride
  cacheRefresh := h.beside.cacheRefresh
  carries := by
    rw [h.tree]
    exact hcarries
  marks := h.marks

/-- A node that has a free key in front of it moves there, unless that closes a circle on the way. -/
theorem Settled.renameSubtree (hf : Settled f) (hquiet : f.Quiet) {p q : Place} (hp : f.tree.place? array = some p)
    (hq : f.tree.place? e = some q) (hparent : q.parent = some array) (hkey : q.key = some (.index i))
    (hfree : f.tree.childByKey? array (.index (i - 1)) = none) :
    Ends (renameSubtree e (.index (i - 1)) f)
      (fun _ g => Settled g ∧ Advance f g ∧ g.tree = f.tree.withKey e (.index (i - 1)) ∧
        f.tree.Relinks (f.tree.withKey e (.index (i - 1))) (f.tree.preorderFrom e))
      (fun error _ => (∃ paths, error = .cycle paths) ∧
        ¬ f.tree.Relinks (f.tree.withKey e (.index (i - 1))) (f.tree.preorderFrom e)) := by
  have hwf := hf.current.tree
  have hroutes := FieldTree.reroutes_withKey hwf.keyed hp hq hparent hkey hfree
  have hm := hroutes.relocates
  have hnodes (x : NodeId) : x ∈ f.tree.preorderFrom e ↔ f.tree.Within e x := FieldTree.mem_preorderFrom hwf.keyed
  have hrekey := FieldTree.rekey_eq hq hparent hfree
  unfold Form.renameSubtree
  refine Ends.bind (Ends.pure (Ends.bind (Ends.bind (FormM.ends_onTree ?_ ?_))))
  · intro a t htree
    rw [hrekey] at htree
    obtain ⟨rfl, rfl⟩ := Prod.mk.inj (Except.ok.inj htree)
    refine (Settled.renameAll hf hm hquiet).mono ?_ fun _ _ he => he
    rintro _ g ⟨hamid, hall⟩
    exact ⟨hamid.settled hf hm hnodes, hamid.advance (hroutes.carries rfl), hamid.tree, hall⟩
  · intro error htree
    rw [hrekey] at htree
    cases htree

end LiveForm.Form
