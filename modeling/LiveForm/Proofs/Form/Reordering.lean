import LiveForm.Proofs.Form.Correspondence
import LiveForm.Proofs.Form.Moving
import LiveForm.Proofs.Form.Rejections
import LiveForm.Proofs.Form.Settling

/-!
# Renaming a subtree while values are kept up to date

A node gets another key, and the nodes of its subtree are reported one after the other, each report being followed up at
once. What is followed up is told by the fields that bindings lose and gain. So a formula goes unnoticed whose selectors
stand for the same fields as before, even if these are read in another order now. All others have the values in the end
that their expressions have for the tree.
-/

set_option autoImplicit false

namespace LiveForm

namespace FieldTree

variable {t t' : FieldTree} {e n : NodeId}

/-- Two fields that a selector of a formula stands for have changed their order in another tree. -/
def Disorders (t t' : FieldTree) (n : NodeId) : Prop :=
  ∃ s base m k, (s, base) ∈ t.selectionsAt n ∧ t.Matches s base m ∧ t.Matches s base k ∧
    Path.matchOrder (t'.path m) (t'.path k) ≠ Path.matchOrder (t.path m) (t.path k)

/-- The selectors of a formula stand for the same fields in another tree, two of which have changed their order. -/
structure Reorders (t t' : FieldTree) (n : NodeId) : Prop where
  same : ∀ s base, (s, base) ∈ t.selectionsAt n → ∀ m, t'.Matches s base m ↔ t.Matches s base m
  order : t.Disorders t' n

theorem Disorders.of_blank {t'' : FieldTree} (h : t.Disorders t' n) (hblank : t''.blank = t'.blank) :
    t.Disorders t'' n := by
  obtain ⟨s, base, m, k, hmem, hm, hk, horder⟩ := h
  refine ⟨s, base, m, k, hmem, hm, hk, ?_⟩
  rwa [path_of_blank hblank, path_of_blank hblank]

/-- A node outside templates that is below another one. -/
def LiesBelow (t : FieldTree) (base m : NodeId) : Prop :=
  ∃ q, t.place? m = some q ∧ q.inTemplate = false ∧ t.Within base m ∧ m ≠ base

theorem Matches.liesBelow {s : Selector} {base m : NodeId} (h : t.Matches s base m) (hpattern : s.pattern ≠ []) :
    t.LiesBelow base m := by
  obtain ⟨p, q, steps, hp, hq, -, -, hlive, hsteps, hfits⟩ := h
  refine ⟨q, hq, hlive, ⟨p, q, hp, hq, ⟨steps, hsteps.symm⟩⟩, ?_⟩
  rintro rfl
  obtain rfl := Option.some.inj (hp.symm.trans hq)
  obtain rfl : steps = [] := List.self_eq_append_right.1 hsteps
  exact hpattern (fitsSteps_nil hfits)

/-- A node keeps its data when a subtree moves. -/
theorem Relocates.get?_eq (h : t.Relocates t' e) (x : NodeId) : t'.get? x = t.get? x := by
  rw [FieldTree.get?_eq, FieldTree.get?_eq]
  cases hp : t.place? x with
  | some p =>
    obtain ⟨p', hp', hnode, -⟩ := h.place? hp
    rw [hp', Option.map_some, Option.map_some, hnode]
  | none =>
    cases hp' : t'.place? x with
    | none => rfl
    | some p' =>
      obtain ⟨p, hp'', -⟩ := h.place?_back hp'
      simp [hp] at hp''

theorem Relocates.contains_eq (h : t.Relocates t' e) (x : NodeId) : t'.contains x = t.contains x := by
  have hsome (t : FieldTree) : t.contains x = (t.get? x).isSome := by
    rw [FieldTree.contains_eq, FieldTree.get?_eq, Option.isSome_map]
  rw [hsome, hsome, h.get?_eq]

end FieldTree

namespace Form

variable {f g g' : Form} {t' : FieldTree} {e n m : NodeId} {told moved moved' : List NodeId} {id : BindingId} {F : Formula}

section Marking

theorem SameInputs.trans (h : f.SameInputs g n) (h' : g.SameInputs g' n)
    (hformula : g.graph.formula? n = f.graph.formula? n) : f.SameInputs g' n := by
  rintro id ⟨F, hF, hid⟩ m
  exact (h' id ⟨F, hformula.trans hF, hid⟩ m).trans (h id ⟨F, hF, hid⟩ m)

/-- A formula that is not marked goes on to read the same fields. -/
theorem Marks.sameInputs (h : Marks f g) (hF : g.graph.formula? n = some F) (hn : n ∉ g.pending) : f.SameInputs g n := by
  obtain ⟨gone, hmarks⟩ := h
  obtain ⟨hF', -, hcaches⟩ := hmarks.formula n F hF hn
  rintro id ⟨F', hF'', hid⟩ m
  obtain rfl := Option.some.inj (hF'.symm.trans hF'')
  exact (hcaches id hid m).1

/-- What was going to be followed up still is. -/
theorem Marks.impending (h : Marks f g) (hF : g.graph.formula? n = some F) (hi : f.Impending n) : g.Impending n := by
  by_cases hn : n ∈ g.pending
  · exact .inl hn
  obtain ⟨gone, hmarks⟩ := h
  obtain ⟨hF', hgone, hcaches⟩ := hmarks.formula n F hF hn
  rcases hi with hp | ⟨m, hm, id, hc, F', hF'', hid⟩
  · exact ((hmarks.pending n hp).elim hn hgone).elim
  · obtain rfl := Option.some.inj (hF'.symm.trans hF'')
    obtain ⟨hiff, hnot⟩ := hcaches id hid m
    exact .inr ⟨m, (hmarks.pending m hm).resolve_right (hnot hc), id, hiff.2 hc, F, hF, hid⟩

end Marking

/-- The value that is stored for the formula of a node is the one that its expression has for the tree. -/
def UpToDate (f : Form) (n : NodeId) : Prop :=
  ∀ F, f.graph.formula? n = some F → f.tree.formulaValue? n = freshValue? f.tree n F.expression

/-- What is not stale is up to date. -/
theorem Settled.upToDate (h : Settled f) (hn : ¬ f.Stale n) : f.UpToDate n := by
  intro F hF
  obtain ⟨q, hq, -⟩ := h.current.place?_of_formula? hF
  rw [FieldTree.formulaValue?_of_place? hq, h.freshValue? hF]
  by_contra hne
  exact hn (h.stale_iff.2 ⟨F, q, hF, hq, hne⟩)

/-- The formula of a node that has not been reported reads the same fields as in the first form, in another order. -/
structure Overlooked (f : Form) (t' : FieldTree) (moved : List NodeId) (g : Form) (n : NodeId) : Prop where
  unmoved : n ∉ moved
  inputs : f.SameInputs g n
  order : f.tree.Disorders t' n

/-- A formula has its value, or is going to be evaluated, or reads the same fields in another order. -/
def Valid (f : Form) (t' : FieldTree) (moved : List NodeId) (g : Form) (n : NodeId) : Prop :=
  g.Evaluated n ∨ g.Impending n ∨ f.Overlooked t' moved g n

section Validity

/-- A formula whose bindings hold the same fields keeps its value. -/
theorem Evaluated.of_sameInputs (h : g.Evaluated n) (hco : Coherent g) (hsame : g.SameInputs g' n)
    (htree : g'.tree = g.tree) (hformula : g'.graph.formula? n = g.graph.formula? n)
    (hselector : ∀ id, (g'.registry.bound? id).map Bound.selector = (g.registry.bound? id).map Bound.selector) :
    g'.Evaluated n := by
  obtain ⟨F, q, hF, hq, hvalue⟩ := h
  refine ⟨F, q, hformula.trans hF, by rw [htree, hq], ?_⟩
  rw [hvalue, htree, hco.evaluateCached_of_sameInputs hF hselector hsame]

/-- What changes of links leave of a formula is told by the marks that they make. -/
theorem Valid.marked (h : f.Valid t' moved g n) (hco : Coherent g) (hmarks : Marks g g') (htree : g'.tree = g.tree)
    (hformula : ∀ x, g'.graph.formula? x = g.graph.formula? x) (hF : f.graph.formula? n = some F)
    (hkept : g.graph.formula? n = f.graph.formula? n)
    (hselector : ∀ id, (g'.registry.bound? id).map Bound.selector = (g.registry.bound? id).map Bound.selector) :
    f.Valid t' moved g' n := by
  have hF' : g'.graph.formula? n = some F := (hformula n).trans (hkept.trans hF)
  by_cases hn : n ∈ g'.pending
  · exact .inr (.inl (.inl hn))
  have hsame := hmarks.sameInputs hF' hn
  rcases h with hval | himp | hover
  · exact .inl (hval.of_sameInputs hco hsame htree (hformula n) hselector)
  · exact .inr (.inl (hmarks.impending hF' himp))
  · exact .inr (.inr ⟨hover.unmoved, hover.inputs.trans hsame hkept, hover.order⟩)

/-- More nodes have been reported. Those with formulas are going to be evaluated. -/
theorem Valid.reported (h : f.Valid t' moved g n) (hmoved : n ∈ moved' → n ∈ moved ∨ n ∈ g.pending) :
    f.Valid t' moved' g n := by
  rcases h with hval | himp | hover
  · exact .inl hval
  · exact .inr (.inl himp)
  · by_cases hn : n ∈ g.pending
    · exact .inr (.inl (.inl hn))
    · exact .inr (.inr ⟨fun hm => (hmoved hm).elim hover.unmoved hn, hover.inputs, hover.order⟩)

/-- Following up evaluates what was going to be evaluated, and leaves the rest alone. -/
theorem AttendedAt.valid (h : AttendedAt g g' n) (hvalid : f.Valid t' moved g n)
    (hkept : g.graph.formula? n = f.graph.formula? n) : f.Valid t' moved g' n := by
  rcases h with hval | ⟨hnot, hsame, hkeeps⟩
  · exact .inl hval
  rcases hvalid with hval | himp | hover
  · exact .inl (hkeeps hval)
  · exact (hnot himp).elim
  · exact .inr (.inr ⟨hover.unmoved, hover.inputs.trans hsame hkept, hover.order⟩)

end Validity

/-- A form whose moved subtree has been reported in part. Bindings have been told where some nodes are, and of these
and of all that have not moved it is right which bindings stand for them. -/
structure Midway (f : Form) (t' : FieldTree) (e : NodeId) (told moved : List NodeId) (g : Form) : Prop where
  steady : Steady t'.blank f.schedule g
  formula : ∀ n, g.graph.formula? n = f.graph.formula? n
  bound : f.registry.Informed t' told g.registry
  below : ∀ id d m, f.registry.bound? id = some d → g.registry.Caches id m → t'.LiesBelow d.base m
  caches : ∀ id d m, f.registry.bound? id = some d → (f.tree.Within e d.base → d.base ∈ told) →
    (f.tree.Within e m → m ∈ moved) → (g.registry.Caches id m ↔ t'.Matches d.selector d.base m)
  values : ∀ n, (f.graph.formula? n).isSome → f.Valid t' moved g n

section Start

variable (hf : Tracking f) (hm : f.tree.Relocates t' e)

include hf hm

/-- A formula whose fields have kept their order is worth the same. -/
theorem Tracking.evaluateCached_relocated (hF : f.graph.formula? n = some F) (hnot : ¬ f.tree.Disorders t' n) :
    F.evaluateCached f.registry t' = F.evaluateCached f.registry f.tree := by
  refine Formula.evaluateCached_congr fun id hid => ?_
  obtain ⟨b, hb⟩ := hf.coherent.exists_get? hF hid
  have hd : f.registry.bound? id = some b.bound := by rw [Registry.bound?, hb, Option.map_some]
  refine ⟨b, b, hb, hb, rfl, rfl, fun m _ => hm.contains_eq m, fun m hmb k hk => ?_, fun m _ => ?_⟩
  · by_contra hne
    exact hnot ⟨b.selector, b.base, m, k, hf.follows.mem_selectionsAt_of_uses ⟨F, hF, hid⟩ hd,
      (hf.follows.caches_iff hb).1 hmb, (hf.follows.caches_iff hb).1 hk, hne⟩
  · unfold FieldTree.authoritative?
    rw [hm.get?_eq]

/-- As long as nothing has been reported, the formulas have their values whose fields have kept their order. -/
theorem Midway.start (hvalues : ∀ n, f.UpToDate n) : Midway f t' e [] [] (f.withTree t') where
  steady := ⟨hf.consistent.congr rfl rfl hf.levels, rfl, rfl⟩
  formula _ := rfl
  bound := .start _ _
  below id d m hd hc := by
    have hmatch := hf.follows.cached id d m hd hc
    obtain ⟨p, hp, hlive, hwithin, hne⟩ :=
      hmatch.liesBelow (Selector.pattern_ne_nil (hf.follows.right.bound id d hd).parsed)
    obtain ⟨p', hp', -, -, hin⟩ := hm.place? hp
    exact ⟨p', hp', hin.trans hlive, hm.within_iff.2 hwithin, hne⟩
  caches id d m hd _ houtside := by
    rw [hm.matches_iff fun hx => List.not_mem_nil (houtside hx)]
    exact ⟨hf.follows.cached id d m hd, fun hmatch => hf.follows.complete id d m hd not_false hmatch not_false⟩
  values n hn := by
    obtain ⟨F, hF⟩ := Option.isSome_iff_exists.1 hn
    by_cases hdis : f.tree.Disorders t' n
    · exact .inr (.inr ⟨List.not_mem_nil, fun _ _ _ => .rfl, hdis⟩)
    obtain ⟨-, ⟨q, hq, -⟩, -⟩ := hf.follows.reads n F hF
    obtain ⟨q', hq', hnode, -⟩ := hm.place? hq
    refine .inl ⟨F, q', hF, hq', ?_⟩
    show q'.node.formulaValue = F.evaluateCached f.registry t'
    rw [hf.evaluateCached_relocated hm hF hdis, hnode, ← FieldTree.formulaValue?_of_place? hq, hvalues n F hF,
      hf.follows.freshValue? hf.keyed hF]

end Start

section Steps

variable (hf : Tracking f) (hm : f.tree.Relocates t' e) (h : Midway f t' e told moved g)

/-- Changes of links that bring caches closer to what they should hold. -/
theorem Midway.relinked (h : Midway f t' e told moved g) (hg' : Steady t'.blank f.schedule g') (hr : Relinked g g')
    (hmoved : ∀ x ∈ moved', x ∈ moved ∨ x ∈ g.pending ∨ f.graph.formula? x = none)
    (hbelow : ∀ id d m, f.registry.bound? id = some d → g'.registry.Caches id m → t'.LiesBelow d.base m)
    (hcaches : ∀ id d m, f.registry.bound? id = some d → (f.tree.Within e d.base → d.base ∈ told) →
      (f.tree.Within e m → m ∈ moved') → (g'.registry.Caches id m ↔ t'.Matches d.selector d.base m)) :
    Midway f t' e told moved' g' where
  steady := hg'
  formula n := (hr.formula n).trans (h.formula n)
  bound id := (hr.bound id).trans (h.bound id)
  below := hbelow
  caches := hcaches
  values n hn := by
    obtain ⟨F, hF⟩ := Option.isSome_iff_exists.1 hn
    refine ((h.values n hn).reported fun hx => (hmoved n hx).imp_right fun hp => ?_).marked h.steady.consistent.coherent
      hr.marks hr.beside.tree hr.formula hF (h.formula n) fun id => by rw [hr.bound]
    exact hp.resolve_right fun hnone => by simp [hF] at hnone

include hf hm h in
/-- The registry is told that a node has moved. -/
theorem Midway.moveBindings (hupdate : g.isSet .updateGraph = true) (hn : f.tree.Within e n) (hnew : n ∉ told)
    (hbefore : ∀ x ∈ moved, ¬ f.tree.Within n x) : Ends (Form.moveBindings (f.tree.path n) n g)
      (fun _ g' => Midway f t' e (told ++ [n]) moved g') (fun _ _ => True) := by
  have hsteady : Ends (Form.moveBindings (f.tree.path n) n g) _ _ := Steady.moveBindings (f.tree.path n) n g h.steady
  unfold Form.moveBindings whenUpdating at hsteady ⊢
  rw [if_pos hupdate] at hsteady ⊢
  have hbound := h.bound.rekey hm hf.follows.right hn hnew
  rw [← FieldTree.path_of_blank h.steady.tree] at hbound
  have hmarks : Marks g { g with registry := g.registry.rekey (f.tree.path n) (g.tree.path n) } :=
    ⟨fun _ => False, fun x F hF _ => ⟨hF, not_false, fun j _ m => ⟨Registry.caches_rekey, fun _ => not_false⟩⟩,
      fun x hx => .inl hx⟩
  refine FormM.ends_update
    { steady := hsteady, formula := h.formula, bound := hbound, below := fun id d m hd hc => ?_,
      caches := fun id d m hd htold hmoved => ?_, values := fun x hx => ?_ }
  · exact h.below id d m hd (Registry.caches_rekey.1 hc)
  · show Registry.Caches (g.registry.rekey _ _) id m ↔ _
    rw [Registry.caches_rekey]
    by_cases hbase : d.base = n
    · -- Nothing that is below the node has been reported yet.
      subst hbase
      have hnot : ¬ f.tree.Within d.base m := fun hwithin => hbefore m (hmoved (hn.trans hwithin)) hwithin
      refine iff_of_false (fun hc => ?_) fun hmatch => hnot (hm.within_of_matches hmatch)
      obtain ⟨-, -, -, hwithin, -⟩ := h.below id d m hd hc
      exact hnot (hm.within_iff.1 hwithin)
    · exact h.caches id d m hd (fun hin => by simpa [hbase] using htold hin) hmoved
  · obtain ⟨F, hF⟩ := Option.isSome_iff_exists.1 hx
    exact (h.values x hx).marked h.steady.consistent.coherent hmarks rfl (fun _ => rfl) hF (h.formula x) fun _ =>
      Registry.selector_rekey

include hf hm h in
/-- What a binding should hold is told by the tree after the move. -/
theorem Midway.mem_fresh {b : Binding} (hb : g.registry.get? id = some b) {d : Bound} (hd : f.registry.bound? id = some d) :
    m ∈ b.fresh g.tree .fromScratch ↔ t'.Matches d.selector d.base m := by
  obtain ⟨d', hd', hs, hbase, -⟩ := h.bound.exists_bound hb
  obtain rfl := Option.some.inj (hd.symm.trans hd')
  have hpattern := Selector.pattern_ne_nil (hf.follows.right.bound id d hd).parsed
  rw [Binding.fresh, hs, hbase, ← (FieldTree.sameOutlines_of_blank h.steady.tree).matches_iff,
    ← Selector.mem_fieldsBelow (hm.after.of_blank h.steady.tree) hpattern]
  simp

include hf hm h in
/-- One of the bindings is brought up to date. -/
theorem Midway.sync (hid : (f.registry.get? id).isSome) : Ends (Form.sync .fromScratch id g)
    (fun _ g' => Midway f t' e told moved g') (fun _ _ => True) := by
  obtain ⟨b₀, hb₀⟩ := Option.isSome_iff_exists.1 hid
  have hd : f.registry.bound? id = some b₀.bound := by rw [Registry.bound?, hb₀, Option.map_some]
  obtain ⟨b, hb⟩ := h.bound.exists_get? hd
  have hsteady : Ends (Form.sync .fromScratch id g) _ _ := Steady.syncBy .fromScratch id g h.steady
  refine ((h.steady.consistent.coherent.syncBy_spec hb .ascending).and hsteady).mono ?_ fun _ _ _ => trivial
  rintro _ g' ⟨⟨-, hsync, hcaches⟩, hg'⟩
  have hself {d : Bound} {m : NodeId} (hd' : f.registry.bound? id = some d) :
      g'.registry.Caches id m ↔ t'.Matches d.selector d.base m := by
    rw [hcaches, h.mem_fresh hf hm hb hd']
  refine h.relinked hg' hsync.relinked (fun _ hx => .inl hx) (fun j d m hd' hc => ?_) fun j d m hd' htold hmoved => ?_
  · by_cases hj : j = id
    · subst hj
      exact ((hself hd').1 hc).liesBelow (Selector.pattern_ne_nil (hf.follows.right.bound j d hd').parsed)
    · exact h.below j d m hd' ((hsync.others j m hj).1 hc)
  · by_cases hj : j = id
    · subst hj
      exact hself hd'
    · rw [hsync.others j m hj]
      exact h.caches j d m hd' htold hmoved

include hf hm h in
/-- The bindings of a moved node's formula are brought up to date, and the formula is going to be evaluated. -/
theorem Midway.relinkFormula (n : NodeId) : Ends (Form.relinkFormula n g)
    (fun _ g' => Midway f t' e told moved g' ∧ (n ∈ g'.pending ∨ f.graph.formula? n = none)) (fun _ _ => True) := by
  unfold Form.relinkFormula
  rw [h.formula]
  cases hF : f.graph.formula? n with
  | none => exact ⟨h, .inr rfl⟩
  | some F =>
    have hbindings : ∀ id ∈ F.bindings, (f.registry.get? id).isSome := fun id hid => by
      obtain ⟨b, hb⟩ := hf.coherent.exists_get? hF hid
      rw [hb]
      rfl
    have hloop : Ends (F.bindings.forM (Form.sync .fromScratch) g) _ fun _ _ => True :=
      Ends.forM (I := fun rest g' => Midway f t' e told moved g' ∧ ∀ id ∈ rest, (f.registry.get? id).isSome) ?_
        ⟨h, hbindings⟩
    · refine Ends.bind (hloop.mono ?_ fun _ _ he => he)
      rintro _ g' ⟨hg', -⟩
      have hsteady := Steady.resetPredecessors hg'.steady n
      obtain ⟨-, hrel, -⟩ := hg'.steady.consistent.coherent.resetPredecessors_spec n
      exact FormM.ends_update ⟨hg'.relinked hsteady hrel (fun _ hx => .inl hx) hg'.below hg'.caches, .inl (by simp)⟩
    · rintro id rest g' ⟨hg', hrest⟩
      refine (hg'.sync hf hm (hrest id List.mem_cons_self)).mono ?_ fun _ _ he => he
      exact fun _ g'' hg'' => ⟨hg'', fun id hid => hrest id (List.mem_cons_of_mem _ hid)⟩

include hf hm h in
/-- A moved node is linked again. -/
theorem Midway.relinkNode (hn : f.tree.Within e n) (htold : ∀ b, f.tree.Within e b → b ∈ told ∨ ¬ f.tree.Within b n)
    (hpending : n ∈ g.pending ∨ f.graph.formula? n = none) : Ends (Form.relinkNode n g)
      (fun _ g' => Midway f t' e told (moved ++ [n]) g') (fun _ _ => True) := by
  have hlinked {id : BindingId} {d : Bound} (hd : f.registry.bound? id = some d) :
      id ∈ g.registry.accepting g.tree n ↔ t'.Matches d.selector d.base n := by
    rw [← h.bound.mem_accepting hm hf.follows.right hn hd (htold d.base), Registry.mem_accepting, Registry.mem_accepting]
    exact exists_congr fun b => and_congr_right fun _ =>
      ⟨Selector.accepts_of_blank h.steady.tree.symm, Selector.accepts_of_blank h.steady.tree⟩
  have hsteady : Ends (Form.relinkNode n g) _ _ := Steady.relinkNode n g h.steady
  refine ((h.steady.consistent.coherent.relinkNode_spec (n := n)).and hsteady).mono ?_ fun _ _ _ => trivial
  rintro _ g' ⟨⟨hgroup, hcaches⟩, hg'⟩
  refine h.relinked hg' hgroup.relinked (fun x hx => ?_) (fun id d m hd hc => ?_) fun id d m hd hbase hmoved => ?_
  · rcases List.mem_append.1 hx with hx | hx
    · exact .inl hx
    · exact .inr (List.mem_singleton.1 hx ▸ hpending)
  · rw [hcaches] at hc
    split at hc
    next hmn =>
      subst hmn
      exact ((hlinked hd).1 hc).liesBelow (Selector.pattern_ne_nil (hf.follows.right.bound id d hd).parsed)
    next => exact h.below id d m hd hc
  · rw [hcaches]
    split
    next hmn =>
      subst hmn
      exact hlinked hd
    next hmn => exact h.caches id d m hd hbase fun hin => by simpa [hmn] using hmoved hin

include hf hm h in
/-- In a template there is nothing to relink. -/
theorem Midway.skip {q : Place} (hq : f.tree.place? n = some q) (hin : q.inTemplate = true) :
    Midway f t' e told (moved ++ [n]) g := by
  obtain ⟨q', hq', -, -, hin'⟩ := hm.place? hq
  refine h.relinked h.steady (.refl g) (fun x hx => ?_) h.below fun id d m hd hbase hmoved => ?_
  · rcases List.mem_append.1 hx with hx | hx
    · exact .inl hx
    · obtain rfl := List.mem_singleton.1 hx
      refine .inr (.inr (Option.eq_none_iff_forall_ne_some.2 fun F hF => ?_))
      obtain ⟨-, ⟨p, hp, hlive, -⟩, -⟩ := hf.follows.reads x F hF
      obtain rfl := Option.some.inj (hq.symm.trans hp)
      simp [hin] at hlive
  · by_cases hmn : m = n
    · subst hmn
      refine iff_of_false (fun hc => ?_) fun hmatch => ?_
      · obtain ⟨p, hp, hlive, -⟩ := h.below id d m hd hc
        obtain rfl := Option.some.inj (hq'.symm.trans hp)
        simp [hin', hin] at hlive
      · obtain ⟨_, p, _, _, hp, _, _, hlive, _⟩ := hmatch
        obtain rfl := Option.some.inj (hq'.symm.trans hp)
        simp [hin', hin] at hlive
    · exact h.caches id d m hd hbase fun hwithin => by simpa [hmn] using hmoved hwithin

include hf hm h in
/-- The links of a moved node are determined again. -/
theorem Midway.relink (hn : f.tree.Within e n) (htold : ∀ b, f.tree.Within e b → b ∈ told ∨ ¬ f.tree.Within b n) :
    Ends (Form.relink n g) (fun _ g' => Midway f t' e told (moved ++ [n]) g') (fun _ _ => True) := by
  obtain ⟨q, hq⟩ := hn.exists_place?
  obtain ⟨q', hq', -, -, hin'⟩ := hm.place? hq
  obtain ⟨u, hu, huq⟩ := FieldTree.place?_of_blank h.steady.tree hq'
  have hcontains : g.tree.contains n = true := by
    rw [FieldTree.contains_eq, hu, Option.isSome_some]
  have hin : g.tree.inTemplate n = q.inTemplate := by
    rw [FieldTree.inTemplate_eq, hu, Option.map_some, Option.getD_some, (Place.blank_eq huq).2.1, hin']
  unfold Form.relink
  rw [hcontains, hin, Bool.not_true, Bool.false_or]
  by_cases hlive : q.inTemplate = true
  · rw [if_pos hlive]
    exact h.skip hf hm hq hlive
  · rw [if_neg hlive]
    refine Ends.bind ((h.relinkFormula hf hm n).mono ?_ fun _ _ he => he)
    rintro _ g₁ ⟨hg₁, hpending⟩
    refine Ends.bind ((hg₁.relinkNode hf hm hn htold hpending).mono ?_ fun _ _ he => he)
    rintro _ g₂ hg₂
    obtain ⟨-, hrel⟩ := hg₂.steady.consistent.coherent.prune n
    have hpruned := hg₂.steady.prune n
    have hout : Steady t'.blank f.schedule { g₂.prune n with graph := (g₂.prune n).graph.outdated } :=
      hpruned.beside (hpruned.consistent.congr rfl rfl (Graph.levelsRight_of_none rfl)) ⟨rfl, rfl, rfl, rfl⟩
    have hmarks := MarksBut.refl (g₂.prune n)
    have hrel' : Relinked g₂ { g₂.prune n with graph := (g₂.prune n).graph.outdated } :=
      hrel.trans ⟨⟨rfl, rfl, rfl, rfl⟩, fun _ => rfl, fun _ => rfl, _, hmarks.formula, hmarks.pending⟩
    exact FormM.ends_update (hg₂.relinked hout hrel' (fun _ hx => .inl hx) hg₂.below hg₂.caches)

include hf hm h in
/-- When what is pending has been followed up, it is right as before which bindings stand for a node. -/
theorem Midway.caches_attended (hg' : Attended g g') {d : Bound} (hd : f.registry.bound? id = some d) :
    (∀ m, g'.registry.Caches id m → t'.LiesBelow d.base m) ∧
      ∀ m, (f.tree.Within e d.base → d.base ∈ told) → (f.tree.Within e m → m ∈ moved) →
        (g'.registry.Caches id m ↔ t'.Matches d.selector d.base m) := by
  obtain ⟨b, hb⟩ := h.bound.exists_get? hd
  have hold (m : NodeId) : g.registry.Caches id m ↔ m ∈ b.cache := by simp [Registry.Caches, hb]
  rcases hg'.caches id b hb with hsame | hfresh
  · refine ⟨fun m hc => h.below id d m hd ((hold m).2 ((hsame m).1 hc)), fun m hbase hmoved => ?_⟩
    rw [hsame, ← hold]
    exact h.caches id d m hd hbase hmoved
  cases hmode : g.cacheRefresh with
  | fromScratch =>
    have hmatch (m : NodeId) : g'.registry.Caches id m ↔ t'.Matches d.selector d.base m := by
      rw [hfresh, hmode, h.mem_fresh hf hm hb hd]
    refine ⟨fun m hc => ?_, fun m _ _ => hmatch m⟩
    exact ((hmatch m).1 hc).liesBelow (Selector.pattern_ne_nil (hf.follows.right.bound id d hd).parsed)
  | incremental =>
    have hkept (m : NodeId) : g'.registry.Caches id m ↔ g.registry.Caches id m ∧ b.accepts g.tree m = true := by
      rw [hfresh, hmode, hold, Binding.fresh, Std.ExtTreeSet.mem_filter]
      simp
    refine ⟨fun m hc => h.below id d m hd ((hkept m).1 hc).1, fun m hbase hmoved => ?_⟩
    rw [hkept, h.caches id d m hd hbase hmoved]
    refine and_iff_left_of_imp fun hmatch => Selector.accepts_of_blank h.steady.tree ?_
    exact (h.bound.accepts_iff hm hf.follows.right hb hd fun hin => .inl (hbase hin)).2 hmatch

include hf hm h in
/-- What is pending is followed up. -/
theorem Midway.settle (heager : f.isSet .recomputeEagerly = true) : Ends (Form.settle g)
    (fun _ g' => Midway f t' e told moved g' ∧ g'.pending = ∅) (fun _ _ => True) := by
  have heager' : g.isSet .recomputeEagerly = true := by
    rw [← heager, Form.isSet, Form.isSet, h.steady.schedule]
  have hcontains (id : BindingId) (m : NodeId) (hc : g.registry.Caches id m) : g.tree.contains m = true := by
    obtain ⟨b, hb⟩ : ∃ b, g.registry.get? id = some b := hc.imp fun _ => And.left
    obtain ⟨d, hd, -⟩ := h.bound.exists_bound hb
    obtain ⟨q, hq, -⟩ := h.below id d m hd hc
    rw [FieldTree.contains_of_blank h.steady.tree, FieldTree.contains_eq, hq]
    rfl
  refine (h.steady.consistent.settle heager' hcontains).mono ?_ fun _ _ _ => trivial
  intro _ g' hg'
  have hvalues (n : NodeId) (hn : (f.graph.formula? n).isSome) : f.Valid t' moved g' n := by
    obtain ⟨F, hF⟩ := Option.isSome_iff_exists.1 hn
    obtain ⟨-, ⟨q, hq, -⟩, -⟩ := hf.follows.reads n F hF
    have hn' : g.tree.contains n = true := by
      rw [FieldTree.contains_of_blank h.steady.tree, hm.contains_eq, FieldTree.contains_eq, hq]
      rfl
    exact (hg'.values n (by rwa [h.formula]) hn').valid (h.values n hn) (h.formula n)
  refine ⟨?_, hg'.pending⟩
  exact
    { steady := ⟨hg'.consistent, hg'.blank.trans h.steady.tree, hg'.schedule.trans h.steady.schedule⟩
      formula := fun n => (hg'.formula n).trans (h.formula n)
      bound := fun id => (hg'.bound id).trans (h.bound id)
      below := fun id d m hd => (h.caches_attended hf hm hg' hd).1 m
      caches := fun id d m hd => (h.caches_attended hf hm hg' hd).2 m
      values := hvalues }

end Steps

section Loop

variable (hf : Tracking f) (hm : f.tree.Relocates t' e) (hupdate : f.isSet .updateGraph = true)
  (heager : f.isSet .recomputeEagerly = true)

include hf hm hupdate heager

/-- A node of a moved subtree is reported once the nodes above it have been. -/
theorem Midway.rename {pre post : List NodeId} (hnodes : f.tree.preorderFrom e = pre ++ n :: post)
    (h : Midway f t' e pre pre g) : Ends (Form.rename (f.tree.path n) n g)
      (fun _ g' => Midway f t' e (pre ++ [n]) (pre ++ [n]) g' ∧ g'.pending = ∅) (fun _ _ => True) := by
  obtain ⟨hn, hnew, htold, hbefore⟩ := FieldTree.between_of_preorder hf.keyed hnodes
  have hon {g : Form} {told moved : List NodeId} (h : Midway f t' e told moved g) : g.isSet .updateGraph = true := by
    rw [← hupdate, Form.isSet, Form.isSet, h.steady.schedule]
  refine Ends.bind ((h.moveBindings hf hm (hon h) hn hnew hbefore).mono ?_ fun _ _ he => he)
  rintro _ g₁ hg₁
  unfold updateLinks whenUpdating
  rw [if_pos (hon hg₁)]
  exact Ends.bind ((hg₁.relink hf hm hn htold).mono (fun _ _ hg₂ => hg₂.settle hf hm heager) fun _ _ he => he)

/-- The nodes of a moved subtree are reported one after the other. -/
theorem Tracking.renameAll (hvalues : ∀ n, f.UpToDate n) :
    Ends (((f.tree.preorderFrom e).map fun n => (n, f.tree.path n)).forM
      (fun moved : NodeId × Path => Form.rename moved.2 moved.1) (f.withTree t'))
    (fun _ g => Midway f t' e (f.tree.preorderFrom e) (f.tree.preorderFrom e) g ∧
      (f.tree.preorderFrom e = [] ∨ g.pending = ∅)) (fun _ _ => True) := by
  have hloop : Ends (((f.tree.preorderFrom e).map fun n => (n, f.tree.path n)).forM
      (fun moved : NodeId × Path => Form.rename moved.2 moved.1) (f.withTree t')) _ fun _ _ => True :=
    Ends.forM (I := fun rest g => ∃ pre left, f.tree.preorderFrom e = pre ++ left ∧
      rest = left.map (fun n => (n, f.tree.path n)) ∧ Midway f t' e pre pre g ∧ (pre = [] ∨ g.pending = ∅)) ?_
    ⟨[], _, rfl, rfl, .start hf hm hvalues, .inl rfl⟩
  · refine hloop.mono ?_ fun _ _ he => he
    rintro _ g ⟨pre, left, hnodes, hleft, hmid, hpending⟩
    obtain rfl : left = [] := by simpa using hleft.symm
    rw [List.append_nil] at hnodes
    rw [hnodes]
    exact ⟨hmid, hpending⟩
  · rintro a rest g ⟨pre, left, hnodes, hleft, hmid, -⟩
    cases left with
    | nil => simp at hleft
    | cons n left =>
      obtain ⟨rfl, rfl⟩ := List.cons.inj hleft
      refine (Midway.rename hf hm hupdate heager hnodes hmid).mono ?_ fun _ _ he => he
      rintro _ g' ⟨hmid', hpending⟩
      exact ⟨pre ++ [n], left, by rw [hnodes, List.append_assoc]; rfl, rfl, hmid', .inr hpending⟩

end Loop

section Renamed

/-- When all nodes of the subtree have been reported, a form follows its tree. -/
theorem Midway.follows (h : Midway f t' e told moved g) (hf : Tracking f) (hm : f.tree.Relocates t' e)
    (htold : ∀ x, f.tree.Within e x → x ∈ told) (hmoved : ∀ x, f.tree.Within e x → x ∈ moved) : Follows g := by
  have hfollows : Follows (g.withTree t') := hf.follows.relocated hm rfl h.formula h.bound htold
    fun id d m hd => h.caches id d m hd (htold _) (hmoved m)
  exact hfollows.of_blank h.steady.tree

/-- What has been evaluated is up to date. -/
theorem Evaluated.upToDate (h : g.Evaluated n) (hg : Follows g) (ht : g.tree.Keyed) : g.UpToDate n := by
  obtain ⟨F, q, hF, hq, hvalue⟩ := h
  intro F' hF'
  obtain rfl := Option.some.inj (hF.symm.trans hF')
  rw [FieldTree.formulaValue?_of_place? hq, hvalue, hg.freshValue? ht hF]

/-- What was overlooked reads the same fields in another order. -/
theorem Overlooked.reorders (h : f.Overlooked t' moved g n) (hf : Follows f) (hg : Follows g)
    (hbound : f.registry.Informed t' told g.registry) (hblank : g.tree.blank = t'.blank) : f.tree.Reorders g.tree n where
  order := h.order.of_blank hblank
  same s base hmem m := by
    obtain ⟨id, d, huses, hd, rfl, rfl⟩ := hf.mem_selectionsAt.1 hmem
    obtain ⟨b, hb⟩ := hbound.exists_get? hd
    obtain ⟨d', hd', hs, hbase, -⟩ := hbound.exists_bound hb
    obtain rfl := Option.some.inj (hd.symm.trans hd')
    obtain ⟨b₀, hb₀, rfl⟩ := Option.map_eq_some_iff.1 hd
    have hinputs := h.inputs id huses m
    simp only [Registry.Caches, hb, hb₀, Option.some.injEq, exists_eq_left'] at hinputs
    rw [hg.caches_iff hb, hf.caches_iff hb₀, hs, hbase] at hinputs
    exact hinputs

variable {key : Step}

/-- In a form that is always kept up to date, all values are if nothing is pending. -/
theorem Tended.upToDate (h : Tended f) (hpending : f.pending.toList = []) (n : NodeId) : f.UpToDate n := by
  have hnot (m : NodeId) : m ∉ f.pending := fun hm => by
    rw [← Std.ExtTreeSet.mem_toList, hpending] at hm
    cases hm
  refine h.keptUp.sound.settled.upToDate fun hstale => ?_
  rcases h.keptUp.covered n hstale with hp | ⟨m, hm, -⟩
  · exact hnot n hp
  · exact hnot m hm

/-- A group that a formula reads, and a formula that reads a group of another name. -/
def grouped : Form :=
  Edit.runAll [.addField "" "g" .group none, .addField "/g" "x" .field none, .addField "" "p" .field (some "ref /g.x"),
    .addField "" "q" .field (some "ref /h.x"), .setValue "/g.x" (.int 7)] (ofSettings {})

/-- The value that is stored for the formula of a node after an operation, with the one that its expression has then. -/
def valuesAfter (r : EStateM.Result FormError Form Unit) (n : NodeId) : Option (Option Value × Option Value) :=
  match r with
  | .ok _ g => (g.graph.formula? n).map fun F => (g.tree.formulaValue? n, freshValue? g.tree n F.expression)
  | .error .. => none

theorem not_upToDate_of_valuesAfter {r : EStateM.Result FormError Form Unit} {stored fresh : Option Value}
    (h : valuesAfter r n = some (stored, fresh)) (hne : stored ≠ fresh) : ∃ g, r = .ok () g ∧ ¬ g.UpToDate n := by
  cases r with
  | error e g => cases h
  | ok _ g =>
    obtain ⟨F, hF, hvalues⟩ := Option.map_eq_some_iff.1 h
    obtain ⟨hstored, hfresh⟩ := Prod.mk.inj hvalues
    exact ⟨g, rfl, fun hg => hne (hstored.symm.trans ((hg F hF).trans hfresh))⟩

/-- Two elements of an array and a formula that takes them by turns. Only the second one has a value. -/
def alternating : Form :=
  Edit.runAll [.addField "" "a" .array none, .pushElement "/a", .pushElement "/a", .addField "/a[0]" "x" .field none,
    .addField "/a[1]" "x" .field (some "ref 7"), .addField "" "s" .field (some "count_spells 7 7 1 7 /a[-1].x")]
    (ofSettings {})

/-- A root without a name, and a group with a formula of the same text as one at the root. -/
def rooted : Form :=
  Edit.runAll [.addField "" "a" .group none, .addField "/a" "x" .field none, .addField "/a" "y" .field (some "ref ./x"),
    .addField "" "z" .field (some "ref ./x"), .addField "" "x" .field none, .setValue "/x" (.int 7)] (ofSettings {})

/-- The root must not get the name of one of its groups: its binding would be mixed up with that of the group, which has
not been told yet, and the formula at the root would lose its field. -/
theorem not_upToDate_of_rooted : (∀ n, rooted.UpToDate n) ∧
    ∃ g, renameSubtree rootId (.name "a") rooted = .ok () g ∧ ¬ g.UpToDate 4 := by
  have hpending : rooted.pending.toList = [] := by cbv
  have hvalues : valuesAfter (renameSubtree rootId (.name "a") rooted) 4 = some (none, some (.int 7)) := by cbv
  have htended : Tended rooted := Reached.runAll (.created rfl) ⟨trivial, trivial, trivial, trivial, trivial, trivial, trivial⟩
  exact ⟨htended.upToDate hpending, not_upToDate_of_valuesAfter hvalues (Option.some_ne_none _).symm⟩

end Renamed

end Form

end LiveForm
