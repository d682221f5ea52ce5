import LiveForm.Proofs.Form.Driving
import LiveForm.Proofs.Form.Rejections

/-!
# Registering a node and taking it back

While a node is registered nothing changes but what concerns the node: its formula, the bindings that only this formula
uses, and which bindings stand for the node. So a node that leaves again, because it was rejected or because it is taken
back, leaves what there was before it came. This holds as long as the caches are up to date apart from the node.
-/

set_option autoImplicit false

namespace LiveForm

section Matching

variable {t t' : FieldTree} {s : Selector}

theorem Forest.matching_blank (pattern : List PatternStep) (f : Forest) : f.blank.matching pattern = f.matching pattern := by
  induction f generalizing pattern with
  | nil => cases pattern <;> rfl
  | cons id key node children siblings ihc ihs =>
    cases pattern with
    | nil => rfl
    | cons part pattern =>
      simp only [Forest.blank, Forest.matching, ihc, ihs]
      rfl

/-- The values of formulas do not matter for what a selector finds. -/
theorem Selector.mem_fieldsBelow_of_blank (h : t'.blank = t.blank) {base field : NodeId}
    (hmem : field ∈ s.fieldsBelow t base) : field ∈ s.fieldsBelow t' base := by
  unfold fieldsBelow at hmem ⊢
  cases hl : t.locate? base with
  | none => simp [hl] at hmem
  | some l =>
    obtain ⟨hp, hbelow, -⟩ := FieldTree.locate?_eq_some hl
    obtain ⟨p', hp', hpp⟩ := FieldTree.place?_of_blank h hp
    rw [FieldTree.place?, Option.map_eq_some_iff] at hp'
    obtain ⟨l', hl', rfl⟩ := hp'
    have hbelow' : t'.below? base = some l'.children := (FieldTree.locate?_eq_some hl').2.1
    have hchildren : l'.children.blank = l.children.blank := by
      have hblank := congrArg (·.below? base) h
      simp only [FieldTree.below?_blank, hbelow, hbelow', Option.map_some] at hblank
      exact Option.some.inj hblank
    have htemplate : l'.inTemplate = l.inTemplate := (Place.blank_eq hpp).2.1
    simp only [hl] at hmem
    simp only [hl', htemplate]
    by_cases hlive : l.inTemplate = true
    · rwa [if_pos hlive] at hmem ⊢
    · rw [if_neg hlive] at hmem ⊢
      rwa [FieldTree.mem_inMatchOrder, ← Forest.matching_blank, hchildren, Forest.matching_blank,
        ← FieldTree.mem_inMatchOrder]

end Matching

namespace Form

variable {f g g' : Form} {n m x : NodeId} {id : BindingId} {text : String} {mode : Refresh} {order : VisitOrder}

/-- Matched with the tree, the selector of a binding finds a field. -/
def Finds (f : Form) (id : BindingId) (m : NodeId) : Prop :=
  ∃ d, f.registry.bound? id = some d ∧ m ∈ d.selector.fieldsBelow f.tree d.base

/-- A binding that is in use would also be used by the formula that a text is at a node. -/
def Shares (f : Form) (n : NodeId) (text : String) (id : BindingId) : Prop :=
  (f.registry.get? id).isSome ∧ ∃ F r, Formula.parse f.tree n text f.registry = .ok F r ∧ id ∈ F.bindings

/-- What has changed concerns one node only: its formula, bindings that were not there before, and which bindings stand
for the node. -/
structure ApartFrom (n : NodeId) (f g : Form) : Prop where
  blank : g.tree.blank = f.tree.blank
  formula : ∀ x, x ≠ n → g.graph.formula? x = f.graph.formula? x
  bound : ∀ id d, f.registry.bound? id = some d → g.registry.bound? id = some d
  caches : ∀ id m, (f.registry.get? id).isSome → m ≠ n → (g.registry.Caches id m ↔ f.registry.Caches id m)

section Finding

theorem finds_of_bound (hbound : g.registry.bound? id = f.registry.bound? id) (hblank : g.tree.blank = f.tree.blank) :
    g.Finds id m ↔ f.Finds id m := by
  unfold Finds
  rw [hbound]
  exact exists_congr fun d => and_congr_right fun _ =>
    ⟨Selector.mem_fieldsBelow_of_blank hblank.symm, Selector.mem_fieldsBelow_of_blank hblank⟩

theorem mem_fresh_iff_finds {b : Binding} (hb : f.registry.get? id = some b) :
    m ∈ b.fresh f.tree .fromScratch ↔ f.Finds id m := by
  unfold Finds
  rw [Registry.bound?, hb, Option.map_some]
  simp only [Binding.fresh, Std.ExtTreeSet.mem_ofList, List.contains_iff_mem, Option.some.injEq, exists_eq_left']
  rfl

theorem mem_fresh_incremental {b : Binding} (hb : f.registry.get? id = some b) :
    m ∈ b.fresh f.tree .incremental ↔ f.registry.Caches id m ∧ id ∈ f.registry.accepting f.tree m := by
  rw [Registry.mem_accepting, Registry.Caches]
  simp only [Binding.fresh, Std.ExtTreeSet.mem_filter, hb, Option.some.injEq, exists_eq_left', Std.ExtTreeSet.get_eq,
    exists_prop]

/-- Which bindings accept a field is told by their selectors and by the paths of their bases. -/
theorem mem_accepting_of_bound {d : Bound} (hf : f.registry.bound? id = some d) (hg : g.registry.bound? id = some d)
    (hblank : g.tree.blank = f.tree.blank) (hmem : id ∈ f.registry.accepting f.tree m) :
    id ∈ g.registry.accepting g.tree m := by
  obtain ⟨b, hb, haccepts⟩ := Registry.mem_accepting.1 hmem
  obtain ⟨b', hb', rfl⟩ := Option.map_eq_some_iff.1 hg
  rw [Registry.bound?, hb, Option.map_some, Option.some.injEq] at hf
  have hselector : b.selector = b'.selector := congrArg Bound.selector hf
  have hpath : b.basePath = b'.basePath := congrArg Bound.basePath hf
  refine Registry.mem_accepting.2 ⟨b', hb', ?_⟩
  rw [Binding.accepts, hselector, hpath] at haccepts
  exact Selector.accepts_of_blank hblank haccepts

theorem isSome_get?_of_bound {d : Bound} (h : f.registry.bound? id = some d) : (f.registry.get? id).isSome := by
  obtain ⟨b, hb, -⟩ := Option.map_eq_some_iff.1 h
  rw [hb]
  rfl

theorem Finds.isSome (h : f.Finds id m) : (f.registry.get? id).isSome := by
  obtain ⟨d, hd, -⟩ := h
  exact isSome_get?_of_bound hd

end Finding

section Apart

theorem ApartFrom.refl (n : NodeId) (f : Form) : ApartFrom n f f :=
  ⟨rfl, fun _ _ => rfl, fun _ _ hd => hd, fun _ _ _ _ => Iff.rfl⟩

theorem ApartFrom.bound?_eq (h : ApartFrom n f g) (hid : (f.registry.get? id).isSome) :
    g.registry.bound? id = f.registry.bound? id := by
  obtain ⟨b, hb⟩ := Option.isSome_iff_exists.1 hid
  have hd : f.registry.bound? id = some b.bound := by rw [Registry.bound?, hb, Option.map_some]
  rw [hd, h.bound id _ hd]

/-- The caches of the bindings that were there before may have changed at the node only. -/
theorem ApartFrom.relinked (h : ApartFrom n f g) (hrel : Relinked g g')
    (hcaches : ∀ id m, (f.registry.get? id).isSome → m ≠ n → (g'.registry.Caches id m ↔ f.registry.Caches id m)) :
    ApartFrom n f g' where
  blank := by rw [hrel.beside.tree, h.blank]
  formula x hx := (hrel.formula x).trans (h.formula x hx)
  bound id d hd := (hrel.bound id).trans (h.bound id d hd)
  caches := hcaches

theorem ApartFrom.withFormula {F : Formula} {r : Registry} (htaken : Registry.Taken n F.bindings f.registry r) :
    ApartFrom n f (f.withFormula n F r) where
  blank := rfl
  formula x hx := by rw [formula?_withFormula, if_neg hx]
  bound _ _ hd := htaken.bound? hd
  caches _ _ _ _ := htaken.caches

/-- A binding is there as long as a formula uses it. -/
theorem CoherentBut.isSome_get?_iff (h : Coherent f) : (f.registry.get? id).isSome ↔ ∃ c, f.graph.Uses c id := by
  constructor
  · intro hid
    obtain ⟨b, hb⟩ := Option.isSome_iff_exists.1 hid
    obtain ⟨c, hc⟩ := h.used id b hb
    exact ⟨c, ((h.consumers id c).1 ⟨b, hb, hc⟩).resolve_right not_false⟩
  · rintro ⟨c, hc⟩
    obtain ⟨b, hb, -⟩ := (h.consumers id c).2 (.inl hc)
    rw [hb]
    rfl

/-- Where graph and registry agree, formulas and caches determine them. -/
theorem CoherentBut.same (hf : Coherent f) (hg : Coherent g) (hformula : ∀ x, g.graph.formula? x = f.graph.formula? x)
    (hbound : ∀ i d d', f.registry.bound? i = some d → g.registry.bound? i = some d' → d' = d)
    (hcaches : ∀ i x, g.registry.Caches i x ↔ f.registry.Caches i x) :
    g.graph.vertices = f.graph.vertices ∧ ∀ i, g.registry.get? i = f.registry.get? i := by
  have huses (c : NodeId) (i : BindingId) : g.graph.Uses c i ↔ f.graph.Uses c i := by
    unfold Graph.Uses
    rw [hformula]
  refine ⟨hf.tidy.vertices_eq hg.tidy hformula (fun x => ?_) fun x => ?_, fun i => ?_⟩
  · refine Std.ExtTreeSet.ext_mem fun i => ?_
    rw [hg.successors, hf.successors, hcaches]
  · refine Std.ExtTreeSet.ext_mem fun m => ?_
    rw [hg.reads x not_false, hf.reads x not_false]
    unfold Feeds
    simp only [hcaches, huses]
  have halive : (g.registry.get? i).isSome ↔ (f.registry.get? i).isSome := by
    rw [hg.isSome_get?_iff, hf.isSome_get?_iff]
    simp only [huses]
  cases hb : f.registry.get? i with
  | none =>
    rw [hb] at halive
    simpa using halive
  | some b =>
    obtain ⟨b', hb'⟩ := Option.isSome_iff_exists.1 (halive.2 (by rw [hb]; rfl))
    have hd : f.registry.bound? i = some b.bound := by rw [Registry.bound?, hb, Option.map_some]
    have hd' : g.registry.bound? i = some b'.bound := by rw [Registry.bound?, hb', Option.map_some]
    rw [hb', Binding.eq_of_bound (hbound i _ _ hd hd') (fun x => ?_) fun c => ?_]
    · simpa [Registry.Caches, hb, hb'] using hcaches i x
    · have hserves : g.registry.Serves i c ↔ f.registry.Serves i c := by
        rw [hg.consumers, hf.consumers, huses]
      simpa [Registry.Serves, hb, hb'] using hserves

/-- However the node came to where it is, it leaves what it would have left before. -/
theorem ApartFrom.same_detached (h : ApartFrom n f g) {f' : Form} (hf : Detached n f f') (hg : Detached n g g') :
    g'.graph.vertices = f'.graph.vertices ∧ ∀ id, g'.registry.get? id = f'.registry.get? id := by
  have hformula (x : NodeId) : g'.graph.formula? x = f'.graph.formula? x := by
    rw [hg.formula, hf.formula]
    split
    · rfl
    next hx => exact h.formula x hx
  have halive (i : BindingId) : (g'.registry.get? i).isSome ↔ (f'.registry.get? i).isSome := by
    rw [hg.coherent.isSome_get?_iff, hf.coherent.isSome_get?_iff]
    unfold Graph.Uses
    simp only [hformula]
  -- A binding that is left was there before, and has kept all but the node.
  have hbefore {i : BindingId} (hi : (f'.registry.get? i).isSome) : (f.registry.get? i).isSome := by
    obtain ⟨b, hb⟩ := Option.isSome_iff_exists.1 hi
    exact isSome_get?_of_bound (hf.bound i b.bound (by rw [Registry.bound?, hb, Option.map_some]))
  refine hf.coherent.same hg.coherent hformula (fun i d d' hd hd' => ?_) fun i x => ?_
  · have heq := hg.bound i d' hd'
    rw [h.bound i d (hf.bound i d hd)] at heq
    exact (Option.some.inj heq).symm
  · rw [hg.caches, hf.caches, halive]
    constructor
    · rintro ⟨hc, hx, hi⟩
      exact ⟨(h.caches i x (hbefore hi) hx).1 hc, hx, hi⟩
    · rintro ⟨hc, hx, hi⟩
      exact ⟨(h.caches i x (hbefore hi) hx).2 hc, hx, hi⟩

end Apart

section Attaching

/-- A node is being taken into a graph, and so far all goes well: the bindings that are new stand for all that their
selectors find, and those that stood for the node rightly still do. -/
structure Attaching (n : NodeId) (f g : Form) : Prop where
  consistent : Consistent g
  beside : SameBeside f g
  apart : ApartFrom n f g
  complete : ∀ id m, f.registry.get? id = none → g.Finds id m → g.registry.Caches id m
  kept : ∀ id, f.Finds id n → f.registry.Caches id n → g.registry.Caches id n

/-- How the attempt to take a node into a graph fails: its text is no formula, and then nothing has changed, or there is
a circle, and then the node has left the graph. -/
def Repelled (n : NodeId) (f : Form) (e : FormError) (g : Form) : Prop :=
  (∀ paths, e ≠ .cycle paths) ∧ Traceless f g ∨ (∃ paths, e = .cycle paths) ∧ g.tree = f.tree ∧
    ∃ f', ApartFrom n f f' ∧ Detached n f' g

theorem Attaching.start (h : Consistent f) : Attaching n f f where
  consistent := h
  beside := .refl f
  apart := .refl n f
  complete id m hnone hfinds := by
    have hsome := hfinds.isSome
    simp [hnone] at hsome
  kept _ _ hc := hc

/-- Once the caches of bindings that were there before are synchronized, they hold what they held before. -/
theorem ApartFrom.synced {a : BindingId} (h : ApartFrom n f g) (hsync : Synced a g g')
    (hcaches : (f.registry.get? a).isSome → ∀ m, m ≠ n → (g'.registry.Caches a m ↔ f.registry.Caches a m)) :
    ApartFrom n f g' := by
  refine h.relinked hsync.relinked fun id m hid hm => ?_
  by_cases hia : id = a
  · subst hia
    exact hcaches hid m hm
  · rw [hsync.others id m hia, h.caches id m hid hm]

/-- Some bindings of a new formula have been brought up to date, and others are left. -/
structure Connecting (n : NodeId) (f : Form) (F : Formula) (rest : List BindingId) (g : Form) : Prop where
  left : ∀ id ∈ rest, id ∈ F.bindings
  apart : ApartFrom n f g
  complete : ∀ id m, f.registry.get? id = none → id ∉ rest → g.Finds id m → g.registry.Caches id m
  kept : ∀ id, f.Finds id n → f.registry.Caches id n → g.registry.Caches id n

section Connecting

variable {F : Formula} {a : BindingId} {rest : List BindingId} {b : Binding}

theorem Connecting.start {r : Registry} (htaken : Registry.Taken n F.bindings f.registry r) :
    Connecting n f F F.bindings (f.withFormula n F r) where
  left _ hid := hid
  apart := .withFormula htaken
  complete id m hnone hid hfinds := by
    -- A new binding is used by the formula.
    obtain ⟨b, hb⟩ := Option.isSome_iff_exists.1 hfinds.isSome
    exact absurd (htaken.new id b hb hnone).2 hid
  kept _ _ hc := htaken.caches.2 hc

variable (h : Connecting n f F (a :: rest) g) (hb : g.registry.get? a = some b)
  (hshared : (f.registry.get? a).isSome → ∀ m, m ≠ n → (f.registry.Caches a m ↔ f.Finds a m))

include h hb hshared

/-- A binding that was there before should hold what it held then. -/
theorem Connecting.mem_fresh (hsome : (f.registry.get? a).isSome) (hm : m ≠ n) :
    m ∈ b.fresh g.tree .fromScratch ↔ f.registry.Caches a m := by
  rw [mem_fresh_iff_finds hb, hshared hsome m hm]
  exact finds_of_bound (h.apart.bound?_eq hsome) h.apart.blank

/-- One of the bindings is brought up to date. -/
theorem Connecting.synced (hsync : Synced a g g')
    (hcaches : ∀ m, g'.registry.Caches a m ↔ m ∈ b.fresh g.tree .fromScratch) : Connecting n f F rest g' := by
  have hfresh (m : NodeId) : g'.registry.Caches a m ↔ g.Finds a m := by
    rw [hcaches, mem_fresh_iff_finds hb]
  have hfinds (id : BindingId) (m : NodeId) : g'.Finds id m ↔ g.Finds id m :=
    finds_of_bound (hsync.relinked.bound id) (by rw [hsync.relinked.beside.tree])
  refine
    { left := fun id hid => h.left id (List.mem_cons_of_mem _ hid)
      apart := h.apart.synced hsync fun hsome m hm => by rw [hcaches, h.mem_fresh hb hshared hsome hm]
      complete := fun id m hnone hid hf => ?_
      kept := fun id hf hc => ?_ }
  · by_cases hia : id = a
    · subst hia
      exact (hfresh m).2 ((hfinds id m).1 hf)
    · rw [hsync.others id m hia]
      exact h.complete id m hnone (by simp [hia, hid]) ((hfinds id m).1 hf)
  · by_cases hia : id = a
    · subst hia
      exact (hfresh n).2 ((finds_of_bound (h.apart.bound?_eq hf.isSome) h.apart.blank).2 hf)
    · exact (hsync.others id n hia).2 (h.kept id hf hc)

/-- A binding that was refused has kept what it should, and gained nothing else. -/
theorem Connecting.refused {e : FormError} (hrefused : Refused a b e g g') : ApartFrom n f g' := by
  refine h.apart.synced hrefused.synced fun hsome m hm => ?_
  have hfresh := h.mem_fresh hb hshared hsome hm
  have hcache : m ∈ b.cache ↔ f.registry.Caches a m := by
    rw [← h.apart.caches a m hsome hm, Registry.Caches, hb]
    simp
  refine ⟨fun hc => ?_, fun hc => hrefused.kept m (hcache.2 hc) (hfresh.2 hc)⟩
  exact (hrefused.caches m hc).elim hcache.1 hfresh.1

end Connecting

/-- Reading and connecting the formula of a node changes nothing apart from the node, if the bindings that it shares with
other formulas are up to date. -/
theorem Consistent.attaching_formula (h : Consistent f) (hn : f.graph.formula? n = none)
    (hshared : ∀ id, f.Shares n text id → ∀ m, m ≠ n → (f.registry.Caches id m ↔ f.Finds id m)) :
    Ends (Form.attachFormula n text f) (fun _ => Attaching n f) (Repelled n f) := by
  have hparse := Formula.parse_spec (t := f.tree) h.coherent.fresh (h.coherent.not_serves hn) h.coherent.used text
  rw [attachFormula_eq]
  cases hp : Formula.parse f.tree n text f.registry with
  | error e r =>
    obtain ⟨hbindings, -, herror, -⟩ := hparse.of_error hp
    refine .inl ⟨herror.ne_cycle, rfl, rfl, fun id => ?_⟩
    simp [Registry.get?, hbindings]
  | ok F r =>
    obtain ⟨hanchor, htaken⟩ := hparse.of_ok hp
    have hshare {a : BindingId} (ha : a ∈ F.bindings) (hsome : (f.registry.get? a).isSome) (m : NodeId) (hm : m ≠ n) :
        f.registry.Caches a m ↔ f.Finds a m := hshared a ⟨hsome, F, r, hp, ha⟩ m hm
    have hconnect := (h.joining hn hanchor htaken).connect (P := Connecting n f F) (fun id hid => uses_withFormula hid)
      (.start htaken) fun a rest b g g' hb _ hsync hcaches hP =>
        hP.synced hb (hshare (hP.left a List.mem_cons_self)) hsync hcaches
    refine FormM.ends_orUndo (hconnect.mono ?_ ?_)
    · rintro _ _ ⟨g, hjoining, hP, rfl⟩
      obtain ⟨hcons, hrel⟩ := hjoining.finish
      refine ⟨hcons, sameBeside_withFormula.trans (hjoining.relinked.trans hrel).beside,
        hP.apart.relinked hrel hP.apart.caches, fun id m hnone hfinds => ?_, hP.kept⟩
      exact hP.complete id m hnone (by simp) ((finds_of_bound (hrel.bound id) (by rw [hrel.beside.tree])).1 hfinds)
    · rintro e g ⟨hjoining, a, rest, b, g₀, hb, -, -, hP, hrefused⟩
      obtain ⟨-, hdet⟩ := hjoining.detach
      refine .inr ⟨hrefused.closes.error, ?_, g, hP.refused hb (hshare (hP.left a List.mem_cons_self)) hrefused, hdet⟩
      rw [hdet.beside.tree, hjoining.relinked.beside.tree]
      rfl

/-- The node is linked with a binding. -/
theorem Attaching.linkOnce (h : Attaching n f g) (hid : (g.registry.get? id).isSome) : Ends (Form.linkOnce n id g)
    (fun _ g' => Attaching n f g' ∧ (∀ i, g'.registry.bound? i = g.registry.bound? i) ∧
      ∀ i, g'.registry.Caches i n ↔ g.registry.Caches i n ∨ i = id)
    (Repelled n f) := by
  unfold Form.linkOnce
  split
  next hlinked =>
    refine ⟨h, fun _ => rfl, fun i => ⟨.inl, fun hi => hi.elim (fun hc => hc) ?_⟩⟩
    rintro rfl
    exact ((h.consistent.coherent.successors i n).1 (by simpa using hlinked)).1
  next =>
    refine FormM.ends_orUndo (h.consistent.coherent.link_spec.mono ?_ ?_)
    · rintro _ g' ⟨rfl, hpath⟩
      have hrel : Relinked g (g.linked id n) := h.consistent.coherent.relinked_linked hid
      refine ⟨⟨h.consistent.linked hid hpath, h.beside.trans hrel.beside, h.apart.relinked hrel fun i m hi hm => ?_,
        fun i m hnone hfinds => ?_, fun i hf hc => (caches_linked hid).2 (.inl (h.kept i hf hc))⟩, hrel.bound, fun i => ?_⟩
      · rw [caches_linked hid, h.apart.caches i m hi hm]
        simp [hm]
      · exact (caches_linked hid).2 (.inl (h.complete i m hnone
          ((finds_of_bound (hrel.bound i) (by rw [hrel.beside.tree])).1 hfinds)))
      · rw [caches_linked hid]
        simp
    · rintro e _ ⟨rfl, hcloses⟩
      obtain ⟨-, hdet⟩ := h.consistent.detach n
      exact .inr ⟨hcloses.error, (h.beside.trans hdet.beside).tree, _, h.apart, hdet⟩

/-- The node is linked with all bindings that accept it, those that were there before among them. -/
theorem Attaching.linkAll (h : Attaching n f g) : Ends ((g.registry.accepting g.tree n).forM (Form.linkOnce n) g)
    (fun _ g' => Attaching n f g' ∧ ∀ id ∈ f.registry.accepting f.tree n, g'.registry.Caches id n)
    (Repelled n f) := by
  have hbefore (id : BindingId) (hid : id ∈ f.registry.accepting f.tree n) : id ∈ g.registry.accepting g.tree n := by
    obtain ⟨b, hb, -⟩ := Registry.mem_accepting.1 hid
    have hd : f.registry.bound? id = some b.bound := by rw [Registry.bound?, hb, Option.map_some]
    exact mem_accepting_of_bound hd (h.apart.bound id _ hd) h.apart.blank hid
  refine (Ends.forM (I := fun rest g' => Attaching n f g' ∧ (∀ i, g'.registry.bound? i = g.registry.bound? i) ∧
    (∀ id ∈ rest, (g.registry.get? id).isSome) ∧
    ∀ id ∈ f.registry.accepting f.tree n, id ∈ rest ∨ g'.registry.Caches id n) ?_
    ⟨h, fun _ => rfl, fun id hid => ?_, fun id hid => .inl (hbefore id hid)⟩).mono ?_ fun _ _ he => he
  · rintro a rest g' ⟨hg', hbound, hsome, hall⟩
    have ha : (g'.registry.get? a).isSome := by
      obtain ⟨b, hb⟩ := Option.isSome_iff_exists.1 (hsome a List.mem_cons_self)
      exact isSome_get?_of_bound ((hbound a).trans (by rw [Registry.bound?, hb, Option.map_some]))
    refine (hg'.linkOnce ha).mono ?_ fun _ _ he => he
    rintro _ g'' ⟨hg'', hbound', hcaches⟩
    refine ⟨hg'', fun i => (hbound' i).trans (hbound i), fun id hid => hsome id (List.mem_cons_of_mem _ hid),
      fun id hid => ?_⟩
    rw [hcaches]
    rcases hall id hid with hmem | hc
    · exact (List.mem_cons.1 hmem).elim (fun heq => .inr (.inr heq)) .inl
    · exact .inr (.inl hc)
  · obtain ⟨b, hb, -⟩ := Registry.mem_accepting.1 hid
    rw [hb]
    rfl
  · rintro _ g' ⟨hg', -, -, hall⟩
    exact ⟨hg', fun id hid => (hall id hid).resolve_left (by simp)⟩

/-- A node below a template is accepted by nobody. -/
theorem inTemplate_of_accepting (h : id ∈ f.registry.accepting f.tree n) : f.tree.inTemplate n = false := by
  obtain ⟨b, -, haccepts⟩ := Registry.mem_accepting.1 h
  obtain ⟨q, hq, hlive, -⟩ := Selector.prefix_of_accepts haccepts
  simp [FieldTree.inTemplate_eq, hq, hlive]

/-- What taking a node without a formula into the graph does, if the bindings that its formula shares are up to date. -/
theorem Consistent.attaching (h : Consistent f) (hn : f.graph.formula? n = none) (e : Option String)
    (hshared : ∀ text ∈ e, ∀ id, f.Shares n text id → ∀ m, m ≠ n → (f.registry.Caches id m ↔ f.Finds id m)) :
    Ends (Form.attach n e f)
      (fun _ g => Attaching n f g ∧ ∀ id ∈ f.registry.accepting f.tree n, g.registry.Caches id n) (Repelled n f) := by
  have hlink {g : Form} (hg : Attaching n f g) : Ends ((do
      let f ← get
      (f.registry.accepting f.tree n).forM (Form.linkOnce n)
      FormM.update (·.prune n) : FormM Unit) g)
      (fun _ g => Attaching n f g ∧ ∀ id ∈ f.registry.accepting f.tree n, g.registry.Caches id n) (Repelled n f) := by
    refine Ends.bind (Ends.bind (hg.linkAll.mono ?_ fun _ _ he => he))
    rintro _ g' ⟨hg', hall⟩
    obtain ⟨-, hrel⟩ := hg'.consistent.coherent.prune n
    refine FormM.ends_update ⟨⟨hg'.consistent.prune n, hg'.beside.trans hrel.beside,
      hg'.apart.relinked hrel hg'.apart.caches, fun id m hnone hfinds => hg'.complete id m hnone ?_, hg'.kept⟩, hall⟩
    exact (finds_of_bound (hrel.bound id) (by rw [hrel.beside.tree])).1 hfinds
  unfold Form.attach
  split
  · exact .inl ⟨fun paths => FormError.noConfusion, rfl, rfl, fun _ => rfl⟩
  split
  next htemplate =>
    refine ⟨.start h, fun id hid => ?_⟩
    rw [inTemplate_of_accepting hid] at htemplate
    cases htemplate
  next =>
    simp only [hn, Option.isSome_none, Bool.false_eq_true, if_false]
    cases e with
    | none => exact Ends.bind (Ends.pure (hlink (.start h)))
    | some text =>
      refine Ends.bind ((h.attaching_formula hn (hshared text rfl)).mono ?_ fun _ _ he => he)
      exact fun _ g hg => hlink hg

end Attaching

section Settling

/-- No cache lacks a field that would be put there when the cache is brought up to date. -/
def Saturated (f : Form) : Prop :=
  f.cacheRefresh = .fromScratch → ∀ id m, f.Finds id m → f.registry.Caches id m

theorem Saturated.caches (h : Saturated f) {b : Binding} (hb : f.registry.get? id = some b)
    (hm : m ∈ b.fresh f.tree f.cacheRefresh) : f.registry.Caches id m := by
  cases hmode : f.cacheRefresh with
  | incremental =>
    rw [hmode, mem_fresh_incremental hb] at hm
    exact hm.1
  | fromScratch =>
    rw [hmode, mem_fresh_iff_finds hb] at hm
    exact h hmode id m hm

/-- Then nothing is refused. -/
theorem Consistent.saturated_syncBy (h : Consistent f) (hsat : Saturated f) (id : BindingId) :
    Ends (syncBy order f.cacheRefresh id f) (fun _ g => Consistent g ∧ SameBeside f g ∧ Saturated g)
      (fun _ _ => False) := by
  cases hb : f.registry.get? id with
  | none =>
    rw [syncBy_of_none hb]
    exact ⟨h, .refl f, hsat⟩
  | some b =>
    refine (h.coherent.syncBy_spec hb order).mono ?_ ?_
    · rintro _ g ⟨hco, hsync, hcaches⟩
      have hbeside := hsync.relinked.beside
      refine ⟨h.relinked hco hsync.acyclic_all hsync.levels, hbeside, fun hmode i m hfinds => ?_⟩
      rw [hbeside.cacheRefresh] at hmode
      rw [finds_of_bound (hsync.relinked.bound i) (by rw [hbeside.tree])] at hfinds
      by_cases hi : i = id
      · subst hi
        rw [hcaches, hmode, mem_fresh_iff_finds hb]
        exact hfinds
      · exact (hsync.others i m hi).2 (hsat hmode i m hfinds)
    · rintro e g ⟨hco, hsync, hcloses, hkept⟩
      obtain ⟨m, c, hm, huse, hreach⟩ := hcloses.reaches
      -- The field is in the cache already, so what uses the binding would depend on itself.
      obtain ⟨b', hb', hmem⟩ := hsat.caches hb hm
      obtain rfl := Option.some.inj (hb.symm.trans hb')
      have hfeeds : g.Feeds m c := ⟨id, (hkept m).1 hmem hm, huse⟩
      exact hsync.acyclic_all h.acyclic m (.head' hfeeds hreach)

theorem Consistent.saturated_recomputePendingBy (h : Consistent f) (hsat : Saturated f) :
    Ends (recomputePendingBy order f) (fun _ _ => True) (fun _ _ => False) := by
  unfold Form.recomputePendingBy
  split
  · trivial
  next =>
    dsimp only
    have hclear : Consistent f.clearPending := h.congr rfl rfl h.levels
    have hsync : Ends ((order.bindings (f.bindingsUsed (f.affected f.seeds)).toList).forM
        (Form.syncBy order f.cacheRefresh) f.clearPending) (fun _ g => Consistent g) (fun _ _ => False) := by
      refine (Ends.forM (I := fun _ g => Consistent g ∧ SameBeside f g ∧ Saturated g) ?_
        ⟨hclear, ⟨rfl, rfl, rfl, rfl⟩, hsat⟩).mono (fun _ _ hg => hg.1) fun _ _ he => he
      rintro a rest g ⟨hg, hbeside, hgsat⟩
      rw [← hbeside.cacheRefresh]
      refine (hg.saturated_syncBy hgsat a).mono ?_ fun _ _ he => he
      rintro _ g' ⟨hg', hbeside', hsat'⟩
      exact ⟨hg', hbeside.trans hbeside', hsat'⟩
    split
    next hrun => exact hsync.of_error hrun
    next g hrun =>
      obtain ⟨levels, report, g', -, hrun', -⟩ := (hsync.of_ok hrun).evaluateAffected order (f.affected f.seeds)
      rw [hrun']
      trivial

/-- What is pending can be followed up. -/
theorem Consistent.saturated_settle (h : Consistent f) (hsat : f.isSet .recomputeEagerly = true → Saturated f) :
    Ends (Form.settle f) (fun _ _ => True) (fun _ _ => False) := by
  unfold Form.settle
  split
  next heager =>
    have heager' : f.isSet .recomputeEagerly = true := by simp_all
    exact Ends.bind ((h.saturated_recomputePendingBy (hsat heager')).mono (fun _ _ _ => trivial) fun _ _ he => he)
  next => trivial

end Settling

section Rejection

/-- If no cache lacks anything but the node, where it is accepted, then none lacks anything once the node is taken in. -/
theorem Attaching.saturated (hg : Attaching n f g) (haccepting : ∀ id ∈ f.registry.accepting f.tree n, g.registry.Caches id n)
    (hfull : f.cacheRefresh = .fromScratch → ∀ id m, f.Finds id m →
      f.registry.Caches id m ∨ m = n ∧ id ∈ f.registry.accepting f.tree n) : Saturated g := by
  intro hmode id m hfinds
  rw [hg.beside.cacheRefresh] at hmode
  cases hb : f.registry.get? id with
  | none => exact hg.complete id m hb hfinds
  | some b =>
    have hid : (f.registry.get? id).isSome := by
      rw [hb]
      rfl
    rw [finds_of_bound (hg.apart.bound?_eq hid) hg.apart.blank] at hfinds
    rcases hfull hmode id m hfinds with hc | ⟨rfl, hmem⟩
    · by_cases hmn : m = n
      · subst hmn
        exact hg.kept id hfinds hc
      · exact (hg.apart.caches id m hid hmn).2 hc
    · exact haccepting id hmem

/-- If a formula is rejected, its node leaves no trace, provided that it was not known to the graph before, or that no
circle is at fault. A node that was there leaves the graph with the formula, if that closes a circle. The bindings that
the formula shares with others must be up to date but for the node. If all that changes is followed up at once, and
selectors are matched with the whole tree again for that, no cache must lack anything else, either. -/
theorem traceless_of_registration_failed (h : Consistent f) (hn : f.graph.formula? n = none)
    (hshared : ∀ id, f.Shares n text id → ∀ m, m ≠ n → (f.registry.Caches id m ↔ f.Finds id m))
    (heager : f.isSet .recomputeEagerly = true → f.cacheRefresh = .fromScratch → ∀ id m, f.Finds id m →
      f.registry.Caches id m ∨ m = n ∧ id ∈ f.registry.accepting f.tree n) {e : FormError}
    (hfailed : register n (some text) f = .error e g) :
    (f.graph.contains n = false ∨ (∀ paths, e ≠ .cycle paths) → Traceless f g) ∧
      ((∃ paths, e = .cycle paths) → Traceless (f.detach n) g) := by
  have hattach := h.attaching hn (some text) fun _ ht => Option.some.inj ht ▸ hshared
  -- Following up what is pending does not fail, so the node was not taken into the graph.
  have hrepelled : Ends (register n (some text) f) (fun _ _ => True) (Repelled n f) := by
    unfold register whenUpdating
    split
    · refine Ends.bind (hattach.mono ?_ fun _ _ he => he)
      rintro _ g ⟨hg, haccepting⟩
      refine (hg.consistent.saturated_settle fun hset => hg.saturated haccepting (heager ?_)).mono
        (fun _ _ _ => trivial) fun _ _ he => he.elim
      rwa [isSet, hg.beside.schedule] at hset
    · trivial
  obtain ⟨hreason, htraceless⟩ | ⟨hcycle, htree, f', hapart, hdet⟩ := hrepelled.of_error hfailed
  · refine ⟨fun _ => htraceless, ?_⟩
    rintro ⟨paths, he⟩
    exact absurd he (hreason paths)
  · obtain ⟨-, hleft⟩ := h.detach n
    obtain ⟨hvertices, hbindings⟩ := hapart.same_detached hleft hdet
    refine ⟨fun hunless => ?_, fun _ => ⟨?_, hvertices, hbindings⟩⟩
    · have habsent : f.graph.get? n = none := by
        have hcontains := hunless.resolve_right fun hnot => hcycle.elim hnot
        simpa [Graph.contains_eq] using hcontains
      have hstays : f.detach n = f := by
        unfold Form.detach
        rw [habsent]
      rw [hstays] at hvertices hbindings
      exact ⟨by rw [htree]; rfl, hvertices, hbindings⟩
    · rw [htree, hleft.beside.tree]
      rfl

/-- A field is to read another one, which has been added to the tree but is not registered yet. -/
def awaited (s : Settings) : Form :=
  Call.runAll [.edit (.insert 0 (.name "b") .field), .register 1 (some "ref /a"), .edit (.insert 0 (.name "a") .field)]
    (ofSettings s)

theorem awaited_consistent (s : Settings) : Consistent (awaited s) :=
  ((Drivable.ofSettings s).runAll _).consistent

/-- There is one binding. -/
theorem eq_of_mem_awaited (hid : ((awaited {}).registry.get? id).isSome) : id = ⟨0, 0⟩ := by
  have hids : (awaited {}).registry.bindings.keys = [⟨0, 0⟩] := by cbv
  have hmem : id ∈ (awaited {}).registry.bindings.keys := by
    rw [Std.ExtTreeMap.mem_keys, ← Std.ExtTreeMap.isSome_getElem?_iff_mem]
    exact hid
  rwa [hids, List.mem_singleton] at hmem

/-- If the field that is awaited is to read the one that awaits it, it leaves no trace. -/
theorem traceless_registration_of_awaited :
    ∃ e g, register 2 (some "ref /b") (awaited {}) = .error e g ∧ Traceless (awaited {}) g := by
  have hfails : (failure? (register 2 (some "ref /b") (awaited {}))).isSome = true := by cbv
  obtain ⟨⟨e, g⟩, hrun⟩ := Option.isSome_iff_exists.1 hfails
  have hfailed := failure?_eq_some.1 hrun
  have hnew : ((Formula.parse (awaited {}).tree 2 "ref /b").run' (awaited {}).registry).map Formula.bindings =
      some [⟨1, 1⟩] := by cbv
  refine ⟨e, g, hfailed, (traceless_of_registration_failed (awaited_consistent {}) (by cbv) (fun id hshares => ?_)
    (fun _ hmode => ?_) hfailed).1 (.inl (by cbv))⟩
  · obtain ⟨hid, F, r, hparse, hmem⟩ := hshares
    rw [EStateM.run', EStateM.run, hparse] at hnew
    rw [eq_of_mem_awaited hid, show F.bindings = [⟨1, 1⟩] from Option.some.inj hnew, List.mem_singleton] at hmem
    cases hmem
  · have hincremental : (awaited {}).cacheRefresh = .incremental := by cbv
    rw [hincremental] at hmode
    cases hmode

/-- If it has been registered before, without a formula, then it is no longer known to the graph afterwards. -/
theorem forgotten_by_registration :
    let f := after (register 2 none) (awaited {})
    f.graph.contains 2 = true ∧ (f.graph.formula? 2).isNone = true ∧
      (failure? (register 2 (some "ref /b") f)).map Prod.fst = some (.cycle [⟨[.name "a"]⟩, ⟨[.name "b"]⟩, ⟨[.name "a"]⟩]) ∧
      (after (register 2 (some "ref /b")) f).graph.contains 2 = false := by
  refine ⟨?_, ?_, ?_, ?_⟩ <;> cbv

end Rejection

section Recall

/-- Levels and what is pending do not matter, nor do the values of formulas. -/
theorem ApartFrom.congr (h : ApartFrom n f g) (hblank : g'.tree.blank = g.tree.blank) (hregistry : g'.registry = g.registry)
    (hvertices : g'.graph.vertices = g.graph.vertices) : ApartFrom n f g' where
  blank := hblank.trans h.blank
  formula x hx := by
    rw [← h.formula x hx, Graph.formula?, Graph.get?, hvertices, Graph.formula?, Graph.get?]
  bound := by
    rw [hregistry]
    exact h.bound
  caches := by
    rw [hregistry]
    exact h.caches

/-- Bringing the caches up to date leaves them as they are, apart from one node. -/
def Still (n : NodeId) (f : Form) : Prop :=
  ∀ id m, m ≠ n → (f.cacheRefresh = .fromScratch → (f.registry.Caches id m ↔ f.Finds id m)) ∧
    (f.cacheRefresh = .incremental → f.registry.Caches id m → id ∈ f.registry.accepting f.tree m)

/-- A cache that is brought up to date in the meantime does not change apart from the node. -/
theorem ApartFrom.syncBy (h : ApartFrom n f g) (hg : Consistent g) (hstill : Still n f) (hbeside : SameBeside f g)
    (id : BindingId) : Ends (syncBy order f.cacheRefresh id g)
      (fun _ g' => ApartFrom n f g' ∧ Consistent g' ∧ SameBeside f g') (fun _ _ => True) := by
  cases hb : g.registry.get? id with
  | none =>
    rw [syncBy_of_none hb]
    exact ⟨h, hg, hbeside⟩
  | some b =>
    refine (hg.coherent.syncBy_spec hb order).mono ?_ fun _ _ _ => trivial
    rintro _ g' ⟨hco, hsync, hcaches⟩
    refine ⟨h.synced hsync fun hid m hm => ?_, hg.relinked hco hsync.acyclic_all hsync.levels,
      hbeside.trans hsync.relinked.beside⟩
    obtain ⟨hscratch, hincremental⟩ := hstill id m hm
    rw [hcaches]
    cases hmode : f.cacheRefresh with
    | fromScratch =>
      rw [mem_fresh_iff_finds hb, hscratch hmode]
      exact finds_of_bound (h.bound?_eq hid) h.blank
    | incremental =>
      rw [mem_fresh_incremental hb, h.caches id m hid hm]
      refine and_iff_left_of_imp fun hc => ?_
      obtain ⟨b₀, hb₀⟩ := Option.isSome_iff_exists.1 hid
      have hd : f.registry.bound? id = some b₀.bound := by rw [Registry.bound?, hb₀, Option.map_some]
      exact mem_accepting_of_bound hd (h.bound id _ hd) h.blank (hincremental hmode hc)

/-- Nor does it change when what is pending is followed up. -/
theorem ApartFrom.settle (h : ApartFrom n f g) (hg : Consistent g) (hbeside : SameBeside f g)
    (hstill : f.isSet .recomputeEagerly = true → Still n f) : Ends (Form.settle g)
      (fun _ g' => ApartFrom n f g' ∧ Consistent g' ∧ g'.schedule = f.schedule ∧ g'.cacheRefresh = f.cacheRefresh)
      (fun _ _ => True) := by
  have hapart : ApartFrom n f g.clearPending := h.congr rfl rfl rfl
  have hcons : Consistent g.clearPending := hg.congr rfl rfl hg.levels
  unfold Form.settle
  split
  next heager =>
    have heager' : f.isSet .recomputeEagerly = true := by
      rw [isSet, ← hbeside.schedule]
      exact (Bool.and_eq_true_iff.1 heager).1
    refine Ends.bind ?_
    unfold Form.recomputePending Form.recomputePendingBy
    split
    · exact ⟨hapart, hcons, hbeside.schedule, hbeside.cacheRefresh⟩
    next =>
      dsimp only
      have hsync : Ends ((VisitOrder.ascending.bindings (g.bindingsUsed (g.affected g.seeds)).toList).forM
          (Form.syncBy .ascending g.cacheRefresh) g.clearPending)
          (fun _ g' => ApartFrom n f g' ∧ Consistent g' ∧ SameBeside f g') (fun _ _ => True) := by
        rw [hbeside.cacheRefresh]
        refine Ends.forM (I := fun _ g' => ApartFrom n f g' ∧ Consistent g' ∧ SameBeside f g') ?_
          ⟨hapart, hcons, hbeside.tree, hbeside.schedule, hbeside.stopAtOverride, hbeside.cacheRefresh⟩
        rintro a rest g' ⟨hapart', hcons', hbeside'⟩
        exact hapart'.syncBy hcons' (hstill heager') hbeside' a
      split
      next => trivial
      next g' hrun =>
        obtain ⟨hapart', hcons', hbeside'⟩ := hsync.of_ok hrun
        obtain ⟨levels, report, g'', hlevels, hrun', hreported, -⟩ :=
          hcons'.evaluateAffected .ascending (g.affected g.seeds)
        rw [hrun']
        have hsame := hreported.valued.same
        refine ⟨hapart'.congr hreported.valued.blank ?_ ?_, (hcons'.leveled hlevels).congr ?_ ?_ ?_, ?_, ?_⟩
        all_goals rw [hsame]
        · rfl
        · rfl
        · rfl
        · rfl
        · exact (hcons'.leveled hlevels).levels
        · exact hbeside'.schedule
        · exact hbeside'.cacheRefresh
  next => exact ⟨h, hg, hbeside.schedule, hbeside.cacheRefresh⟩

/-- If no cache would change, following up what is pending changes nothing but values. -/
theorem Consistent.still_settle (h : Consistent f) (hstill : f.isSet .recomputeEagerly = true →
    ∀ id b, f.registry.get? id = some b → ∀ m, m ∈ b.fresh f.tree f.cacheRefresh ↔ m ∈ b.cache) :
    ∃ g, Form.settle f = .ok () g ∧ g.graph.vertices = f.graph.vertices ∧ g.registry = f.registry := by
  unfold Form.settle
  split
  next heager =>
    have heager' : f.isSet .recomputeEagerly = true := (Bool.and_eq_true_iff.1 heager).1
    have hsync (id : BindingId) : syncBy .ascending f.cacheRefresh id f.clearPending = .ok () f.clearPending := by
      cases hb : f.registry.get? id with
      | none => exact syncBy_of_none (f := f.clearPending) hb _
      | some b => exact syncBy_of_current (f := f.clearPending) hb _ (hstill heager' id b hb)
    obtain ⟨f₀, report, g, hrun, hclear, hreported, -⟩ := h.recomputePendingBy_of_current .ascending hsync
    have hsame := hreported.valued.same
    refine ⟨g, bind_of_ok hrun, ?_, ?_⟩
    · rw [hsame]
      exact hclear.vertices
    · rw [hsame]
      exact hclear.registry
  next => exact ⟨f, rfl, rfl, rfl⟩

/-- A graph that does not know a node still does not know it when it is as before. -/
theorem Consistent.unknown (h : Consistent f) (hn : f.graph.contains n = false) (hcaches : ∀ id, ¬ f.registry.Caches id n)
    (hvertices : g.graph.vertices = f.graph.vertices) (hbindings : ∀ id, g.registry.get? id = f.registry.get? id) :
    g.graph.contains n = false ∧ (∀ id, ¬ g.registry.Caches id n) ∧ ∀ x, n ∉ g.graph.predecessors x := by
  refine ⟨?_, fun id => ?_, fun x hx => ?_⟩
  · rw [Graph.contains_eq, Graph.get?, hvertices, ← Graph.get?, ← Graph.contains_eq]
    exact hn
  · rw [Registry.Caches, hbindings]
    exact hcaches id
  · rw [Graph.predecessors, Graph.get?, hvertices] at hx
    obtain ⟨id, hc, -⟩ := (h.coherent.reads x not_false n).1 hx
    exact hcaches id hc

section Undoing

variable (h : Consistent f) (hn : f.graph.contains n = false)
  (hcaches : ∀ id m, f.registry.Caches id m ↔ f.Finds id m ∧ m ≠ n)
  (hscratch : f.isSet .recomputeEagerly = true → f.cacheRefresh = .fromScratch → ∀ id, ¬ f.Finds id n)
  (hincremental : f.isSet .recomputeEagerly = true → f.cacheRefresh = .incremental →
    ∀ id m, f.registry.Caches id m → id ∈ f.registry.accepting f.tree m)

include hcaches hscratch hincremental in
/-- Where bindings and tree are as before, the caches stay as they were when they are brought up to date. -/
theorem mem_fresh_iff_caches (heager : f.isSet .recomputeEagerly = true) {b : Binding} (hb : g.registry.get? id = some b)
    (hbinding : f.registry.get? id = some b) (hblank : g.tree.blank = f.tree.blank) :
    m ∈ b.fresh g.tree f.cacheRefresh ↔ f.registry.Caches id m := by
  have hbound : g.registry.bound? id = f.registry.bound? id := by
    rw [Registry.bound?, hb, Registry.bound?, hbinding]
  cases hmode : f.cacheRefresh with
  | fromScratch =>
    rw [mem_fresh_iff_finds hb, finds_of_bound hbound hblank, hcaches]
    refine (and_iff_left_of_imp fun hfinds => ?_).symm
    rintro rfl
    exact hscratch heager hmode id hfinds
  | incremental =>
    rw [mem_fresh_incremental hb, Registry.Caches, hb, ← hbinding, ← Registry.Caches]
    refine and_iff_left_of_imp fun hc => ?_
    have hd : f.registry.bound? id = some b.bound := by rw [Registry.bound?, hbinding, Option.map_some]
    exact mem_accepting_of_bound hd (hbound.trans hd) hblank (hincremental heager hmode id m hc)

include h hn hcaches hscratch hincremental in
/-- Taking the node back leaves what there was, and following that up changes nothing. -/
theorem ApartFrom.unregister (hapart : ApartFrom n f g) (hg : Consistent g) (hupdating : f.isSet .updateGraph = true)
    (hschedule : g.schedule = f.schedule) (hrefresh : g.cacheRefresh = f.cacheRefresh) :
    ∃ g', unregister n g = .ok () g' ∧ g'.graph.vertices = f.graph.vertices ∧
      ∀ id, g'.registry.get? id = f.registry.get? id := by
  have habsent : f.graph.get? n = none := by simpa [Graph.contains_eq] using hn
  obtain ⟨hcons, hdet⟩ := hg.detach n
  obtain ⟨hvertices, hbindings⟩ :=
    hapart.same_detached (h.coherent.detached_of_absent (fun _ hx => hx.elim) habsent) hdet
  obtain ⟨g', hrun, hvertices', hregistry'⟩ := hcons.still_settle fun heager id b hb m => by
    have heager' : f.isSet .recomputeEagerly = true := by
      rw [isSet, ← hschedule, ← hdet.beside.schedule]
      exact heager
    have hbinding : f.registry.get? id = some b := by rw [← hbindings, hb]
    rw [hdet.beside.cacheRefresh, hrefresh, mem_fresh_iff_caches hcaches hscratch hincremental heager' hb hbinding
      (by rw [hdet.beside.tree, hapart.blank]), Registry.Caches, hbinding]
    simp
  have hcondition : g.isSet .updateGraph = true := by rwa [isSet, hschedule]
  refine ⟨g', ?_, hvertices'.trans hvertices, fun id => by rw [hregistry', hbindings]⟩
  unfold Form.unregister whenUpdating
  rw [if_pos hcondition]
  exact hrun

end Undoing

/-- A node that was not known to the graph can be registered and taken back, and then all is as it was before, if the
caches were up to date but for the node. If all that changes is followed up at once, the caches must stay as they are in
doing so while the node is still in the tree: selectors that are matched with the whole tree again must not find the node,
and otherwise each binding must accept what it stands for. -/
theorem recalled_by_unregister (h : Consistent f) (hn : f.graph.contains n = false)
    (hcaches : ∀ id m, f.registry.Caches id m ↔ f.Finds id m ∧ m ≠ n)
    (hscratch : f.isSet .recomputeEagerly = true → f.cacheRefresh = .fromScratch → ∀ id, ¬ f.Finds id n)
    (hincremental : f.isSet .recomputeEagerly = true → f.cacheRefresh = .incremental →
      ∀ id m, f.registry.Caches id m → id ∈ f.registry.accepting f.tree m) {e : Option String}
    (hok : register n e f = .ok () g) : ∃ g', unregister n g = .ok () g' ∧
      g'.graph.vertices = f.graph.vertices ∧ (∀ id, g'.registry.get? id = f.registry.get? id) ∧
      g'.graph.contains n = false ∧ (∀ id, ¬ g'.registry.Caches id n) ∧ ∀ x, n ∉ g'.graph.predecessors x := by
  suffices hback : ∃ g', unregister n g = .ok () g' ∧ g'.graph.vertices = f.graph.vertices ∧
      ∀ id, g'.registry.get? id = f.registry.get? id by
    obtain ⟨g', hrun, hvertices, hbindings⟩ := hback
    exact ⟨g', hrun, hvertices, hbindings,
      h.unknown hn (fun id hc => ((hcaches id n).1 hc).2 rfl) hvertices hbindings⟩
  have hnone : f.graph.formula? n = none := by
    have habsent : f.graph.get? n = none := by simpa [Graph.contains_eq] using hn
    rw [Graph.formula?, habsent, Option.bind_none]
  unfold register whenUpdating at hok
  by_cases hupdating : f.isSet .updateGraph = true
  · rw [if_pos hupdating] at hok
    -- Registering has left all as it was apart from the node.
    have hapart (id : BindingId) (m : NodeId) (hm : m ≠ n) : f.registry.Caches id m ↔ f.Finds id m := by
      rw [hcaches, and_iff_left hm]
    have hstill (heager : f.isSet .recomputeEagerly = true) : Still n f := fun id m hm =>
      ⟨fun _ => hapart id m hm, fun hmode hc => hincremental heager hmode id m hc⟩
    have hregistered := Ends.bind ((h.attaching hnone e fun _ _ id _ => hapart id).mono
      (fun _ f₁ hf₁ => hf₁.1.apart.settle hf₁.1.consistent hf₁.1.beside hstill) fun _ _ _ => trivial)
    obtain ⟨hg, hcons, hschedule, hrefresh⟩ := hregistered.of_ok hok
    exact hg.unregister h hn hcaches hscratch hincremental hcons hupdating hschedule hrefresh
  · rw [if_neg hupdating] at hok
    cases hok
    refine ⟨f, ?_, rfl, fun _ => rfl⟩
    unfold unregister whenUpdating
    rw [if_neg hupdating]

/-- The field that is awaited can be registered and taken back. -/
theorem recalled_from_awaited : ∃ g g', register 2 (some "ref /c") (awaited {}) = .ok () g ∧ unregister 2 g = .ok () g' ∧
    g'.graph.vertices = (awaited {}).graph.vertices ∧ ∀ id, g'.registry.get? id = (awaited {}).registry.get? id := by
  have hruns : succeeds (register 2 (some "ref /c") (awaited {})) = true := by cbv
  have hincremental : (awaited {}).cacheRefresh = .incremental := by cbv
  have hbinding : ((awaited {}).registry.get? ⟨0, 0⟩).map
      (fun b => (b.cache.toList, b.selector.fieldsBelow (awaited {}).tree b.base)) = some ([], [2]) := by cbv
  obtain ⟨b, hb, hcontents⟩ := Option.map_eq_some_iff.1 hbinding
  obtain ⟨hcache, hfields⟩ := Prod.mk.inj hcontents
  have hempty (id : BindingId) (m : NodeId) : ¬ (awaited {}).registry.Caches id m := by
    rintro ⟨b', hb', hm⟩
    have hid := eq_of_mem_awaited (by rw [hb']; rfl)
    subst hid
    obtain rfl := Option.some.inj (hb.symm.trans hb')
    rw [← Std.ExtTreeSet.mem_toList, hcache] at hm
    cases hm
  have honly {id : BindingId} {m : NodeId} (hfinds : (awaited {}).Finds id m) : m = 2 := by
    have hid := eq_of_mem_awaited hfinds.isSome
    subst hid
    obtain ⟨d, hd, hmem⟩ := hfinds
    rw [Registry.bound?, hb, Option.map_some, Option.some.injEq] at hd
    subst hd
    rwa [show b.bound.selector.fieldsBelow (awaited {}).tree b.bound.base = [2] from hfields, List.mem_singleton] at hmem
  cases hrun : register 2 (some "ref /c") (awaited {}) with
  | error e g =>
    rw [hrun] at hruns
    cases hruns
  | ok _ g =>
    obtain ⟨g', hback, hvertices, hbindings, -⟩ := recalled_by_unregister (awaited_consistent {}) (by cbv)
      (fun id m => iff_of_false (hempty id m) fun hfinds => hfinds.2 (honly hfinds.1))
      (fun _ hmode => absurd (hincremental.symm.trans hmode) (by decide)) (fun _ _ id m hc => absurd hc (hempty id m)) hrun
    exact ⟨g, g', rfl, hback, hvertices, hbindings⟩

/-- If selectors are matched with the whole tree again, the field comes back at once. -/
theorem back_after_unregister :
    let f := awaited { cacheRefresh := .fromScratch }
    f.graph.contains 2 = false ∧ succeeds (register 2 none f) = true ∧
      succeeds (unregister 2 (after (register 2 none) f)) = true ∧
      (after (unregister 2) (after (register 2 none) f)).graph.contains 2 = true := by
  refine ⟨?_, ?_, ?_, ?_⟩ <;> cbv

end Recall

end Form

end LiveForm
