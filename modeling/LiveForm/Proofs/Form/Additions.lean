import LiveForm.Proofs.Form.Subtrees

/-!
# Adding nodes

What the edits do that add nodes, up to the recomputation at their end. If one of them is refused, the tree and the
graph are as they were, with an exception that concerns a key which an element of an array has already.
-/

set_option autoImplicit false

namespace LiveForm.Form

variable {f f' f'' g : Form} {new : NodeId → Prop} {id parent : NodeId} {key : Step} {t' : FieldTree}

/-- No nodes are new. -/
abbrev Settled (f : Form) : Prop :=
  Upkept (fun _ => False) f

/-- Once the graph follows the tree, no formula of the tree depends on itself. -/
theorem Settled.tree_acyclic (h : Settled f) : f.tree.Acyclic :=
  h.current.follows.acyclic_iff.1 h.acyclic

/-- An edit was refused, and its traces have been removed. Handles that it has used stay used. -/
structure Undone (f g : Form) : Prop where
  tree : g.tree = { f.tree with next := g.tree.next }
  next : f.tree.next ≤ g.tree.next
  keeps : Keeps f g

theorem Undone.refl (f : Form) : Undone f f :=
  ⟨rfl, Nat.le_refl _, .refl f⟩

theorem Undone.place? (h : Undone f g) (x : NodeId) : g.tree.place? x = f.tree.place? x := by
  rw [h.tree]
  rfl

section Subtree

variable {node : Node} {children : Forest} {created : List NodeId}

/-- Nothing is known of handles that have not been used. -/
theorem Settled.unknown (h : Settled f) {x : NodeId} (hx : f.tree.next ≤ x) :
    f.graph.formula? x = none ∧ ∀ i, ¬ f.registry.Caches i x := by
  have hnone : f.tree.place? x = none := FieldTree.place?_next h.current.tree hx
  constructor
  · cases hF : f.graph.formula? x with
    | none => rfl
    | some F =>
      obtain ⟨q, hq, -⟩ := h.current.place?_of_formula? hF
      simp [hnone] at hq
  · intro i hc
    obtain ⟨q, hq, -⟩ := h.current.place?_of_caches hc
    simp [hnone] at hq

/-- A new subtree, in which the graph may lag behind, is discarded. -/
theorem Settled.discardAdded (h : Settled f)
    (hgraft : FieldTree.Grafts f.tree parent (.cons id key node children .nil) t')
    (hbound : ∀ x ∈ created, f.tree.next ≤ x) (hup : Upkept (fun x => x ∈ created) g) (hquiet : g.Quiet)
    (htree : g.tree = t') (hadv : Advance f g) (hkeeps : Keeps f g) : Ends (discardSubtree id g)
      (fun _ g' => Settled g' ∧ Undone f g' ∧ Advance f g') (fun _ _ => False) := by
  have hwf := h.current.tree
  obtain ⟨p, hp⟩ := hgraft.placed
  have hid : id ≠ rootId :=
    Nat.ne_of_gt (Nat.lt_of_lt_of_le hwf.next_pos (hgraft.fresh id (by simp [Forest.ids])))
  have hplaced : (g.tree.place? id).isSome := by
    rw [htree, hgraft.place?_root hwf hp]
    rfl
  refine (hup.discardSubtree hquiet hid hplaced).mono ?_ fun _ _ he => he
  rintro _ g' ⟨hup', htree', hadv', hkeep⟩
  have hback : g'.tree = { f.tree with next := t'.next } := by
    rw [htree', htree, hgraft.without hwf]
  refine ⟨hup'.drop fun x q hx _ hq => ?_, ⟨by rw [hback], ?_, ?_⟩, hadv.trans hwf hadv'⟩
  · have hq' : f.tree.place? x = some q := by rwa [hback] at hq
    rw [FieldTree.place?_next hwf (hbound x hx.1)] at hq'
    simp at hq'
  · rw [hback]
    exact hgraft.next
  · refine hkeep f h.coherent (fun x hx => ?_) hkeeps
    rw [htree, hgraft.within_iff hwf] at hx
    exact (h.unknown (hgraft.fresh x hx)).1

/-- A new subtree is reported, or else discarded. -/
theorem Settled.nodesAdded (h : Settled f) (hquiet : f.Quiet)
    (hgraft : FieldTree.Grafts f.tree parent (.cons id key node children .nil) t')
    (hhead : created.head? = some id)
    (hcreated : ∀ x ∈ (Forest.cons id key node children .nil).ids, x ∈ created) (hnodup : created.Nodup)
    (hbound : ∀ x ∈ created, f.tree.next ≤ x) : Ends (nodesAdded created (f.withTree t'))
      (fun _ g => Settled g ∧ g.tree = t' ∧ Advance f g ∧ Keeps f g)
      (fun e g => Settled g ∧ Undone f g ∧ Advance f g ∧ t'.Explains e) := by
  have hwf := h.current.tree
  have hcarries := advance_withTree (f := f) (hgraft.carries hwf)
  have hkeeps : Keeps f (f.withTree t') := ⟨fun _ _ hF => hF, fun _ _ hd => hd⟩
  have hreport := (h.grow hgraft).reportAll (hcarries.quiet hquiet)
    (fun x hx => hcreated x (hx.resolve_left not_false)) hnodup
    fun x hx => (h.unknown (hbound x hx)).1
  have htake : created.take 1 = [id] := by
    cases created with
    | nil => simp at hhead
    | cons a rest => simpa using hhead
  unfold Form.nodesAdded
  cases hloop : created.forM Form.nodeAdded (f.withTree t') with
  | ok _ g =>
    obtain ⟨hup, hprog⟩ := hreport.of_ok hloop
    exact ⟨hup, hprog.beside.tree, hcarries.trans hwf hprog.advance, hkeeps.trans hprog.keeps⟩
  | error e g =>
    obtain ⟨hup, hprog, herror⟩ := hreport.of_error hloop
    have hadv : Advance f g := hcarries.trans hwf hprog.advance
    have hdiscard : Ends ([id].forM Form.discardSubtree g)
        (fun _ g' => Settled g' ∧ Undone f g' ∧ Advance f g') (fun _ _ => False) := by
      refine Ends.bind ((h.discardAdded hgraft hbound hup (hadv.quiet hquiet) hprog.beside.tree hadv
        (hkeeps.trans hprog.keeps)).mono ?_ fun _ _ he => he)
      exact fun _ _ hback => Ends.pure hback
    dsimp only
    rw [htake]
    cases hend : [id].forM Form.discardSubtree g with
    | ok _ g' =>
      obtain ⟨hset, hundone, hadv'⟩ := hdiscard.of_ok hend
      exact ⟨hset, hundone, hadv', herror⟩
    | error e' g' => exact (hdiscard.of_error hend).elim

/-- What adding a copy of a subtree does. -/
theorem Settled.copyAdded (h : Settled f) (hquiet : f.Quiet) {source : NodeId}
    (hcopy : f.tree.copySubtree source parent key = .ok (created, t')) :
    ∃ l, f.tree.locate? source = some l ∧ created.head? = some f.tree.next ∧
      FieldTree.Grafts f.tree parent (f.tree.copied l key) t' ∧
      Ends (Form.nodesAdded created (f.withTree t'))
        (fun _ g => Settled g ∧ g.tree = t' ∧ Advance f g ∧ Keeps f g)
        (fun e g => Settled g ∧ Undone f g ∧ Advance f g ∧ t'.Explains e) := by
  obtain ⟨l, hl, hhead, hgraft, hcreated, hnodup, hbound⟩ :=
    FieldTree.copySubtree_ok h.current.tree hcopy
  exact ⟨l, hl, hhead, hgraft, h.nodesAdded hquiet hgraft hhead hcreated hnodup hbound⟩

end Subtree

section NewNode

variable {kind : Kind} {formula : Option String}

/-- Below a new node, there is at most its template, and a template is not a field. -/
theorem inTemplate_of_newNode {t t' : FieldTree} (hwf : t.WellFormed)
    (hgraft : FieldTree.Grafts t parent (FieldTree.newNode t.next key kind formula) t') {x : NodeId} {q : Place}
    (hx : x ∈ (FieldTree.newNode t.next key kind formula).ids) (hne : x ≠ t.next) (hq : t'.place? x = some q) :
    q.inTemplate = true ∧ q.node.kind ≠ .field := by
  obtain ⟨p, hp⟩ := hgraft.placed
  rw [hgraft.place? hwf hp, if_pos hx] at hq
  obtain ⟨s, hs, rfl⟩ := Option.map_eq_some_iff.1 hq
  rw [FieldTree.newNode, Forest.spot?, if_neg (Ne.symm hne)] at hs
  split at hs
  · simp only [Forest.spot?, Option.or_none] at hs
    split at hs
    · simp only [Option.map_some, Option.some.injEq] at hs
      subst hs
      simp [Spot.place, Spot.beneath]
    · simp at hs
  · simp [Forest.spot?] at hs

/-- Dropping a node removes it from the tree. -/
theorem dropSubtree_eq (hid : id ≠ rootId) (hplaced : (f.tree.place? id).isSome) :
    f.dropSubtree id = f.withTree (f.tree.without id) := by
  have hremove : f.tree.removeSubtree id = .ok (f.tree.postorderFrom id, f.tree.without id) := by
    rw [FieldTree.removeSubtree_eq, if_neg hid, FieldTree.contains_eq, if_pos hplaced]
  unfold Form.dropSubtree
  rw [hremove]
  rfl

/-- A new node is reported, or else removed again. -/
theorem Settled.reportNew (h : Settled f) (hquiet : f.Quiet)
    (hgraft : FieldTree.Grafts f.tree parent (FieldTree.newNode f.tree.next key kind formula) t') :
    Ends (FormM.orUndo (nodeAdded f.tree.next) (·.dropSubtree f.tree.next) (f.withTree t'))
      (fun _ g => Settled g ∧ g.tree = t' ∧ Advance f g ∧ Keeps f g)
      (fun e g => Settled g ∧ Undone f g ∧ Advance f g ∧ t'.Explains e) := by
  have hwf := h.current.tree
  have hcarries := advance_withTree (f := f) (hgraft.carries hwf)
  have hkeeps : Keeps f (f.withTree t') := ⟨fun _ _ hF => hF, fun _ _ hd => hd⟩
  obtain ⟨p, hp⟩ := hgraft.placed
  have hroot := hgraft.place?_root hwf hp
  have hids : f.tree.next ∈ (FieldTree.newNode f.tree.next key kind formula).ids := by
    simp [FieldTree.newNode, Forest.ids]
  have hid : f.tree.next ≠ rootId := Nat.ne_of_gt hwf.next_pos
  refine FormM.ends_orUndo (((h.grow hgraft).nodeAdded (hcarries.quiet hquiet) (.inr hids)
    (h.unknown (Nat.le_refl _)).1).mono ?_ ?_)
  · rintro _ g ⟨hup, hprog, -⟩
    refine ⟨hup.drop fun x q hx _ hq => .inl ?_, hprog.beside.tree, hcarries.trans hwf hprog.advance,
      hkeeps.trans hprog.keeps⟩
    rw [hprog.beside.tree] at hq
    exact (inTemplate_of_newNode hwf hgraft (hx.1.resolve_left not_false) hx.2 hq).1
  · rintro e g ⟨hup, hprog, hrej⟩
    have ht : g.tree = t' := hprog.beside.tree
    have hdrop := dropSubtree_eq (f := g) hid (by rw [ht, hroot]; rfl)
    have hwithin (x : NodeId) : g.tree.Within f.tree.next x ↔
        x ∈ (FieldTree.newNode f.tree.next key kind formula).ids := by
      rw [ht]
      exact hgraft.within_iff hwf
    have hcut := hup.cut hid (fun x hx => ?_) fun x hx i hc => ?_
    · have hnext : g.tree.without f.tree.next = { f.tree with next := t'.next } := by
        rw [ht, FieldTree.Grafts.without hgraft hwf]
      have hadv := hcarries.trans hwf (hprog.advance.trans (hgraft.wellFormed hwf)
        (advance_withTree (FieldTree.carries_without hup.current.tree hid)))
      have hk := hkeeps.trans hprog.keeps
      rw [hdrop]
      refine ⟨hcut.mono fun x hx => ?_, ⟨?_, ?_, ⟨hk.formula, hk.bound⟩⟩, hadv, hrej.error⟩
      · exact hx.2 ((hwithin x).2 (hx.1.resolve_left not_false))
      · simp only [withTree, hnext]
      · show f.tree.next ≤ (g.tree.without f.tree.next).next
        rw [hnext]
        exact hgraft.next
    · rw [hrej.formula]
      exact (h.unknown (hgraft.fresh x ((hwithin x).1 hx))).1
    · have hx' := (hwithin x).1 hx
      by_cases hxn : x = f.tree.next
      · subst hxn
        exact (h.unknown (Nat.le_refl _)).2 i (hrej.caches i hc)
      · obtain ⟨q, hq, -, hkind⟩ := hup.current.place?_of_caches hc
        rw [ht] at hq
        exact (inTemplate_of_newNode hwf hgraft hx' hxn hq).2 hkind

/-- Why a node cannot be added under another one: only fields have formulas, the parent cannot have a child with the key, or
something is wrong with the formulas once the node is there. -/
inductive Refuses (t : FieldTree) (parent : NodeId) (key : Step) (kind : Kind) (formula : Option String) :
    FormError → Prop
  | off (h : ¬ (formula.isSome → kind = .field)) :
      Refuses t parent key kind formula (.invalidPath ((t.path parent).child key).render .formulaOffField)
  | clash {e : FormError} (h : t.checkInsert parent key = .error e) : Refuses t parent key kind formula e
  | fault {e : FormError} (hformula : formula.isSome → kind = .field) (hcheck : t.checkInsert parent key = .ok ())
      (h : (t.withNew parent key kind formula).Explains e) : Refuses t parent key kind formula e

theorem Refuses.explains {t : FieldTree} {e : FormError} (h : Refuses t parent key kind formula e)
    (hcheck : t.checkInsert parent key = .ok ()) (hformula : formula.isSome → kind = .field) :
    (t.withNew parent key kind formula).Explains e := by
  cases h with
  | off hoff => exact absurd hformula hoff
  | clash hclash => simp [hcheck] at hclash
  | fault _ _ h => exact h

theorem Refuses.path_eq {t : FieldTree} {path : Path} {key' : Step}
    (h : Refuses t parent key kind formula (.duplicateKey path key')) : path = t.path parent := by
  cases h with
  | clash hclash => exact FieldTree.path_of_checkInsert hclash
  | fault _ _ h => exact absurd rfl (h.ne_duplicateKey path key')

/-- If a circle is the reason, nothing else is. -/
theorem Refuses.of_cycle {t : FieldTree} {paths : List Path} (h : Refuses t parent key kind formula (.cycle paths)) :
    (formula.isSome → kind = .field) ∧ t.checkInsert parent key = .ok () ∧
      (t.withNew parent key kind formula).Explains (.cycle paths) := by
  cases h with
  | clash hclash => exact absurd rfl (FieldTree.ne_cycle_of_checkInsert hclash paths)
  | fault hformula hcheck h => exact ⟨hformula, hcheck, h⟩

/-- Adding a single node comes to reporting it, once the tree has it. -/
theorem ends_insertNode {ok : NodeId → Form → Prop} {failed : FormError → Form → Prop} (hwf : f.tree.WellFormed)
    (hoff : ¬ (formula.isSome → kind = .field) →
      failed (.invalidPath ((f.tree.path parent).child key).render .formulaOffField) f)
    (hclash : ∀ e, f.tree.checkInsert parent key = .error e → (formula.isSome → kind = .field) → failed e f)
    (hreport : f.tree.checkInsert parent key = .ok () → (formula.isSome → kind = .field) →
      Ends (FormM.orUndo (nodeAdded f.tree.next) (·.dropSubtree f.tree.next)
        (f.withTree (f.tree.withNew parent key kind formula))) (fun _ g => ok f.tree.next g) failed) :
    Ends (insertNode parent key kind formula f) ok failed := by
  unfold Form.insertNode
  refine Ends.bind (Ends.pure ?_)
  dsimp only
  split
  next hfield => exact hoff (by simpa using hfield)
  next hfield =>
    have hformula : formula.isSome → kind = .field := by simpa using hfield
    -- The formula is set once the template is in place.
    have htail (hcheck : f.tree.checkInsert parent key = .ok ()) :
        Ends ((do
            FormM.editTree (·.setFormula f.tree.next formula)
            FormM.orUndo (nodeAdded f.tree.next) (·.dropSubtree f.tree.next)
            return f.tree.next : FormM NodeId) (f.withTree (f.tree.withNew parent key kind none))) ok failed := by
      have hset : (f.tree.withNew parent key kind none).setFormula f.tree.next formula =
          .ok (f.tree.withNew parent key kind formula) := FieldTree.setFormula_withNew hwf hcheck
      refine Ends.bind (FormM.ends_editTree ?_ ?_)
      · intro t hset'
        obtain rfl := Except.ok.inj (hset.symm.trans hset')
        exact Ends.bind ((hreport hcheck hformula).mono (fun _ _ hok => Ends.pure hok) fun _ _ he => he)
      · intro e herror
        simp [withTree, hset] at herror
    refine Ends.bind (FormM.ends_onTree ?_ fun e hinsert => hclash e (FieldTree.checkInsert_of_insert hinsert) hformula)
    intro id t₁ hinsert
    obtain ⟨rfl, hcheck, hplain, harray⟩ := FieldTree.insert_ok hwf hinsert
    split
    next hkind =>
      have htemplate := harray hkind
      refine Ends.bind (Ends.bind (FormM.ends_onTree ?_ ?_))
      · intro _ t₂ htemplate'
        obtain ⟨rfl, rfl⟩ := Prod.mk.inj (Except.ok.inj (htemplate.symm.trans htemplate'))
        subst hkind
        exact Ends.pure (htail hcheck)
      · intro e herror
        simp [htemplate] at herror
    next hkind =>
      obtain rfl := hplain hkind
      exact htail hcheck

/-- What comes of adding a single node. -/
theorem insertNode_eq (hwf : f.tree.WellFormed) : Form.insertNode parent key kind formula f =
    if formula.isSome → kind = .field then
      match f.tree.checkInsert parent key with
      | .ok () =>
        (do
          FormM.orUndo (nodeAdded f.tree.next) (·.dropSubtree f.tree.next)
          return f.tree.next : FormM NodeId) (f.withTree (f.tree.withNew parent key kind formula))
      | .error e => .error e f
    else .error (.invalidPath ((f.tree.path parent).child key).render .formulaOffField) f := by
  refine Ends.eq (ends_insertNode hwf (fun hoff => ?_) (fun e hclash hformula => ?_) fun hcheck hformula => ?_)
  · rw [if_neg hoff]
  · rw [if_pos hformula, hclash]
  · rw [if_pos hformula, hcheck]
    cases hreport : FormM.orUndo (nodeAdded f.tree.next) (·.dropSubtree f.tree.next)
        (f.withTree (f.tree.withNew parent key kind formula)) with
    | ok _ g => exact bind_of_ok hreport
    | error e g => exact bind_of_error hreport

/-- What adding a single node does. -/
theorem Settled.insertNode (h : Settled f) (hquiet : f.Quiet) : Ends (insertNode parent key kind formula f)
    (fun id g => id = f.tree.next ∧ f.tree.checkInsert parent key = .ok () ∧
      (formula.isSome → kind = .field) ∧ Settled g ∧
      g.tree = f.tree.withNew parent key kind formula ∧ Advance f g ∧ Keeps f g)
    (fun e g => Settled g ∧ Undone f g ∧ Advance f g ∧ Refuses f.tree parent key kind formula e) := by
  have hwf := h.current.tree
  refine ends_insertNode hwf (fun hoff => ?_) (fun e hclash _ => ?_) fun hcheck hformula => ?_
  · exact ⟨h, .refl f, .refl f, .off hoff⟩
  · exact ⟨h, .refl f, .refl f, .clash hclash⟩
  · refine (h.reportNew hquiet (FieldTree.grafts_withNew hwf hcheck hformula)).mono ?_ ?_
    · rintro _ g ⟨hsettled, htree, hadv, hkeeps⟩
      exact ⟨rfl, hcheck, hformula, hsettled, htree, hadv, hkeeps⟩
    · rintro e g ⟨hsettled, hundone, hadv, herror⟩
      exact ⟨hsettled, hundone, hadv, .fault hformula hcheck herror⟩

end NewNode

end LiveForm.Form
