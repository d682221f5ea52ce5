import LiveForm.Proofs.Form.Edits

/-!
# Adding a node to an array

A node that is added to an array goes into the template and into every element. If there is no element yet, one is tried
out. What is left behind if the addition is refused depends on where the key is taken already.
-/

set_option autoImplicit false

namespace LiveForm

theorem FieldTree.place?_parent_ne {t : FieldTree} (ht : t.WellFormed) {x parent : NodeId} {q : Place}
    (hq : t.place? x = some q) (hparent : q.parent = some parent) : x ≠ parent := by
  rintro rfl
  obtain ⟨x', p, key, hp', hp, -, hpath, -⟩ :=
    exists_place?_parent ht.keyed (ne_root_of_parent hq hparent) hq
  obtain rfl := Option.some.inj (hparent.symm.trans hp')
  obtain rfl := Option.some.inj (hq.symm.trans hp)
  have := congrArg (fun path : Path => path.steps.length) hpath
  simp [Path.child] at this

/-- The second tree is what the copies of a new node make of the first one, in which the template has the node already:
all elements have it, and if there is no element, there is one that is tried out. -/
def FieldTree.Spreads (t : FieldTree) (array template : NodeId) (elements : List NodeId) (key : Step) (kind : Kind)
    (formula : Option String) (t' : FieldTree) : Prop :=
  if elements = [] then ∃ created, t.copySubtree template array (.index 0) = .ok (created, t')
  else t' = t.withEach elements key kind formula

theorem FieldTree.Spreads.extends {t t' : FieldTree} {array template : NodeId} {elements : List NodeId} {key : Step}
    {kind : Kind} {formula : Option String} (ht : t.WellFormed)
    (h : t.Spreads array template elements key kind formula t') : Extends t t' := by
  unfold FieldTree.Spreads at h
  split at h
  · obtain ⟨created, hcopy⟩ := h
    obtain ⟨l, -, -, hgraft, -⟩ := copySubtree_ok ht hcopy
    intro x p hp
    refine ⟨p, (hgraft.place?_old ht fun hx => ?_).trans hp, rfl⟩
    exact Nat.not_lt.2 (hgraft.fresh x hx) (lt_next_of_place? ht hp)
  · exact h ▸ ht.bounded.extends_withEach

/-- The second tree is one that is passed through while the first one, in which the template has the new node already, is
given copies of the node: some of the elements that come first have it, or there is no element and one is tried out. -/
def FieldTree.Spreading (t : FieldTree) (array template : NodeId) (elements : List NodeId) (key : Step) (kind : Kind)
    (formula : Option String) (t' : FieldTree) : Prop :=
  (∃ tried, tried <+: elements ∧ (∀ x ∈ tried, t.checkInsert x key = .ok ()) ∧ t' = t.withEach tried key kind formula) ∨
    elements = [] ∧ ∃ created, t.copySubtree template array (.index 0) = .ok (created, t')

/-- The copies that are still to be made leave the others alone. -/
theorem FieldTree.Spreading.extends {t t₁ t' : FieldTree} {array template : NodeId} {elements : List NodeId} {key : Step}
    {kind : Kind} {formula : Option String} (ht : t.WellFormed)
    (h : t.Spreading array template elements key kind formula t₁)
    (h' : t.Spreads array template elements key kind formula t') : Extends t₁ t' := by
  rcases h with ⟨tried, ⟨rest, rfl⟩, -, rfl⟩ | ⟨rfl, created, hcopy⟩
  · by_cases hnil : tried = []
    · subst hnil
      exact h'.extends ht
    · rw [FieldTree.Spreads, if_neg (by simp [hnil]), FieldTree.withEach_append] at h'
      exact h' ▸ ht.bounded.withEach.extends_withEach
  · rw [FieldTree.Spreads, if_pos rfl] at h'
    obtain ⟨created', hcopy'⟩ := h'
    obtain rfl := (Prod.mk.inj (Except.ok.inj (hcopy.symm.trans hcopy'))).2
    exact .refl t₁

/-- A node may be added to the template and to all elements of an array, unless something is wrong with the formulas of
the second tree. -/
def FieldTree.Judged (t : FieldTree) (array : NodeId) (key : Step) (kind : Kind) (formula : Option String)
    (t' : FieldTree) : Prop :=
  (formula.isSome → kind = .field) ∧ ∃ template, t.template? array = some template ∧
    (∀ x ∈ template :: (t.elements array).map Prod.snd, t.checkInsert x key = .ok ()) ∧
    (t.withNew template key kind formula).Spreads array template ((t.elements array).map Prod.snd) key kind formula t'

/-- The second tree is one that is passed through while a node is added under another one: the node is there, or if the
parent is an array, its template has the node, and some elements have copies of it. -/
def FieldTree.Attempted (t : FieldTree) (parent : NodeId) (key : Step) (kind : Kind) (formula : Option String)
    (t' : FieldTree) : Prop :=
  (formula.isSome → kind = .field) ∧ ∃ p, t.place? parent = some p ∧
    match p.node.kind with
    | .field => False
    | .group => t.checkInsert parent key = .ok () ∧ t' = t.withNew parent key kind formula
    | .array => ∃ template, t.template? parent = some template ∧ t.checkInsert template key = .ok () ∧
        (t.withNew template key kind formula).Spreading parent template ((t.elements parent).map Prod.snd) key kind
          formula t'

/-- What is judged about an array is judged about its template and its elements. -/
theorem FieldTree.Judged.of_template? {t t' : FieldTree} {array template : NodeId} {key : Step} {kind : Kind}
    {formula : Option String} (h : t.Judged array key kind formula t') (htemplate : t.template? array = some template) :
    (∀ x ∈ template :: (t.elements array).map Prod.snd, t.checkInsert x key = .ok ()) ∧
      (t.withNew template key kind formula).Spreads array template ((t.elements array).map Prod.snd) key kind formula
        t' := by
  obtain ⟨-, template', htemplate', hfree, hspreads⟩ := h
  obtain rfl := Option.some.inj (htemplate.symm.trans htemplate')
  exact ⟨hfree, hspreads⟩

/-- What is passed through while the elements get their copies is passed through while the node is added to the array. -/
theorem FieldTree.Spreading.attempted {t t' : FieldTree} {array template : NodeId} {key : Step} {kind : Kind}
    {formula : Option String} {p : Place}
    (h : (t.withNew template key kind formula).Spreading array template ((t.elements array).map Prod.snd) key kind
      formula t')
    (hp : t.place? array = some p) (harray : p.node.kind = .array) (htemplate : t.template? array = some template)
    (hcheck : t.checkInsert template key = .ok ()) (hformula : formula.isSome → kind = .field) :
    t.Attempted array key kind formula t' := by
  refine ⟨hformula, p, hp, ?_⟩
  rw [harray]
  exact ⟨template, htemplate, hcheck, h⟩

/-- A node may be added under another one, unless something is wrong with the formulas of the second tree. -/
def FieldTree.Enlarged (t : FieldTree) (parent : NodeId) (key : Step) (kind : Kind) (formula : Option String)
    (t' : FieldTree) : Prop :=
  ∃ p, t.place? parent = some p ∧
    match p.node.kind with
    | .field => False
    | .group => (formula.isSome → kind = .field) ∧ t.checkInsert parent key = .ok () ∧
        t' = t.withNew parent key kind formula
    | .array => t.Judged parent key kind formula t'

theorem FieldTree.Enlarged.of_place? {t t' : FieldTree} {parent : NodeId} {key : Step} {kind : Kind}
    {formula : Option String} (h : t.Enlarged parent key kind formula t') {p : Place}
    (hp : t.place? parent = some p) :
    match p.node.kind with
    | .field => False
    | .group => (formula.isSome → kind = .field) ∧ t.checkInsert parent key = .ok () ∧
        t' = t.withNew parent key kind formula
    | .array => t.Judged parent key kind formula t' := by
  obtain ⟨p', hp', h⟩ := h
  obtain rfl := Option.some.inj (hp.symm.trans hp')
  exact h

namespace Form

variable {f f' g : Form} {array template id : NodeId} {kind : Kind} {formula : Option String} {name : String}
  {copies : List (NodeId × NodeId)}

/-- A new node in a template may be removed again: the graph knows nothing of it. -/
theorem Settled.dropSubtree (h : Settled f) (hid : id ≠ rootId) {q : Place}
    (hq : f.tree.place? id = some q)
    (htemplate : ∀ x, f.tree.Within id x → ∀ q, f.tree.place? x = some q → q.inTemplate = true) :
    Settled (f.dropSubtree id) ∧ Advance f (f.dropSubtree id) ∧
      f.dropSubtree id = f.withTree (f.tree.without id) := by
  have hdrop : f.dropSubtree id = f.withTree (f.tree.without id) := dropSubtree_eq hid (by rw [hq]; rfl)
  have hcut := h.cut hid (fun x hx => ?_) fun x hx i hc => ?_
  · rw [hdrop]
    exact ⟨hcut.mono fun x hx => hx.1,
      advance_withTree (FieldTree.carries_without h.current.tree hid), rfl⟩
  · cases hF : f.graph.formula? x with
    | none => rfl
    | some F =>
      obtain ⟨q, hq, hlive, -⟩ := h.current.place?_of_formula? hF
      simp [htemplate x hx q hq] at hlive
  · obtain ⟨q, hq, hlive, -⟩ := h.current.place?_of_caches hc
    simp [htemplate x hx q hq] at hlive

/-- Trying out an element changes nothing, whether it is accepted or not. -/
theorem Settled.tryElement (h : Settled f) (hquiet : f.Quiet) : Ends (tryElement array template f)
    (fun _ g => Settled g ∧ Undone f g ∧ Advance f g ∧ ∀ created t',
      f.tree.copySubtree template array (.index (nextIndex f.tree array)) = .ok (created, t') → t'.Acyclic)
    (fun e g => Settled g ∧ Undone f g ∧ Advance f g ∧
      ((∃ created t', f.tree.copySubtree template array (.index (nextIndex f.tree array)) = .ok (created, t') ∧
          t'.Explains e) ∨
        f.tree.copySubtree template array (.index (nextIndex f.tree array)) = .error e)) := by
  have hwf := h.current.tree
  unfold Form.tryElement
  refine Ends.bind (Ends.pure (Ends.bind (FormM.ends_onTree (fun created t hcopy => ?_) fun e hcopy => ?_)))
  · have hsame {created' : List NodeId} {t' : FieldTree} (hcopy' : f.tree.copySubtree template array
        (.index (nextIndex f.tree array)) = .ok (created', t')) : t = t' :=
      (Prod.mk.inj (Except.ok.inj (hcopy.symm.trans hcopy'))).2
    obtain ⟨l, -, hhead, hgraft, hadded⟩ := h.copyAdded hquiet hcopy
    refine Ends.bind (hadded.mono ?_ fun e _ ⟨hg, hundone, hadv, herror⟩ =>
      ⟨hg, hundone, hadv, .inl ⟨created, t, hcopy, herror⟩⟩)
    rintro _ g ⟨hg, htree, hadv, hkeeps⟩
    have hacyclic : t.Acyclic := htree ▸ hg.tree_acyclic
    have htake : created.take 1 = [f.tree.next] := by
      cases created with
      | nil => simp at hhead
      | cons a rest => simpa using hhead
    obtain ⟨p, hp⟩ := hgraft.placed
    have hid : f.tree.next ≠ rootId := Nat.ne_of_gt hwf.next_pos
    have hplaced : (g.tree.place? f.tree.next).isSome := by
      rw [htree]
      unfold FieldTree.copied at hgraft
      rw [hgraft.place?_root hwf hp]
      rfl
    rw [htake]
    refine Ends.bind ((hg.discardSubtree (hadv.quiet hquiet) hid hplaced).mono ?_ fun _ _ he => he.elim)
    rintro _ g' ⟨hg', htree', hadv', hkeep⟩
    have hback : g'.tree = { f.tree with next := t.next } := by
      rw [htree', htree]
      exact FieldTree.Grafts.without hgraft hwf
    refine Ends.pure ⟨hg'.mono fun x hx => hx.1, ⟨by rw [hback], ?_, hkeep f h.coherent (fun x hx => ?_) hkeeps⟩,
      hadv.trans hwf hadv', fun _ _ hcopy' => hsame hcopy' ▸ hacyclic⟩
    · rw [hback]
      exact hgraft.next
    · rw [htree] at hx
      exact (h.unknown (hgraft.fresh x ((FieldTree.Grafts.within_iff hgraft hwf).1 hx))).1
  · exact ⟨h, .refl f, .refl f, .inr hcopy⟩

/-- What is left behind of an addition that an element of an array has refused because it has the key already: the
copies in the elements before it. -/
structure LeftBehind (name : String) (kind : Kind) (formula : Option String) (array : NodeId) (e : FormError)
    (f g : Form) : Prop where
  exists_copies : ∃ copies element rest,
    (f.tree.elements array).map Prod.snd = copies.map Prod.fst ++ element :: rest ∧ copies ≠ [] ∧
      e = .duplicateKey (f.tree.path element) (.name name) ∧
      f.tree.checkInsert element (.name name) = .error e ∧
      g.tree = (f.tree.withCopies (.name name) kind formula copies).withNext g.tree.next ∧
      ∀ copy ∈ copies, f.tree.next ≤ copy.2

/-- A refused addition has been taken back, and was not refused by an element behind the first one because of its
key. If a circle is the reason, it is one of a tree that was passed through. -/
structure TakenBack (name : String) (kind : Kind) (formula : Option String) (array : NodeId) (e : FormError)
    (f g : Form) : Prop where
  undone : Undone f g
  error : ∀ element ∈ ((f.tree.elements array).map Prod.snd).tail,
    e ≠ .duplicateKey (f.tree.path element) (.name name)
  explained : ∀ t', f.tree.Judged array (.name name) kind formula t' → t'.Explains e
  attempted : (∃ paths, e = .cycle paths) →
    ∃ t', f.tree.Attempted array (.name name) kind formula t' ∧ t'.Explains e

/-- What an addition to an array does to the tree: the template and all elements get one more child each. -/
def Extended (name : String) (kind : Kind) (formula : Option String) (array template id : NodeId)
    (f g : Form) : Prop :=
  id = f.tree.next ∧ ∃ copies, copies.map Prod.fst = (f.tree.elements array).map Prod.snd ∧
    g.tree = (f.tree.withCopies (.name name) kind formula ((template, id) :: copies)).withNext g.tree.next

section Extending

variable (h : Settled f) (hquiet : f.Quiet) (hshaped : f.tree.Shaped) {p q : Place}
  (hp : f.tree.place? array = some p) (harray : p.node.kind = .array)
  (hq : f.tree.place? template = some q) (hparent : q.parent = some array)
  (htemplate : q.node.isTemplate = true)

include h in
/-- Elements of an array are children of it. -/
theorem Settled.place?_element {element : NodeId}
    (helement : element ∈ (f.tree.elements array).map Prod.snd) : ∃ u, f.tree.place? element = some u ∧
      u.parent = some array ∧ u.node.isTemplate = false := by
  obtain ⟨⟨i, x⟩, hx, rfl⟩ := List.mem_map.1 helement
  obtain ⟨u, hu, hparent, -, hlive⟩ := (FieldTree.mem_elements h.current.tree).1 hx
  exact ⟨u, hu, hparent, hlive⟩

include h hq htemplate in
/-- The paths of the template and of the elements differ. -/
theorem Settled.path_template_ne {element : NodeId}
    (helement : element ∈ (f.tree.elements array).map Prod.snd) :
    f.tree.path template ≠ f.tree.path element := by
  obtain ⟨u, hu, -, hlive⟩ := h.place?_element helement
  rw [FieldTree.path_of_place? hq, FieldTree.path_of_place? hu]
  intro hpath
  obtain rfl := FieldTree.eq_of_path_eq h.current.tree.keyed hq hu hpath
  obtain rfl := Option.some.inj (hq.symm.trans hu)
  simp [htemplate] at hlive

include h in
/-- The first element has another path than those behind it. -/
theorem Settled.path_head_ne {first element : NodeId}
    (hfirst : first ∈ ((f.tree.elements array).map Prod.snd).head?)
    (helement : element ∈ ((f.tree.elements array).map Prod.snd).tail) :
    f.tree.path first ≠ f.tree.path element := by
  obtain ⟨u, hu, -⟩ := h.place?_element (List.mem_of_mem_head? hfirst)
  obtain ⟨v, hv, -⟩ := h.place?_element (List.mem_of_mem_tail helement)
  rw [FieldTree.path_of_place? hu, FieldTree.path_of_place? hv]
  intro hpath
  obtain rfl := FieldTree.eq_of_path_eq h.current.tree.keyed hu hv hpath
  have hnodup := FieldTree.nodup_elements h.current.tree array
  cases hlist : (f.tree.elements array).map Prod.snd with
  | nil => simp [hlist] at hfirst
  | cons a rest =>
    rw [hlist] at hfirst helement hnodup
    obtain rfl : a = first := by simpa using hfirst
    exact (List.nodup_cons.1 hnodup).1 helement

section Copying

variable (hgraft : FieldTree.Grafts f.tree template
  (FieldTree.newNode f.tree.next (.name name) kind formula) g.tree)

include h hgraft in
/-- The new node of the template is not one of the nodes there were. -/
theorem Settled.not_mem_newNode {x : NodeId} {u : Place} (hx : f.tree.place? x = some u) :
    x ∉ (FieldTree.newNode f.tree.next (.name name) kind formula).ids := fun hmem =>
  Nat.not_lt.2 (hgraft.fresh x hmem) (FieldTree.lt_next_of_place? h.current.tree hx)

include h hgraft in
theorem Settled.place?_newNode {x : NodeId} {u : Place} (hx : f.tree.place? x = some u) :
    g.tree.place? x = some u :=
  (hgraft.place?_old h.current.tree (h.not_mem_newNode hgraft hx)).trans hx

include h hp hq hparent hgraft in
/-- The new node of the template is not an element. -/
theorem Settled.elements_newNode : g.tree.elements array = f.tree.elements array := by
  rw [hgraft.eq]
  exact FieldTree.elements_graft (FieldTree.place?_parent_ne h.current.tree hq hparent) (h.not_mem_newNode hgraft hp)

include h hgraft in
theorem Settled.path_newNode {element : NodeId} (he : element ∈ (f.tree.elements array).map Prod.snd) :
    g.tree.path element = f.tree.path element := by
  obtain ⟨u, hu, -⟩ := h.place?_element he
  rw [FieldTree.path_of_place? hu, FieldTree.path_of_place? (h.place?_newNode hgraft hu)]

include h hq htemplate hgraft in
/-- The new node of the template takes no key of an element. -/
theorem Settled.checkInsert_newNode {element : NodeId}
    (he : element ∈ (f.tree.elements array).map Prod.snd) :
    g.tree.checkInsert element (.name name) = f.tree.checkInsert element (.name name) := by
  obtain ⟨u, hu, -, hlive⟩ := h.place?_element he
  have hnew := h.not_mem_newNode hgraft hu
  refine FieldTree.checkInsert_congr (hgraft.place?_old h.current.tree hnew) ?_
  rw [hgraft.eq]
  refine FieldTree.children_graft (t := f.tree) ?_ hnew
  rintro rfl
  obtain rfl := Option.some.inj (hq.symm.trans hu)
  simp [htemplate] at hlive

/-- The copies into the elements have ended with an error. Those made so far have been taken back, unless an element
behind the first one has refused its copy because it has the key already. The second form is the one in which the
template has the new node. -/
def NotCopied (name : String) (kind : Kind) (formula : Option String) (array template : NodeId) (e : FormError)
    (f g : Form) (copies : List (NodeId × NodeId)) : Prop :=
  (copies = [] ∧ (∀ element ∈ ((f.tree.elements array).map Prod.snd).tail,
      e ≠ .duplicateKey (f.tree.path element) (.name name)) ∧
    ((∃ element ∈ (f.tree.elements array).map Prod.snd, f.tree.checkInsert element (.name name) = .error e) ∨
      g.tree.copySubtree template array (.index 0) = .error e ∧ (f.tree.elements array).map Prod.snd = [] ∨
      ∃ t', g.tree.Spreading array template ((f.tree.elements array).map Prod.snd) (.name name) kind formula t' ∧
        t'.Explains e)) ∨
  copies ≠ [] ∧ ∃ element rest,
    (f.tree.elements array).map Prod.snd = copies.map Prod.fst ++ element :: rest ∧
    e = .duplicateKey (f.tree.path element) (.name name) ∧
    f.tree.checkInsert element (.name name) = .error e

variable (hg : Settled g) (hadv : Advance f g)

include h hquiet hp hq hparent hgraft hg hadv in
/-- If there is no element, the new node of the template is tried out in one. -/
theorem Settled.tryNew (hnil : (f.tree.elements array).map Prod.snd = []) :
    Ends (Form.tryElement array template g)
      (fun _ g' => Spread (.name name) kind formula g g' [] ∧
        ∀ t', g.tree.Spreads array template ((f.tree.elements array).map Prod.snd) (.name name) kind formula t' →
          t'.Acyclic)
      (fun e g' => Spread (.name name) kind formula g g' [] ∧
        NotCopied name kind formula array template e f g []) := by
  have hindex : nextIndex g.tree array = 0 := by
    unfold nextIndex
    rw [h.elements_newNode hp hq hparent hgraft, List.map_eq_nil_iff.1 hnil]
    rfl
  have hspreads {t' : FieldTree} (hs : g.tree.Spreads array template ((f.tree.elements array).map Prod.snd)
      (.name name) kind formula t') :
      ∃ created, g.tree.copySubtree template array (.index (nextIndex g.tree array)) = .ok (created, t') := by
    rwa [FieldTree.Spreads, if_pos hnil, ← hindex] at hs
  have hreason {e : FormError} (he : (∃ created t',
      g.tree.copySubtree template array (.index (nextIndex g.tree array)) = .ok (created, t') ∧ t'.Explains e) ∨
        g.tree.copySubtree template array (.index (nextIndex g.tree array)) = .error e) :
      NotCopied name kind formula array template e f g [] := by
    rw [hindex] at he
    refine .inl ⟨rfl, by simp [hnil], .inr ?_⟩
    rcases he with ⟨created, t', hcopy, hexplains⟩ | herror
    · exact .inr ⟨t', .inr ⟨hnil, created, hcopy⟩, hexplains⟩
    · exact .inl ⟨herror, hnil⟩
  refine (hg.tryElement (hadv.quiet hquiet)).mono ?_ ?_
  · rintro _ g' ⟨hg', hundone, hadv', hacyclic⟩
    refine ⟨(Spread.start hg).undo hg' hundone hadv' hg.current.tree, fun t' hs => ?_⟩
    obtain ⟨created, hcopy⟩ := hspreads hs
    exact hacyclic created t' hcopy
  · rintro e g' ⟨hg', hundone, hadv', herror⟩
    exact ⟨(Spread.start hg).undo hg' hundone hadv' hg.current.tree, hreason herror⟩

include h hquiet hshaped hp harray hq htemplate hgraft hg hadv in
/-- If there are elements, they get a copy of the new node of the template. -/
theorem Settled.spreadNew (hne : (f.tree.elements array).map Prod.snd ≠ []) :
    Ends (Form.copyIntoElements f.tree.next (.name name) [] ((f.tree.elements array).map Prod.snd) g)
      (fun _ g' => (∃ copies, copies.map Prod.fst = (f.tree.elements array).map Prod.snd ∧
          Spread (.name name) kind formula g g' copies) ∧
        ∀ t', g.tree.Spreads array template ((f.tree.elements array).map Prod.snd) (.name name) kind formula t' →
          t'.Acyclic)
      (fun e g' => ∃ copies, Spread (.name name) kind formula g g' copies ∧
        NotCopied name kind formula array template e f g copies) := by
  have hwf := h.current.tree
  have hspreads {t' : FieldTree} (hs : g.tree.Spreads array template ((f.tree.elements array).map Prod.snd)
      (.name name) kind formula t') :
      t' = g.tree.withEach ((f.tree.elements array).map Prod.snd) (.name name) kind formula := by
    rwa [FieldTree.Spreads, if_neg hne] at hs
  have hroot : f.tree.next ≠ rootId := Nat.ne_of_gt hwf.next_pos
  have hgroups : ∀ e ∈ (f.tree.elements array).map Prod.snd, ∃ p, g.tree.place? e = some p ∧
      p.node.kind = .group ∧ e ∉ (FieldTree.newNode f.tree.next (.name name) kind formula).ids := by
    intro e he
    obtain ⟨u, hu, hparent, -⟩ := h.place?_element he
    exact ⟨u, h.place?_newNode hgraft hu, hshaped.group hwf hp harray hu hparent, h.not_mem_newNode hgraft hu⟩
  refine (Spread.copyIntoElements hg (hadv.quiet hquiet) hroot _ hgroups (Spread.start hg)
    (by simpa using FieldTree.nodup_elements hwf array) (hgraft.untouched hwf)).mono ?_ ?_
  · rintro _ g' ⟨htree, more, hmore, hspread⟩
    refine ⟨⟨more, hmore, hspread⟩, fun t' hs => ?_⟩
    rw [hspreads hs, ← htree]
    exact hspread.settled.tree_acyclic
  · rintro e g' ⟨hg', hadv', hbroken⟩
    cases hbroken with
    | faulty tried hundone htried hfree hexplains =>
      refine ⟨[], (Spread.start hg).undo hg' hundone hadv' hg.current.tree, .inl ⟨rfl, ?_, ?_⟩⟩
      · exact fun _ _ he => hexplains.ne_duplicateKey _ _ he
      · exact .inr (.inr ⟨_, .inl ⟨tried, htried, hfree, rfl⟩, hexplains⟩)
    | refused first hundone _ hfirst hclashes =>
      have hmem := List.mem_of_mem_head? hfirst
      refine ⟨[], (Spread.start hg).undo hg' hundone hadv' hg.current.tree,
        .inl ⟨rfl, fun element helement he => ?_, .inl ⟨first, hmem, ?_⟩⟩⟩
      · obtain ⟨hsame, -⟩ := FormError.duplicateKey.inj (he.symm.trans hclashes.error)
        rw [h.path_newNode hgraft hmem] at hsame
        exact h.path_head_ne hfirst helement hsame.symm
      · exact (h.checkInsert_newNode hq htemplate hgraft hmem).symm.trans hclashes.refused
    | left more element rest hsplit hsome hclashes hspread =>
      have hmem : element ∈ (f.tree.elements array).map Prod.snd := by simp [hsplit]
      obtain ⟨herror, hrefused⟩ := hclashes
      rw [h.path_newNode hgraft hmem] at herror
      rw [h.checkInsert_newNode hq htemplate hgraft hmem] at hrefused
      exact ⟨more, by simpa using hspread, .inr ⟨by simpa using hsome, element, rest, hsplit, herror, hrefused⟩⟩

include h hquiet hshaped hp harray hq hparent htemplate hgraft hg hadv in
/-- A node that is in the template already is copied into the elements. -/
theorem Settled.copyNew :
    Ends ((if ((g.tree.elements array).map Prod.snd).isEmpty then Form.tryElement array template
        else copyIntoElements f.tree.next (.name name) [] ((g.tree.elements array).map Prod.snd)) g)
      (fun _ g' => (∃ copies, copies.map Prod.fst = (f.tree.elements array).map Prod.snd ∧
          Spread (.name name) kind formula g g' copies) ∧
        ∀ t', g.tree.Spreads array template ((f.tree.elements array).map Prod.snd) (.name name) kind formula t' →
          t'.Acyclic)
      (fun e g' => ∃ copies, Spread (.name name) kind formula g g' copies ∧
        NotCopied name kind formula array template e f g copies) := by
  rw [h.elements_newNode hp hq hparent hgraft]
  split
  next hempty =>
    have hnil := List.isEmpty_iff.1 hempty
    refine (h.tryNew hquiet hp hq hparent hgraft hg hadv hnil).mono ?_ ?_
    · rintro _ g' ⟨hspread, hacyclic⟩
      exact ⟨⟨[], by rw [hnil]; rfl, hspread⟩, hacyclic⟩
    · rintro e g' ⟨hspread, hnot⟩
      exact ⟨[], hspread, hnot⟩
  next hsome =>
    exact h.spreadNew hquiet hshaped hp harray hq htemplate hgraft hg hadv
      fun hnil => hsome (List.isEmpty_iff.2 hnil)

end Copying

include h hq hparent htemplate in
/-- The new node of a template is removed again. -/
theorem Spread.dropTemplate (hgraft : FieldTree.Grafts f.tree template
      (FieldTree.newNode f.tree.next (.name name) kind formula) g.tree)
    (hspread : Spread (.name name) kind formula g f' copies) :
    Settled (f'.dropSubtree f.tree.next) ∧ Advance f' (f'.dropSubtree f.tree.next) ∧
      (f'.tree.Shaped → (f'.dropSubtree f.tree.next).tree.Shaped) ∧
      f'.dropSubtree f.tree.next =
        f'.withTree ((f.tree.withCopies (.name name) kind formula copies).withNext f'.tree.next) := by
  have hwf := h.current.tree
  have hid : f.tree.next ≠ rootId := Nat.ne_of_gt hwf.next_pos
  have hlive : q.inTemplate = true := by
    obtain ⟨parent, p, key, -, -, -, -, hin⟩ :=
      FieldTree.exists_place?_parent hwf.keyed (FieldTree.ne_root_of_parent hq hparent) hq
    rw [hin, htemplate, Bool.or_true]
  have hroot := hgraft.place?_root hwf hq
  have hplaced := hspread.place? (hgraft.wellFormed hwf) hroot
  obtain ⟨hset, hadv, hdrop⟩ := hspread.settled.dropSubtree hid hplaced fun x hx u hu =>
    FieldTree.inTemplate_of_within hspread.settled.current.tree.keyed hx hplaced (by simp [hlive]) hu
  refine ⟨hset, hadv, fun hs => by rw [hdrop]; exact hs.without, hdrop.trans ?_⟩
  have hfresh : f.tree.next ∉ f.tree.fields.ids := fun hm => Nat.lt_irrefl _ (hwf.lt_next _ hm)
  have hbound : f.tree.next < g.tree.next :=
    hgraft.bound _ (by simp [FieldTree.newNode, Forest.ids])
  have hapart : ∀ copy ∈ copies,
      f.tree.next ∉ (FieldTree.newNode copy.2 (.name name) kind formula).ids := fun copy hcopy hmem =>
    Nat.not_lt.2 (hspread.bounds copy hcopy _ hmem).1 hbound
  have htree : g.tree = (f.tree.graft template
      (FieldTree.newNode f.tree.next (.name name) kind formula)).withNext g.tree.next := hgraft.eq
  congr 1
  rw [hspread.tree, FieldTree.without_withNext, htree, FieldTree.withCopies, FieldTree.planted_withNext,
    FieldTree.without_withNext]
  have hback : (f.tree.withCopies (.name name) kind formula ((template, f.tree.next) :: copies)).without f.tree.next =
      f.tree.withCopies (.name name) kind formula copies := FieldTree.without_withCopies hfresh hapart
  rw [← hback]
  rfl

section TakingBack

variable {e : FormError} (hgiven : f.tree.template? array = some template)

include h hp harray hq htemplate hgiven in
/-- If the template has refused the new node, the addition has been taken back. -/
theorem Settled.takenBack_of_refuses (hundone : Undone f g)
    (hrefuses : Refuses f.tree template (.name name) kind formula e) : TakenBack name kind formula array e f g where
  undone := hundone
  error element helement he :=
    h.path_template_ne hq htemplate (List.mem_of_mem_tail helement) (he ▸ hrefuses).path_eq.symm
  explained t' hjudged := by
    obtain ⟨hfree, hspreads⟩ := hjudged.of_template? hgiven
    have hcheck := hfree template List.mem_cons_self
    have hwf := (FieldTree.grafts_withNew h.current.tree hcheck hjudged.1).wellFormed h.current.tree
    exact (hrefuses.explains hcheck hjudged.1).extends (hspreads.extends hwf)
  attempted := by
    rintro ⟨paths, rfl⟩
    obtain ⟨hformula, hcheck, hexplains⟩ := hrefuses.of_cycle
    have hspreading : (f.tree.withNew template (.name name) kind formula).Spreading array template
        ((f.tree.elements array).map Prod.snd) (.name name) kind formula _ :=
      .inl ⟨[], List.nil_prefix, by simp, rfl⟩
    exact ⟨_, hspreading.attempted hp harray hgiven hcheck hformula, hexplains⟩

variable (hcheck : f.tree.checkInsert template (.name name) = .ok ()) (hformula : formula.isSome → kind = .field)
  (htree : g.tree = f.tree.withNew template (.name name) kind formula)

include h hp harray hgiven hcheck hformula htree in
/-- If no copy is left, the addition has been taken back. -/
theorem Settled.takenBack_of_notCopied (hundone : Undone f f')
    (hnot : NotCopied name kind formula array template e f g []) : TakenBack name kind formula array e f f' := by
  have hwf := h.current.tree
  rw [NotCopied, htree] at hnot
  obtain ⟨-, herror, hcause⟩ := hnot.resolve_right fun hmore => hmore.1 rfl
  refine ⟨hundone, herror, fun t' hjudged => ?_, ?_⟩
  · obtain ⟨hfree, hspreads⟩ := hjudged.of_template? hgiven
    rcases hcause with ⟨element, helement, hclash⟩ | ⟨hcopy, hnil⟩ | ⟨t₁, hspreading, hexplains⟩
    · have hboth := hclash.symm.trans (hfree element (List.mem_cons_of_mem _ helement))
      simp at hboth
    · rw [FieldTree.Spreads, if_pos hnil, hcopy] at hspreads
      simp at hspreads
    · exact hexplains.extends
        (hspreading.extends ((FieldTree.grafts_withNew hwf hcheck hformula).wellFormed hwf) hspreads)
  · rintro ⟨paths, rfl⟩
    rcases hcause with ⟨element, helement, hclash⟩ | ⟨hcopy, -⟩ | ⟨t₁, hspreading, hexplains⟩
    · exact absurd rfl (FieldTree.ne_cycle_of_checkInsert hclash paths)
    · exact absurd rfl (FieldTree.ne_cycle_of_copySubtree hcopy paths)
    · exact ⟨t₁, hspreading.attempted hp harray hgiven hcheck hformula, hexplains⟩

end TakingBack

include h hquiet hshaped hp harray hq hparent htemplate in
/-- What adding a node to an array does, up to the recomputation at its end. -/
theorem Settled.extend (hgiven : f.tree.template? array = some template) : Ends ((do
      let id ← Form.insertNode template (.name name) kind formula
      let elements := ((← get).tree.elements array).map Prod.snd
      let copying : FormM Unit :=
        if elements.isEmpty then Form.tryElement array template
        else copyIntoElements id (.name name) [] elements
      FormM.orUndo copying (·.dropSubtree id)
      return id : FormM NodeId) f)
    (fun id g => Settled g ∧ g.tree.Shaped ∧ Advance f g ∧ Extended name kind formula array template id f g ∧
      ∀ t', f.tree.Judged array (.name name) kind formula t' → t'.Acyclic)
    (fun e g => Settled g ∧ g.tree.Shaped ∧ Advance f g ∧
      (TakenBack name kind formula array e f g ∨ LeftBehind name kind formula array e f g)) := by
  have hwf := h.current.tree
  have hgroup := hshaped.group hwf hp harray hq hparent
  refine Ends.bind ((h.insertNode hquiet).mono ?_ ?_)
  · rintro id g ⟨rfl, hcheck, hformula, hg, htree, hadv, hkeeps⟩
    have hgraft := htree ▸ FieldTree.grafts_withNew hwf hcheck hformula
    have hshaped' : g.tree.Shaped := hgraft.shaped hwf hshaped hq
      (FieldTree.shaped_newNode _ _ _ _ (by rw [hgroup]; simp))
    refine Ends.bind (Ends.pure (Ends.bind (FormM.ends_orUndo ?_)))
    refine (h.copyNew hquiet hshaped hp harray hq hparent htemplate hgraft hg hadv).mono ?_ ?_
    · rintro _ g' ⟨⟨copies, hcopies, hspread⟩, hacyclic⟩
      have hafter : g.tree = (f.tree.graft template
          (FieldTree.newNode f.tree.next (.name name) kind formula)).withNext g.tree.next := hgraft.eq
      have hextended : Extended name kind formula array template f.tree.next f g' := by
        refine ⟨rfl, copies, hcopies, ?_⟩
        rw [hspread.tree, hafter, FieldTree.withCopies, FieldTree.planted_withNext]
        rfl
      exact Ends.pure ⟨hspread.settled, hspread.shaped hshaped', hadv.trans hwf hspread.advance, hextended,
        fun t' hjudged => hacyclic t' (htree ▸ (hjudged.of_template? hgiven).2)⟩
    · rintro e g' ⟨copies, hspread, hnot⟩
      obtain ⟨hset, hadv', hdropped, hdrop⟩ := Spread.dropTemplate h hq hparent htemplate hgraft hspread
      refine ⟨hset, hdropped (hspread.shaped hshaped'), (hadv.trans hwf hspread.advance).trans hwf hadv', ?_⟩
      rw [hdrop]
      by_cases hnone : copies = []
      · subst hnone
        have hkeeps' := hkeeps.trans hspread.keeps
        exact .inl (h.takenBack_of_notCopied hp harray hgiven hcheck hformula htree
          ⟨rfl, Nat.le_trans hgraft.next hspread.next, hkeeps'.formula, hkeeps'.bound⟩ hnot)
      · obtain ⟨-, element, rest, hmore, he, hclash⟩ := hnot.resolve_left fun hback => hnone hback.1
        exact .inr ⟨copies, element, rest, hmore, hnone, he, hclash, rfl, fun copy hcopy =>
          Nat.le_trans hgraft.next (hspread.bounds copy hcopy _ (by simp [FieldTree.newNode, Forest.ids])).1⟩
  · rintro e g ⟨hg, hundone, hadv, hrefuses⟩
    have hback := h.takenBack_of_refuses hp harray hq htemplate hgiven hundone hrefuses
    exact ⟨hg, hundone.shaped hshaped, hadv, .inl hback⟩

end Extending

section Adding

/-- What adding a node to an array does. -/
theorem Sound.extendArray (h : Sound f) {p : Place} (hp : f.tree.place? array = some p)
    (harray : p.node.kind = .array) : Ends (Form.extendArray array (.name name) kind formula f)
    (fun id f' => Continues f f' ∧ (f.isSet .recomputeEagerly = true → f'.pending = ∅) ∧
      ∃ template g, f.tree.template? array = some template ∧
        Extended name kind formula array template id f.paused g ∧ f'.tree.blank = g.tree.blank ∧
        ∀ t', f.tree.Judged array (.name name) kind formula t' → t'.Acyclic)
    (fun e f' => Continues f f' ∧ ∃ g, f' = g.resumed ∧
      (TakenBack name kind formula array e f.paused g ∨ LeftBehind name kind formula array e f.paused g)) := by
  have hset : Settled f.paused := h.settled.withSchedule _
  have hwf : f.tree.WellFormed := h.settled.current.tree
  unfold Form.extendArray
  refine Ends.bind (ends_templateOf.mono ?_ ?_)
  · rintro template f' ⟨rfl, htemplate⟩
    obtain ⟨q, hq, hparent, hlive⟩ := FieldTree.template?_eq_some hwf htemplate
    refine (h.batch _ _ (hset.extend (quiet_paused h.updating) h.shaped hp harray hq hparent hlive htemplate)).mono ?_ ?_
    · rintro id f'' ⟨hcont, hpending, g, ⟨hext, hacyclic⟩, hblank, -⟩
      exact ⟨hcont, hpending, template, g, htemplate, hext, hblank, hacyclic⟩
    · rintro e f'' ⟨g, ⟨hg, hshaped, hadv, hcase⟩, rfl⟩
      exact ⟨h.resumed hg hshaped hadv, g, rfl, hcase⟩
  · rintro e f' ⟨rfl, herror, hnone⟩
    refine ⟨.refl h, f'.paused, ?_, .inl ⟨.refl _, by simp [herror], fun t' hj => ?_, by simp [herror]⟩⟩
    swap
    · obtain ⟨-, template, htemplate, -⟩ := hj
      simp [paused, Form.withSchedule, hnone] at htemplate
    show f' = { f' with schedule := (f'.schedule.push .recomputeEagerly false).pop .recomputeEagerly }
    rw [Schedule.pop_push]

/-- Unless a key is taken, only the formulas decide whether a node is added to an array. -/
theorem Sound.addToArray (h : Sound f) {p : Place} (hp : f.tree.place? array = some p)
    (harray : p.node.kind = .array) : Ends (Form.extendArray array (.name name) kind formula f)
    (fun _ f' => Continues f f' ∧ (f.isSet .recomputeEagerly = true → f'.pending = ∅) ∧
      ∀ t', f.tree.Judged array (.name name) kind formula t' → t'.Acyclic)
    (fun e f' => Continues f f' ∧ (∀ t', f.tree.Judged array (.name name) kind formula t' → t'.Explains e) ∧
      ((∃ paths, e = .cycle paths) → ∃ t', f.tree.Attempted array (.name name) kind formula t' ∧ t'.Explains e)) := by
  refine (h.extendArray hp harray).mono ?_ ?_
  · rintro id f' ⟨hcont, hpending, template, g, -, -, -, hacyclic⟩
    exact ⟨hcont, hpending, hacyclic⟩
  · rintro e f' ⟨hcont, g, -, hback | hleft⟩
    · exact ⟨hcont, hback.explained, hback.attempted⟩
    · refine ⟨hcont, fun t' hj => ?_, fun ⟨paths, hcycle⟩ => ?_⟩
      swap
      · obtain ⟨copies, element, rest, -, -, hkey, -⟩ := hleft.exists_copies
        exact absurd (hkey.symm.trans hcycle) FormError.noConfusion
      -- The element that has refused its copy has the key already.
      obtain ⟨-, template, -, hfree, -⟩ := hj
      obtain ⟨copies, element, rest, hlist, -, -, hclash, -⟩ := hleft.exists_copies
      have hmem : element ∈ (f.tree.elements array).map Prod.snd := by
        have hlist' : (f.tree.elements array).map Prod.snd = copies.map Prod.fst ++ element :: rest := hlist
        simp [hlist']
      have hboth := hclash.symm.trans (hfree element (List.mem_cons_of_mem _ hmem))
      simp at hboth

/-- Adding a node keeps a form sound. Unless its key is taken, only the formulas decide. -/
theorem Sound.addNode (h : Sound f) {parent : NodeId} :
    Ends (Form.addNode parent (.name name) kind formula f)
      (fun _ f' => Continues f f' ∧ (f.isSet .recomputeEagerly = true → f'.pending = ∅) ∧
        ∀ t', f.tree.Enlarged parent (.name name) kind formula t' → t'.Acyclic)
      (fun e f' => Continues f f' ∧ (∀ t', f.tree.Enlarged parent (.name name) kind formula t' → t'.Explains e) ∧
        ((∃ paths, e = .cycle paths) → ∃ t', f.tree.Attempted parent (.name name) kind formula t' ∧ t'.Explains e)) := by
  unfold Form.addNode
  cases hp : f.tree.place? parent with
  | none =>
    have hget : f.tree.get? parent = none := by rw [FieldTree.get?_eq, hp]; rfl
    simp only [hget]
    refine ⟨.refl h, fun t' ⟨p, hp', _⟩ => ?_, by simp⟩
    simp [hp] at hp'
  | some p =>
    have hget : f.tree.get? parent = some p.node := by rw [FieldTree.get?_eq, hp]; rfl
    have henlarged {t' : FieldTree} (he : f.tree.Enlarged parent (.name name) kind formula t') := he.of_place? hp
    simp only [hget]
    cases hkind : p.node.kind with
    | field =>
      rw [hkind] at henlarged
      exact ⟨.refl h, fun t' he => (henlarged he).elim, by simp⟩
    | array =>
      rw [hkind] at henlarged
      refine (h.addToArray hp hkind).mono ?_ ?_
      · rintro id f' ⟨hcont, hpending, hacyclic⟩
        exact ⟨hcont, hpending, fun t' he => hacyclic t' (henlarged he)⟩
      · rintro e f' ⟨hcont, herror, hcycle⟩
        exact ⟨hcont, fun t' he => herror t' (henlarged he), hcycle⟩
    | group =>
      rw [hkind] at henlarged
      refine (h.addUnderGroup hp hkind).mono ?_ ?_
      · rintro id f' ⟨hcont, hpending, -, -, hacyclic⟩
        refine ⟨hcont, hpending, fun t' he => ?_⟩
        obtain ⟨-, -, rfl⟩ := henlarged he
        exact hacyclic
      · rintro e f' ⟨hcont, -, herror⟩
        refine ⟨hcont, fun t' he => ?_, ?_⟩
        · obtain ⟨hformula, hfree, rfl⟩ := henlarged he
          exact herror.explains hfree hformula
        · rintro ⟨paths, rfl⟩
          obtain ⟨hformula, hcheck, hexplains⟩ := herror.of_cycle
          refine ⟨_, ⟨hformula, p, hp, ?_⟩, hexplains⟩
          rw [hkind]
          exact ⟨hcheck, rfl⟩

end Adding

end Form

end LiveForm
