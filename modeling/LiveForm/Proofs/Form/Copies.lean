import LiveForm.Proofs.Form.Additions
import LiveForm.Proofs.Tree.Planting

/-!
# Adding to an array

A node that is added to an array is copied into its elements one after the other. If a copy is rejected by the
graph, everything is taken back. If an element other than the first one has the key already, the copies in the
elements before it are left behind.
-/

set_option autoImplicit false

namespace LiveForm.Form

variable {f f' f'' g : Form} {source : NodeId} {key : Step} {kind : Kind} {formula : Option String}
  {copies : List (NodeId × NodeId)}

/-- Copies of a node have been added to some elements. Each copy is listed with the element that it is in. -/
structure Spread (key : Step) (kind : Kind) (formula : Option String) (f g : Form)
    (copies : List (NodeId × NodeId)) : Prop where
  settled : Settled g
  advance : Advance f g
  keeps : Keeps f g
  next : f.tree.next ≤ g.tree.next
  tree : g.tree = (f.tree.withCopies key kind formula copies).withNext g.tree.next
  placed : ∀ copy ∈ copies, (f.tree.place? copy.1).isSome
  bounds : ∀ copy ∈ copies, ∀ x ∈ (FieldTree.newNode copy.2 key kind formula).ids,
    f.tree.next ≤ x ∧ x < g.tree.next
  apart : copies.Pairwise fun a b => a.2 ∉ (FieldTree.newNode b.2 key kind formula).ids
  shaped : f.tree.Shaped → g.tree.Shaped

theorem Spread.start (h : Settled f) : Spread key kind formula f f [] :=
  ⟨h, .refl f, .refl f, Nat.le_refl _, rfl, by simp, by simp, .nil, fun hs => hs⟩

theorem Undone.shaped (h : Undone f g) (hs : f.tree.Shaped) : g.tree.Shaped := by
  rw [h.tree]
  exact hs

theorem Spread.undone (h : Spread key kind formula f g []) : Undone f g :=
  ⟨h.tree, h.next, h.keeps⟩

/-- Whatever has been added and taken back does not matter. -/
theorem Spread.undo (h : Spread key kind formula f g copies) (hset : Settled f')
    (hundone : Undone g f') (hadv : Advance g f') (hf : f.tree.WellFormed) :
    Spread key kind formula f f' copies where
  settled := hset
  advance := h.advance.trans hf hadv
  keeps := h.keeps.trans hundone.keeps
  next := Nat.le_trans h.next hundone.next
  tree := by
    have ht : f'.tree = g.tree.withNext f'.tree.next := hundone.tree
    rw [ht, h.tree]
    rfl
  placed := h.placed
  bounds copy hcopy x hx :=
    ⟨(h.bounds copy hcopy x hx).1, Nat.lt_of_lt_of_le (h.bounds copy hcopy x hx).2 hundone.next⟩
  apart := h.apart
  shaped hs := hundone.shaped (h.shaped hs)

/-- A node that was in the tree before the copies is where it was. -/
theorem Spread.place? (h : Spread key kind formula f g copies) (hf : f.tree.WellFormed) {x : NodeId}
    {p : Place} (hp : f.tree.place? x = some p) : g.tree.place? x = some p := by
  rw [h.tree, FieldTree.place?_withNext, FieldTree.place?_withCopies, hp]
  intro copy hcopy hx
  exact Nat.not_lt.2 (h.bounds copy hcopy x hx).1 (FieldTree.lt_next_of_place? hf hp)

/-- What clashed before the copies clashes after them. -/
theorem Spread.checkInsert (h : Spread key kind formula f g copies) (hf : f.tree.WellFormed) {x : NodeId}
    (hx : x ∉ copies.map Prod.fst) {p : Place} (hp : f.tree.place? x = some p) {key' : Step} :
    g.tree.checkInsert x key' = f.tree.checkInsert x key' := by
  refine FieldTree.checkInsert_congr ((h.place? hf hp).trans hp.symm) ?_
  rw [h.tree]
  refine FieldTree.children_withCopies (t := f.tree) hx fun copy hcopy hmem => ?_
  exact Nat.not_lt.2 (h.bounds copy hcopy x hmem).1 (FieldTree.lt_next_of_place? hf hp)

/-- One more copy. -/
theorem Spread.concat (h : Spread key kind formula f g copies) (hf : f.tree.WellFormed)
    {element : NodeId} (helement : (f.tree.place? element).isSome) (hset : Settled f')
    (hgraft : FieldTree.Grafts g.tree element
      (FieldTree.newNode g.tree.next key kind formula) f'.tree)
    (hshaped : f.tree.Shaped → f'.tree.Shaped)
    (hadv : Advance g f') (hkeeps : Keeps g f') :
    Spread key kind formula f f' (copies ++ [(element, g.tree.next)]) where
  settled := hset
  advance := h.advance.trans hf hadv
  keeps := h.keeps.trans hkeeps
  next := Nat.le_trans h.next hgraft.next
  tree := by
    have ht : f'.tree = (g.tree.graft element
        (FieldTree.newNode g.tree.next key kind formula)).withNext f'.tree.next := hgraft.eq
    have hg : g.tree.graft element (FieldTree.newNode g.tree.next key kind formula) =
        ((f.tree.withCopies key kind formula copies).graft element
          (FieldTree.newNode g.tree.next key kind formula)).withNext g.tree.next := by
      rw [← FieldTree.graft_withNext, ← h.tree]
    rw [ht, hg, FieldTree.withCopies_concat]
    rfl
  placed copy hcopy := by
    rcases List.mem_append.1 hcopy with hc | hc
    · exact h.placed copy hc
    · rw [List.mem_singleton.1 hc]
      exact helement
  bounds copy hcopy x hx := by
    rcases List.mem_append.1 hcopy with hc | hc
    · exact ⟨(h.bounds copy hc x hx).1, Nat.lt_of_lt_of_le (h.bounds copy hc x hx).2 hgraft.next⟩
    · rw [List.mem_singleton.1 hc] at hx
      exact ⟨Nat.le_trans h.next (hgraft.fresh x hx), hgraft.bound x hx⟩
  apart := by
    refine List.pairwise_append.2 ⟨h.apart, List.pairwise_singleton _ _, fun a ha b hb => ?_⟩
    rw [List.mem_singleton.1 hb]
    intro hmem
    refine absurd (hgraft.fresh _ hmem) (Nat.not_le.2 (h.bounds a ha a.2 ?_).2)
    simp [FieldTree.newNode, Forest.ids]
  shaped := hshaped

/-- A copy is taken back. -/
theorem Spread.discardOne (hf : Settled f) (hquiet : f.Quiet) {element id : NodeId}
    (h : Spread key kind formula f g ((element, id) :: copies)) : Ends (discardSubtree id g)
      (fun _ g' => Spread key kind formula f g' copies) (fun _ _ => False) := by
  have hwf := hf.current.tree
  have hbounds := h.bounds _ List.mem_cons_self id (by simp [FieldTree.newNode, Forest.ids])
  have hid : id ∉ f.tree.fields.ids := fun hm => Nat.not_lt.2 hbounds.1 (hwf.lt_next _ hm)
  have hroot : id ≠ rootId := Nat.ne_of_gt (Nat.lt_of_lt_of_le hwf.next_pos hbounds.1)
  have hwithout : g.tree.without id = (f.tree.withCopies key kind formula copies).withNext g.tree.next := by
    rw [h.tree, FieldTree.without_withNext, FieldTree.without_withCopies hid (List.pairwise_cons.1 h.apart).1]
    rfl
  have hplaced : (g.tree.place? id).isSome := by
    rw [h.tree]
    refine FieldTree.isSome_place?_of_mem_ids (FieldTree.mem_ids_withCopies List.mem_cons_self ?_)
    by_cases he : element = rootId
    · exact .inl he
    · obtain ⟨p, hp⟩ := Option.isSome_iff_exists.1 (h.placed _ List.mem_cons_self)
      exact .inr (FieldTree.mem_ids_of_place? he hp)
  refine (h.settled.discardSubtree (h.advance.quiet hquiet) hroot hplaced).mono ?_ fun _ _ he => he
  rintro _ g' ⟨hset, htree, hadv, hkeep⟩
  have hnext : g'.tree.next = g.tree.next := by
    rw [htree]
    rfl
  have hrest : ∀ copy ∈ copies, ∀ x ∈ (FieldTree.newNode copy.2 key kind formula).ids,
      f.tree.next ≤ x ∧ x < g.tree.next :=
    fun copy hc => h.bounds copy (List.mem_cons_of_mem _ hc)
  refine
    { settled := hset.mono fun x hx => hx.1
      advance := h.advance.trans hwf hadv
      keeps := hkeep f hf.coherent (fun x hx => ?_) h.keeps
      next := hnext ▸ h.next
      tree := by rw [htree, hwithout]; rfl
      placed := fun copy hc => h.placed copy (List.mem_cons_of_mem _ hc)
      bounds := hnext ▸ hrest
      apart := (List.pairwise_cons.1 h.apart).2
      shaped := fun hs => htree ▸ (h.shaped hs).without }
  -- What is below the copy has not been in the tree before.
  cases hF : f.graph.formula? x with
  | none => rfl
  | some F =>
    obtain ⟨q, hq, -⟩ := hf.current.place?_of_formula? hF
    have hnone := FieldTree.place?_without_of_within h.settled.current.tree.keyed hroot hx
    rw [hwithout, FieldTree.place?_withNext, FieldTree.place?_withCopies, hq] at hnone
    · simp at hnone
    · intro copy hcopy hx'
      exact Nat.not_lt.2 (hrest copy hcopy x hx').1 (FieldTree.lt_next_of_place? hwf hq)

/-- The copies are taken back one after the other. -/
theorem Spread.discardAll (hf : Settled f) (hquiet : f.Quiet)
    (h : Spread key kind formula f g copies) : Ends ((copies.map Prod.snd).forM discardSubtree g)
      (fun _ g' => Settled g' ∧ Undone f g' ∧ Advance f g') (fun _ _ => False) := by
  induction copies generalizing g with
  | nil => exact Ends.pure ⟨h.settled, h.undone, h.advance⟩
  | cons copy rest ih => exact Ends.bind ((h.discardOne hf hquiet).mono (fun _ _ hrest => ih hrest) fun _ _ he => he)

/-- An element refuses a copy because it has the key already. -/
structure Clashes (f : Form) (element : NodeId) (key : Step) (e : FormError) : Prop where
  error : e = .duplicateKey (f.tree.path element) key
  refused : f.tree.checkInsert element key = .error e

/-- How copying a node into elements can end too early. The copies from before are not those into these elements. -/
inductive BreaksOff (key : Step) (kind : Kind) (formula : Option String) (f g : Form) (copies : List (NodeId × NodeId))
    (elements : List NodeId) (e : FormError) (g' : Form) : Prop
  /-- A formula of the copies is at fault, and everything is taken back. -/
  | faulty (tried : List NodeId) (undone : Undone f g') (attempted : tried <+: elements)
      (free : ∀ x ∈ tried, f.tree.checkInsert x key = .ok ())
      (explains : (g.tree.withEach tried key kind formula).Explains e)
  /-- The very first element has the key. -/
  | refused (element : NodeId) (undone : Undone f g') (empty : copies = []) (first : element ∈ elements.head?)
      (clashes : Clashes f element key e)
  /-- An element behind the first one has the key, and the copies before it stay. -/
  | left (more : List (NodeId × NodeId)) (element : NodeId) (rest : List NodeId)
      (split : elements = more.map Prod.fst ++ element :: rest) (nonempty : copies ++ more ≠ [])
      (clashes : Clashes f element key e) (spread : Spread key kind formula f g' (copies ++ more))

/-- What ends the rest too early, ends the whole too early. -/
theorem BreaksOff.cons {element id : NodeId} {elements : List NodeId} {e : FormError} {g' : Form}
    (h : BreaksOff key kind formula f f' (copies ++ [(element, id)]) elements e g')
    (htree : f'.tree = g.tree.withNew element key kind formula)
    (hfree : f.tree.checkInsert element key = .ok ()) :
    BreaksOff key kind formula f g copies (element :: elements) e g' := by
  cases h with
  | faulty tried hundone htried hall hexplains =>
    rw [htree] at hexplains
    exact .faulty (element :: tried) hundone (List.cons_prefix_cons.2 ⟨rfl, htried⟩)
      (List.forall_mem_cons.2 ⟨hfree, hall⟩) hexplains
  | refused first hundone hnil =>
    simp at hnil
  | left more last rest hsplit hsome hclashes hspread =>
    exact .left ((element, id) :: more) last rest (by simp [hsplit]) (by simp) hclashes (by simpa using hspread)

section Copying

variable {name : String} {element : NodeId} {p : Place} (hf : Settled f) (hquiet : f.Quiet)
  (h : Spread (.name name) kind formula f g copies)
  (hsource : g.tree.Untouched source (.name name) kind formula)
  (hp : f.tree.place? element = some p) (hgroup : p.node.kind = .group)

include hf hquiet h hsource hp hgroup in
/-- What one more copy does, if the element does not have the key yet. -/
theorem Spread.copyOne (hroot : source ≠ rootId)
    (hapart : element ∉ (FieldTree.newNode source (.name name) kind formula).ids) {created : List NodeId}
    {t' : FieldTree} (hcopy : g.tree.copySubtree source element (.name name) = .ok (created, t')) :
    created.take 1 = [g.tree.next] ∧ Ends (Form.nodesAdded created { g with tree := t' })
      (fun _ g' => g'.tree = g.tree.withNew element (.name name) kind formula ∧
        g'.tree.Untouched source (.name name) kind formula ∧
        Spread (.name name) kind formula f g' (copies ++ [(element, g.tree.next)]))
      (fun e g' => (g.tree.withNew element (.name name) kind formula).Explains e ∧
        Spread (.name name) kind formula f g' copies) := by
  have hwf := hf.current.tree
  have hwf' := h.settled.current.tree
  obtain ⟨l, hl, hhead, hgraft, hadded⟩ := h.settled.copyAdded (h.advance.quiet hquiet) hcopy
  obtain rfl := hsource.copySubtree hcopy
  have ⟨l', hl', hnew⟩ := hsource
  obtain rfl := Option.some.inj (hl.symm.trans hl')
  have hnode : l.node = { kind, formula } := by
    simp only [FieldTree.newNode, Forest.cons.injEq] at hnew
    exact hnew.2.2.1
  rw [FieldTree.copied_newNode hnode hnew] at hgraft
  refine ⟨?_, hadded.mono ?_ ?_⟩
  · cases created with
    | nil => simp at hhead
    | cons a rest => simpa using hhead
  · rintro _ g' ⟨hset, htree, hadv, hkeeps⟩
    have hshaped : (FieldTree.newNode g.tree.next (.name name) kind formula).Shaped p.node.kind :=
      FieldTree.shaped_newNode _ _ _ _ (by rw [hgroup]; simp)
    exact ⟨htree, htree ▸ hsource.grafts hwf' hroot hgraft hapart,
      h.concat hwf (by rw [hp]; rfl) hset (htree ▸ hgraft)
        (fun hs => htree ▸ hgraft.shaped hwf' (h.shaped hs) (h.place? hwf hp) hshaped) hadv hkeeps⟩
  · rintro e g' ⟨hset, hundone, hadv, herror⟩
    exact ⟨herror, h.undo hset hundone hadv hwf⟩

include hf h hsource hp hgroup in
/-- A copy is refused by an element only because of its key. -/
theorem Spread.copyRefused (hnot : element ∉ copies.map Prod.fst) {e : FormError}
    (hcopy : g.tree.copySubtree source element (.name name) = .error e) :
    Clashes f element (.name name) e := by
  have hwf := hf.current.tree
  have ⟨l, hl, _⟩ := hsource
  have hp' := h.place? hwf hp
  have hcheck := FieldTree.checkInsert_of_copySubtree (FieldTree.locate?_eq_some hl).1 hcopy
  have he := FieldTree.checkInsert_error hp' hgroup hcheck
  rw [FieldTree.path_of_place? hp', ← FieldTree.path_of_place? hp] at he
  rw [h.checkInsert hwf hnot hp] at hcheck
  exact ⟨he, hcheck⟩

end Copying

/-- What copying a node into elements does. -/
theorem Spread.copyIntoElements (hf : Settled f) (hquiet : f.Quiet) {name : String}
    (hroot : source ≠ rootId)
    (elements : List NodeId)
    (helements : ∀ e ∈ elements, ∃ p, f.tree.place? e = some p ∧ p.node.kind = .group ∧
      e ∉ (FieldTree.newNode source (.name name) kind formula).ids)
    (h : Spread (.name name) kind formula f g copies)
    (hnodup : (copies.map Prod.fst ++ elements).Nodup)
    (hsource : g.tree.Untouched source (.name name) kind formula) :
    Ends (copyIntoElements source (.name name) (copies.map Prod.snd) elements g)
      (fun _ g' => g'.tree = g.tree.withEach elements (.name name) kind formula ∧
        ∃ more, more.map Prod.fst = elements ∧ Spread (.name name) kind formula f g' (copies ++ more))
      (fun e g' => Settled g' ∧ Advance f g' ∧ BreaksOff (.name name) kind formula f g copies elements e g') := by
  -- The copies that have been made are the invariant, and each element adds one.
  induction elements generalizing g copies with
  | nil => exact Ends.pure ⟨rfl, [], rfl, by rwa [List.append_nil]⟩
  | cons element rest ih =>
    obtain ⟨p, hp, hgroup, hapart⟩ := helements element List.mem_cons_self
    have hnot : element ∉ copies.map Prod.fst := fun hmem =>
      (List.nodup_append.1 hnodup).2.2 element hmem element List.mem_cons_self rfl
    unfold Form.copyIntoElements
    refine Ends.bind (FormM.ends_onTree ?_ ?_)
    · intro created t' hcopy
      have hfree : f.tree.checkInsert element (.name name) = .ok () :=
        (h.checkInsert hf.current.tree hnot hp).symm.trans (FieldTree.checkInsert_of_copied hcopy)
      obtain ⟨htake, hone⟩ := h.copyOne hf hquiet hsource hp hgroup hroot hapart hcopy
      rw [htake]
      cases hrun : Form.nodesAdded created { g with tree := t' } with
      | ok _ g₁ =>
        obtain ⟨htree, hsource', hspread⟩ := hone.of_ok hrun
        have hrest := ih (fun e he => helements e (List.mem_cons_of_mem _ he)) hspread (by simpa using hnodup) hsource'
        rw [List.map_append] at hrest
        refine hrest.mono ?_ fun e g' ⟨hset', hadv', hbroken⟩ => ⟨hset', hadv', hbroken.cons htree hfree⟩
        rintro _ g' ⟨htree', more, hmore, hspread'⟩
        refine ⟨?_, (element, g.tree.next) :: more, by simp [hmore], by simpa using hspread'⟩
        rw [htree', htree]
        rfl
      | error e g₁ =>
        obtain ⟨hexplains, hspread⟩ := hone.of_error hrun
        have hback := hspread.discardAll hf hquiet
        dsimp only
        cases hdiscard : (copies.map Prod.snd).forM Form.discardSubtree g₁ with
        | ok _ g₂ =>
          obtain ⟨hset', hundone', hadv'⟩ := hback.of_ok hdiscard
          exact ⟨hset', hadv', .faulty [element] hundone' (List.cons_prefix_cons.2 ⟨rfl, List.nil_prefix⟩)
            (List.forall_mem_singleton.2 hfree) hexplains⟩
        | error e' g₂ => exact (hback.of_error hdiscard).elim
    · intro e hcopy
      have hclashes := h.copyRefused hf hsource hp hgroup hnot hcopy
      refine ⟨h.settled, h.advance, ?_⟩
      cases copies with
      | nil => exact .refused element h.undone rfl rfl hclashes
      | cons copy copies => exact .left [] element rest rfl (by simp) hclashes (by simpa using h)

end LiveForm.Form
