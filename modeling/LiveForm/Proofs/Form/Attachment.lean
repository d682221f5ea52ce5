import LiveForm.Proofs.Form.Selecting

/-!
# Taking a node into the graph

A node is reported once it stands in the tree. Its formula is read and connected, and then the node is linked
with the bindings that stand for it. If all goes well the node is no longer new; if a link is refused, or the
formula cannot be read, nothing is left of it.
-/

set_option autoImplicit false

namespace LiveForm.Form

open Relation

variable {f f' f'' g : Form} {new : NodeId → Prop} {raw : BindingId → Prop} {n : NodeId} {id : BindingId}
  {unread : NodeId → Prop}

section Matching

/-- Matched with the tree again, a binding stands for what its selector does. -/
theorem FollowsBut.mem_fresh_fromScratch (h : FollowsBut new raw f) (ht : f.tree.Keyed) {b : Binding}
    (hb : f.registry.get? id = some b) {m : NodeId} :
    m ∈ b.fresh f.tree .fromScratch ↔ f.tree.Matches b.selector b.base m :=
  h.right.mem_fresh_fromScratch ht hb

/-- A binding accepts by their paths the fields that its selector stands for. -/
theorem FollowsBut.accepts_iff (h : FollowsBut new raw f) {b : Binding}
    (hb : f.registry.get? id = some b) {m : NodeId} :
    b.accepts f.tree m = true ↔ f.tree.Matches b.selector b.base m :=
  h.right.accepts_iff hb

theorem FollowsBut.mem_fresh_incremental (h : FollowsBut new raw f) {b : Binding}
    (hb : f.registry.get? id = some b) {m : NodeId} :
    m ∈ b.fresh f.tree .incremental ↔ m ∈ b.cache := by
  have hbound : f.registry.bound? id = some b.bound := by rw [Registry.bound?, hb, Option.map_some]
  simp only [Binding.fresh, Std.ExtTreeSet.mem_filter]
  constructor
  · rintro ⟨hm, -⟩
    exact hm
  · intro hm
    refine ⟨hm, ?_⟩
    have hmatch := h.cached id _ m hbound ⟨b, hb, hm⟩
    simpa using (h.accepts_iff hb).2 hmatch

end Matching

section Reading

/-- The form after the formula of a node was read. -/
def withFormula (f : Form) (n : NodeId) (F : Formula) (r : Registry) : Form :=
  { f with
    registry := r
    graph := (f.graph.update n ({ · with formula := some F })).outdated }.addPending [n]

variable {F : Formula} {r : Registry}

theorem get?_withFormula (x : NodeId) : (f.withFormula n F r).graph.get? x =
    if x = n then some { (f.graph.get? x).getD {} with formula := some F } else f.graph.get? x :=
  Graph.get?_update fun v => { v with formula := some F }

theorem formula?_withFormula (x : NodeId) :
    (f.withFormula n F r).graph.formula? x = if x = n then some F else f.graph.formula? x := by
  rw [Graph.formula?, get?_withFormula]
  split <;> rfl

theorem successors_withFormula (x : NodeId) :
    (f.withFormula n F r).graph.successors x = f.graph.successors x := by
  rw [Graph.successors, get?_withFormula, Graph.successors]
  split
  · cases f.graph.get? x <;> rfl
  · rfl

theorem predecessors_withFormula (x : NodeId) :
    (f.withFormula n F r).graph.predecessors x = f.graph.predecessors x := by
  rw [Graph.predecessors, get?_withFormula, Graph.predecessors]
  split
  · cases f.graph.get? x <;> rfl
  · rfl

theorem sameBeside_withFormula : SameBeside f (f.withFormula n F r) :=
  ⟨rfl, rfl, rfl, rfl⟩

theorem CoherentBut.not_serves (h : Coherent f) (hn : f.graph.formula? n = none) (id : BindingId) :
    ¬ f.registry.Serves id n := by
  intro hs
  obtain ⟨F, hF, -⟩ := ((h.consumers id n).1 hs).resolve_right not_false
  simp [hn] at hF

/-- Once the formula is read, all that is missing is what it reads. -/
theorem CoherentBut.withFormula (h : Coherent f) (hn : f.graph.formula? n = none)
    (hanchor : F.anchor = n) (htaken : Registry.Taken n F.bindings f.registry r) :
    CoherentBut { unread := (· = n) } (f.withFormula n F r) where
  successors id m := by
    rw [successors_withFormula, h.successors]
    have hc : (f.withFormula n F r).registry.Caches id m ↔ f.registry.Caches id m := htaken.caches
    rw [hc]
  consumers id c := by
    have hs : (f.withFormula n F r).registry.Serves id c ↔
        f.registry.Serves id c ∨ (c = n ∧ id ∈ F.bindings) := htaken.serves id c
    rw [hs, h.consumers]
    unfold Graph.Uses
    rw [formula?_withFormula]
    by_cases hc : c = n
    · subst hc
      simp [hn]
    · simp [hc]
  reads x hx m := by
    rw [predecessors_withFormula, h.reads x not_false]
    unfold Feeds Graph.Uses
    rw [formula?_withFormula, if_neg hx]
    refine exists_congr fun id => ?_
    have hc : (f.withFormula n F r).registry.Caches id m ↔ f.registry.Caches id m := htaken.caches
    rw [hc]
  unread x hx := by
    rw [formula?_withFormula, if_pos hx]
    rfl
  used id b hb := by
    have hserve : ∃ c, r.Serves id c := by
      cases hb' : f.registry.get? id with
      | none => exact ⟨n, (htaken.serves id n).2 (.inr ⟨rfl, (htaken.new id b hb hb').2⟩)⟩
      | some b' =>
        obtain ⟨c, hc⟩ := h.used id b' hb'
        exact ⟨c, (htaken.serves id c).2 (.inl ⟨b', hb', hc⟩)⟩
    obtain ⟨c, b'', hb'', hc⟩ := hserve
    have hget : r.get? id = some b := hb
    obtain rfl := Option.some.inj (hget.symm.trans hb'')
    exact ⟨c, hc⟩
  tidy := by
    have hidle (v : Vertex) : ({ v with formula := some F } : Vertex).isIdle = false := by
      simp [Vertex.isIdle]
    exact h.tidy.update hidle
  anchors x F' hF' := by
    rw [formula?_withFormula] at hF'
    split at hF'
    next hx =>
      obtain rfl := Option.some.inj hF'
      rw [hanchor, hx]
    next => exact h.anchors x F' hF'
  fresh := htaken.fresh

theorem marks_withFormula (htaken : Registry.Taken n F.bindings f.registry r) :
    MarksBut (fun _ => False) f (f.withFormula n F r) where
  formula x F' hF' hx := by
    have hxn : x ≠ n := by
      rintro rfl
      exact hx (mem_addPending.2 (.inr List.mem_cons_self))
    rw [formula?_withFormula, if_neg hxn] at hF'
    exact ⟨hF', not_false, fun id _ m => ⟨htaken.caches, fun _ => not_false⟩⟩
  pending x hx := .inl (mem_addPending.2 (.inl hx))

theorem keeps_withFormula (hn : f.graph.formula? n = none)
    (htaken : Registry.Taken n F.bindings f.registry r) : Keeps f (f.withFormula n F r) where
  formula x F' hF' := by
    rw [formula?_withFormula, if_neg, hF']
    rintro rfl
    simp [hn] at hF'
  bound _ _ hd := htaken.bound? hd

/-- The bindings that the formula uses may be new, and stand for nothing yet. -/
theorem FollowsBut.withFormula (h : FollowsBut new raw f) {e : String} (he : f.tree.FormulaAt n e)
    (hreads : F.Reads f.tree r n e) (hright : r.Right f.tree)
    (htaken : Registry.Taken n F.bindings f.registry r) :
    FollowsBut new (fun id => raw id ∨ (f.registry.bound? id = none ∧ id ∈ F.bindings))
      (f.withFormula n F r) where
  right := hright
  cached id d m hd hm := by
    have hm' := htaken.caches.1 hm
    have ⟨b, hb, _⟩ := hm'
    have hd' : f.registry.bound? id = some b.bound := by rw [Registry.bound?, hb, Option.map_some]
    obtain rfl : d = b.bound := Option.some.inj (hd.symm.trans (htaken.bound? hd'))
    exact h.cached id _ m hd' hm'
  complete id d m hd hraw hm hnm := by
    refine htaken.caches.2 ?_
    cases hb : f.registry.get? id with
    | none =>
      obtain ⟨b', hb', rfl⟩ := Option.map_eq_some_iff.1 hd
      refine absurd (.inr ⟨?_, (htaken.new id b' hb' hb).2⟩) hraw
      rw [Registry.bound?, hb, Option.map_none]
    | some b =>
      have hd' : f.registry.bound? id = some b.bound := by rw [Registry.bound?, hb, Option.map_some]
      obtain rfl : d = b.bound := Option.some.inj (hd.symm.trans (htaken.bound? hd'))
      exact h.complete id _ m hd' (fun hr => hraw (.inl hr)) hm hnm
  reads x F' hF' := by
    rw [formula?_withFormula] at hF'
    split at hF'
    next hx =>
      obtain rfl := Option.some.inj hF'
      exact ⟨e, hx ▸ he, hx ▸ hreads⟩
    next =>
      obtain ⟨e', he', hreads'⟩ := h.reads x F' hF'
      exact ⟨e', he', hreads'.congr rfl fun id _ d hd => ⟨d, htaken.bound? hd, rfl, rfl⟩⟩
  registered x e' he' hx := by
    rw [formula?_withFormula]
    split
    · rfl
    · exact h.registered x e' he' hx

theorem Acyclic.withFormula (h : f.Acyclic) (htaken : Registry.Taken n F.bindings f.registry r) :
    (f.withFormula n F r).AcyclicBy fun c _ => c ≠ n := by
  refine (acyclicBy_all.2 h).anti ?_
  rintro a b ⟨id, hc, ⟨F', hF', hid⟩, hb⟩
  rw [formula?_withFormula, if_neg hb] at hF'
  exact ⟨id, htaken.caches.1 hc, ⟨F', hF', hid⟩, trivial⟩

end Reading

section Connecting

/-- A binding in use is refused exactly if the node leads to what it stands for. -/
theorem CoherentBut.refuseCircle_spec (h : CoherentBut { unread } f) :
    Ends (refuseCircle n id f)
      (fun _ f' => f' = f ∧ ∀ m, f.registry.Caches id m → ¬ ReflTransGen f.Feeds n m)
      (fun e f' => f' = f ∧ ∃ m way, f.registry.Caches id m ∧ Search.IsWay f.Feeds n m way ∧ e = f.cycleError way) := by
  have hcached (m : NodeId) : m ∈ ((f.registry.get? id).map (·.cache.toList)).getD [] ↔
      f.registry.Caches id m := by
    unfold Registry.Caches
    cases f.registry.get? id <;> simp
  unfold refuseCircle
  dsimp only
  cases hfind : (((f.registry.get? id).map (·.cache.toList)).getD []).findSome?
      (f.pathBetween? n ·) with
  | none =>
    refine ⟨rfl, fun m hm hpath => ?_⟩
    have hnone := List.findSome?_eq_none_iff.1 hfind m ((hcached m).2 hm)
    have hsome := h.isSome_pathBetween?.2 hpath
    simp [hnone] at hsome
  | some circle =>
    obtain ⟨m, hm, hcircle⟩ := List.exists_of_findSome?_eq_some hfind
    exact ⟨rfl, m, circle, (hcached m).1 hm, h.isWay_of_pathBetween? hcircle, rfl⟩

/-- A binding that was not refused may count. -/
theorem AcyclicBy.choose {chosen : NodeId → BindingId → Prop} (h : f.AcyclicBy chosen)
    (hpath : ∀ m, f.registry.Caches id m → ¬ ReflTransGen f.Feeds n m) :
    f.AcyclicBy fun c i => chosen c i ∨ (c = n ∧ i = id) := by
  refine not_transGen_of_extended (R := f.FeedsBy chosen)
    (E := fun a b => b = n ∧ f.registry.Caches id a) ?_ h ?_
  · rintro a b ⟨i, hc, hu, hchosen | ⟨rfl, rfl⟩⟩
    · exact .inl ⟨i, hc, hu, hchosen⟩
    · exact .inr ⟨rfl, hc⟩
  · rintro a b a' b' ⟨rfl, -⟩ ⟨-, ha'⟩ hreach
    exact hpath a' ha' (ReflTransGen.mono (fun _ _ => FeedsBy.feeds) _ _ hreach)

/-- The bindings of a new formula are brought up to date one after the other. Circles by way of those that are left
have not been excluded yet. -/
structure Joining (n : NodeId) (rest : List BindingId) (g g' : Form) : Prop where
  coherent : CoherentBut { unread := (· = n) } g'
  relinked : Relinked g g'
  acyclic : g'.AcyclicBy fun c id => c ≠ n ∨ id ∉ rest
  levels : g'.graph.levels = none

/-- One of the bindings was refused: it closes a circle by a field that it stands for, as its cache says or as the
tree does. -/
structure Refused (id : BindingId) (b : Binding) (e : FormError) (f f' : Form) : Prop where
  synced : Synced id f f'
  closes : f'.ClosesBy id (fun m => f'.registry.Caches id m ∨ m ∈ b.fresh f.tree .fromScratch) e
  kept : ∀ m, m ∈ b.cache → m ∈ b.fresh f.tree .fromScratch → f'.registry.Caches id m
  caches : ∀ m, f'.registry.Caches id m → m ∈ b.cache ∨ m ∈ b.fresh f.tree .fromScratch

theorem Joining.weaken {rest rest' : List BindingId} (h : Joining n rest g f)
    (hsub : ∀ id ∈ rest, id ∈ rest') : Joining n rest' g f where
  coherent := h.coherent
  relinked := h.relinked
  acyclic := h.acyclic.anti fun _ _ ⟨id, hc, hu, hchosen⟩ =>
    ⟨id, hc, hu, hchosen.imp_right fun hid hmem => hid (hsub id hmem)⟩
  levels := h.levels

theorem Joining.synced {rest rest' : List BindingId} (h : Joining n rest g f) (hsync : Synced id f f')
    (hco : CoherentBut { unread := (· = n) } f') (hacyclic : f.AcyclicBy fun c id => c ≠ n ∨ id ∉ rest') :
    Joining n rest' g f' where
  coherent := hco
  relinked := h.relinked.trans hsync.relinked
  acyclic := hsync.acyclic _ hacyclic
  levels := hsync.levels.elim (fun heq => heq ▸ h.levels) fun hl => hl

/-- One of the bindings is checked and brought up to date. -/
theorem Joining.step {a : BindingId} {rest : List BindingId} (h : Joining n (a :: rest) g f) {b : Binding}
    (hb : f.registry.get? a = some b) (huse : f.graph.Uses n a) :
    Ends ((do refuseCircle n a; sync .fromScratch a : FormM Unit) f)
      (fun _ f' => Joining n rest g f' ∧ Synced a f f' ∧
        ∀ m, f'.registry.Caches a m ↔ m ∈ b.fresh f.tree .fromScratch)
      (fun e f' => Joining n (a :: rest) g f' ∧ Refused a b e f f') := by
  refine Ends.bind (h.coherent.refuseCircle_spec.mono ?_ ?_)
  · rintro _ f₁ ⟨rfl, hpath⟩
    have hacyclic : f₁.AcyclicBy fun c id => c ≠ n ∨ id ∉ rest := by
      refine (h.acyclic.choose hpath).anti ?_
      rintro x y ⟨id, hc, hu, hchosen⟩
      refine ⟨id, hc, hu, ?_⟩
      rcases hchosen with hy | hid
      · exact .inl (.inl hy)
      · by_cases hya : y = n ∧ id = a
        · exact .inr hya
        · refine .inl ?_
          by_cases hy : y = n
          · exact .inr fun hmem => (List.mem_cons.1 hmem).elim (fun hid' => hya ⟨hy, hid'⟩) hid
          · exact .inl hy
    refine (h.coherent.syncBy_spec hb .ascending).mono ?_ ?_
    · rintro _ f₂ ⟨hco, hsync, hcaches⟩
      exact ⟨h.synced hsync hco hacyclic, hsync, hcaches⟩
    · rintro e f₂ ⟨hco, hsync, hcloses, hcaches⟩
      exact ⟨h.synced hsync hco h.acyclic, hsync, hcloses.mono fun _ hm => .inr hm, fun m => (hcaches m).1,
        fun m hm => .inr ((hcaches m).2 hm)⟩
  · rintro e f₁ ⟨rfl, m, way, hm, hway, he⟩
    have hcache (x : NodeId) : f₁.registry.Caches a x ↔ x ∈ b.cache :=
      ⟨fun ⟨b', hb', hx⟩ => Option.some.inj (hb.symm.trans hb') ▸ hx, fun hx => ⟨b, hb, hx⟩⟩
    exact ⟨h, .refl a f₁, ⟨m, n, way, .inl hm, huse, hway, he⟩, fun x hx _ => (hcache x).2 hx,
      fun x hx => .inl ((hcache x).1 hx)⟩

/-- What connecting a new formula does. The predicate `P` is any further invariant of the steps. -/
theorem Joining.connect {ids : List BindingId} {P : List BindingId → Form → Prop} (h : Joining n ids f f)
    (hids : ∀ id ∈ ids, f.graph.Uses n id) (hP : P ids f)
    (hstep : ∀ a rest b g g', g.registry.get? a = some b → Relinked f g → Synced a g g' →
      (∀ m, g'.registry.Caches a m ↔ m ∈ b.fresh g.tree .fromScratch) → P (a :: rest) g → P rest g') :
    Ends (connect n ids f)
      (fun _ f' => ∃ g, Joining n [] f g ∧ P [] g ∧ f' = g.resetPredecessors n)
      (fun e f' => Joining n ids f f' ∧ ∃ a rest b g, g.registry.get? a = some b ∧ Relinked f g ∧
        (∀ id ∈ a :: rest, id ∈ ids) ∧ P (a :: rest) g ∧ Refused a b e g f') := by
  unfold Form.connect
  refine Ends.bind ((Ends.forM (I := fun rest g => Joining n rest f g ∧ (∀ id ∈ rest, id ∈ ids) ∧ P rest g)
    ?_ ⟨h, fun _ hid => hid, hP⟩).mono ?_ fun e f' he => he)
  · rintro a rest g ⟨hg, hsub, hPg⟩
    have huse := hg.relinked.uses.2 (hids a (hsub a List.mem_cons_self))
    obtain ⟨b, hb, -⟩ := (hg.coherent.consumers a n).2 (.inl huse)
    refine (hg.step hb huse).mono ?_ ?_
    · rintro _ g' ⟨hg', hsync, hcaches⟩
      exact ⟨hg', fun id hid => hsub id (List.mem_cons_of_mem _ hid),
        hstep a rest b g g' hb hg.relinked hsync hcaches hPg⟩
    · rintro e g' ⟨hg', hrefused⟩
      exact ⟨hg'.weaken hsub, a, rest, b, g, hb, hg.relinked, hsub, hPg, hrefused⟩
  · rintro _ g ⟨hg, -, hPg⟩
    exact FormM.ends_update ⟨g, hg, hPg, rfl⟩

theorem Consistent.joining (h : Consistent f) (hn : f.graph.formula? n = none) {F : Formula} {r : Registry}
    (hanchor : F.anchor = n) (htaken : Registry.Taken n F.bindings f.registry r) :
    Joining n F.bindings (f.withFormula n F r) (f.withFormula n F r) where
  coherent := h.coherent.withFormula hn hanchor htaken
  relinked := .refl _
  acyclic := (h.acyclic.withFormula htaken).anti fun a b ⟨id, hc, ⟨F', hF', hid⟩, hb⟩ => by
    refine ⟨id, hc, ⟨F', hF', hid⟩, hb.elim (fun hb => hb) fun hnot => ?_⟩
    rintro rfl
    rw [formula?_withFormula, if_pos rfl] at hF'
    exact hnot (Option.some.inj hF' ▸ hid)
  levels := rfl

/-- Once all bindings are up to date. -/
theorem Joining.finish (h : Joining n [] g f) : Consistent (f.resetPredecessors n) ∧
    Relinked f (f.resetPredecessors n) := by
  have hrelinked : Relinked f (f.resetPredecessors n) := relinked_resetPredecessors
  refine ⟨⟨?_, ?_, ?_⟩, hrelinked⟩
  · exact (h.coherent.resetPredecessors (n := n)).of_unread fun x hx => hx.2 hx.1
  · rw [← acyclicBy_all]
    refine h.acyclic.anti ?_
    rintro x y ⟨id, hc, ⟨F, hF, hid⟩, -⟩
    exact ⟨id, hc, ⟨F, (hrelinked.formula y) ▸ hF, hid⟩, .inr (by simp)⟩
  · intro levels hlevels
    rw [levels_resetPredecessors, h.levels] at hlevels
    simp at hlevels

/-- If a binding is refused, the node leaves again. -/
theorem Joining.detach {rest : List BindingId} (h : Joining n rest g f) :
    Consistent (f.detach n) ∧ Detached n f (f.detach n) := by
  have hdet : Detached n f (f.detach n) := h.coherent.detach_spec fun _ hx => hx
  refine ⟨⟨hdet.coherent, ?_, ?_⟩, hdet⟩
  · exact hdet.acyclic (h.acyclic.anti fun a b ⟨id, hc, hu, hb⟩ => ⟨id, hc, hu, .inl hb⟩)
  · refine hdet.levels.levelsRight fun levels hlevels => ?_
    simp [h.levels] at hlevels

theorem attachFormula_eq (n : NodeId) (e : String) (f : Form) : Form.attachFormula n e f =
    match Formula.parse f.tree n e f.registry with
    | .ok F r => FormM.orUndo (Form.connect n F.bindings) (·.detach n) (f.withFormula n F r)
    | .error error r => .error error { f with registry := r } := by
  have hbind : Form.attachFormula n e f = EStateM.bind
      (FormM.onRegistry (Formula.parse f.tree n e)) (fun F => do
        FormM.update fun f =>
          { f with graph := (f.graph.update n ({ · with formula := some F })).outdated }.addPending
            [n]
        FormM.orUndo (Form.connect n F.bindings) (·.detach n)) f := rfl
  rw [hbind, EStateM.bind, FormM.onRegistry]
  cases Formula.parse f.tree n e f.registry <;> rfl

theorem uses_withFormula {F : Formula} {r : Registry} (hid : id ∈ F.bindings) :
    (f.withFormula n F r).graph.Uses n id :=
  ⟨F, by rw [formula?_withFormula, if_pos rfl], hid⟩

/-- The new formula's bindings are current once they are up to date. -/
theorem CurrentBut.synced (h : CurrentBut new raw f) {b : Binding} (hb : f.registry.get? id = some b)
    (hsync : Synced id f f') (hcaches : ∀ m, f'.registry.Caches id m ↔ m ∈ b.fresh f.tree .fromScratch) :
    CurrentBut new (fun i => raw i ∧ i ≠ id) f' := by
  have hbound : f.registry.bound? id = some b.bound := by rw [Registry.bound?, hb, Option.map_some]
  have hmatch (m : NodeId) : m ∈ b.fresh f.tree .fromScratch ↔ f.tree.Matches b.selector b.base m :=
    h.follows.mem_fresh_fromScratch h.tree.keyed hb
  refine h.relinked hsync.relinked (fun i d m hd hm => ?_) (fun i d m hd hraw hm hnew => ?_) h.registered
  · by_cases hi : i = id
    · subst hi
      obtain rfl := Option.some.inj (hbound.symm.trans hd)
      exact (hmatch m).1 ((hcaches m).1 hm)
    · exact h.cached i d m hd ((hsync.others i m hi).1 hm)
  · by_cases hi : i = id
    · subst hi
      obtain rfl := Option.some.inj (hbound.symm.trans hd)
      exact (hcaches m).2 ((hmatch m).2 hm)
    · exact (hsync.others i m hi).2 (h.complete i d m hd (fun hr => hraw ⟨hr, hi⟩) hm hnew)

/-- A refused binding tells of a circle in the tree, and its cache holds nothing that is wrong. -/
theorem CurrentBut.refused (h : CurrentBut new raw f) {b : Binding} (hb : f.registry.get? id = some b) {e : FormError}
    (hrefused : Refused id b e f f') : CurrentBut new raw f' ∧ f.tree.Explains e := by
  have hbound : f.registry.bound? id = some b.bound := by rw [Registry.bound?, hb, Option.map_some]
  have hmatch (m : NodeId) : m ∈ b.fresh f.tree .fromScratch ↔ f.tree.Matches b.selector b.base m :=
    h.follows.mem_fresh_fromScratch h.tree.keyed hb
  have hold (m : NodeId) (hm : m ∈ b.cache) : f.tree.Matches b.selector b.base m :=
    h.cached id _ m hbound ⟨b, hb, hm⟩
  have hcached (m : NodeId) (hm : f'.registry.Caches id m) : f.tree.Matches b.selector b.base m :=
    (hrefused.caches m hm).elim (hold m) (hmatch m).1
  have hcur : CurrentBut new raw f' := by
    refine h.relinked hrefused.synced.relinked (fun i d m hd hm => ?_) (fun i d m hd hraw hm hnew => ?_) h.registered
    · by_cases hi : i = id
      · subst hi
        obtain rfl := Option.some.inj (hbound.symm.trans hd)
        exact hcached m hm
      · exact h.cached i d m hd ((hrefused.synced.others i m hi).1 hm)
    · have hc := h.complete i d m hd hraw hm hnew
      by_cases hi : i = id
      · subst hi
        obtain rfl := Option.some.inj (hbound.symm.trans hd)
        obtain ⟨b', hb', hm'⟩ := hc
        obtain rfl := Option.some.inj (hb.symm.trans hb')
        exact hrefused.kept m hm' ((hmatch m).2 hm)
      · exact (hrefused.synced.others i m hi).2 hc
  have htree : f'.tree = f.tree := hrefused.synced.relinked.beside.tree
  refine ⟨hcur, .inl ?_⟩
  rw [← htree]
  refine hcur.follows.linksAmong.circular ((hrefused.synced.relinked.bound id).trans hbound) (fun m hm => ?_) hrefused.closes
  rw [htree]
  exact hm.elim (hcached m) (hmatch m).1

end Connecting

/-- What lies between two states of a form in the course of an edit: the tree is not touched, what has changed is
pending, and nothing that the first state knows is given up. -/
structure Progress (f f' : Form) : Prop where
  beside : SameBeside f f'
  marks : Marks f f'
  keeps : Keeps f f'

theorem Relinked.progress (h : Relinked f f') : Progress f f' :=
  ⟨h.beside, h.marks, h.keeps⟩

theorem Progress.refl (f : Form) : Progress f f :=
  ⟨.refl f, .refl f, .refl f⟩

theorem Progress.trans (h : Progress f f') (h' : Progress f' f'') : Progress f f'' :=
  ⟨h.beside.trans h'.beside, h.marks.trans h'.marks, h.keeps.trans h'.keeps⟩

/-- A node that had no formula before may leave again. -/
theorem Progress.detached (h : Progress f f') (hco : Coherent f)
    (hn : f.graph.formula? n = none) (hdet : Detached n f' f'') : Progress f f'' :=
  ⟨h.beside.trans hdet.beside, h.marks.trans hdet.marks, h.keeps.detached hco hn hdet⟩

/-- Only the bindings matter, not the seats that they may take. -/
theorem CoherentBut.of_bindings {gaps : Gaps} (h : CoherentBut gaps f) {r : Registry}
    (hr : r.bindings = f.registry.bindings) (hfresh : r.Fresh) :
    CoherentBut gaps { f with registry := r } ∧ Relinked f { f with registry := r } ∧
      ∀ id m, r.Caches id m ↔ f.registry.Caches id m := by
  have hget (id : BindingId) : r.get? id = f.registry.get? id := by
    rw [Registry.get?, hr, Registry.get?]
  have hcaches (id : BindingId) (m : NodeId) : r.Caches id m ↔ f.registry.Caches id m := by
    rw [Registry.Caches, hget, Registry.Caches]
  have hserves (id : BindingId) (m : NodeId) : r.Serves id m ↔ f.registry.Serves id m := by
    rw [Registry.Serves, hget, Registry.Serves]
  refine ⟨?_, ?_, hcaches⟩
  · exact
      { successors := fun id m => by rw [hcaches]; exact h.successors id m
        consumers := fun id c => by rw [hserves]; exact h.consumers id c
        reads := fun x hx m => by
          unfold Feeds
          simp only [hcaches]
          exact h.reads x hx m
        unread := h.unread
        used := fun id b hb => h.used id b (by rwa [hget] at hb)
        tidy := h.tidy
        anchors := h.anchors
        fresh := hfresh }
  · exact
      { beside := ⟨rfl, rfl, rfl, rfl⟩
        formula := fun _ => rfl
        bound := fun id => by rw [Registry.bound?, hget, Registry.bound?]
        marks := ⟨fun _ => False,
          { formula := fun _ _ hF _ =>
              ⟨hF, not_false, fun id _ m => ⟨hcaches id m, fun _ => not_false⟩⟩
            pending := fun _ hx => .inl hx }⟩ }

theorem Consistent.of_bindings (h : Consistent f) {r : Registry} (hr : r.bindings = f.registry.bindings)
    (hfresh : r.Fresh) : Consistent { f with registry := r } := by
  obtain ⟨hco, -, hcaches⟩ := h.coherent.of_bindings hr hfresh
  have hfeeds (m n : NodeId) : ({ f with registry := r } : Form).Feeds m n ↔ f.Feeds m n := by
    unfold Feeds
    simp only [hcaches]
  exact ⟨hco, fun x hx => h.acyclic x (Relation.TransGen.mono (fun a b => (hfeeds a b).1) _ _ hx), h.levels⟩

theorem Upkept.of_bindings (h : Upkept new f) {r : Registry} (hr : r.bindings = f.registry.bindings)
    (hfresh : r.Fresh) : Upkept new { f with registry := r } ∧ Relinked f { f with registry := r } ∧
      ∀ id m, r.Caches id m ↔ f.registry.Caches id m := by
  obtain ⟨-, hrel, hcaches⟩ := h.coherent.of_bindings hr hfresh
  refine ⟨(h.consistent.of_bindings hr hfresh).upkept ?_, hrel, hcaches⟩
  refine h.current.relinked hrel (fun id d m hd hm => ?_) (fun id d m hd hraw hm hn => ?_)
    h.current.registered
  · exact h.current.cached id d m hd ((hcaches id m).1 hm)
  · exact (hcaches id m).2 (h.current.complete id d m hd hraw hm hn)

/-- A node without a formula was rejected: no formula has changed, and no binding stands for the node now that
did not do so before. The error says what is wrong with the tree. -/
structure Rejected (n : NodeId) (e : FormError) (f f' : Form) : Prop where
  formula : ∀ x, f'.graph.formula? x = f.graph.formula? x
  caches : ∀ id, f'.registry.Caches id n → f.registry.Caches id n
  error : f.tree.Explains e

/-- Reading and connecting the formula of a node. -/
theorem Upkept.attachFormula (h : Upkept new f) (hnew : new n) {e : String}
    (he : f.tree.FormulaAt n e) (hn : f.graph.formula? n = none) :
    Ends (attachFormula n e f)
      (fun _ f' => Upkept new f' ∧ Progress f f' ∧ (f'.graph.formula? n).isSome ∧
        ∀ x, x ≠ n → f'.graph.formula? x = f.graph.formula? x)
      (fun error f' => Upkept new f' ∧ Progress f f' ∧ Rejected n error f f') := by
  obtain ⟨q, hq, hlive, -⟩ := id he
  have hparse := Formula.parse_spec (t := f.tree) h.coherent.fresh (h.coherent.not_serves hn)
    h.coherent.used e
  have hright := Formula.parse_right h.current.tree.keyed hq hlive h.current.right h.coherent.fresh e
  rw [attachFormula_eq]
  cases hp : Formula.parse f.tree n e f.registry with
  | error error r =>
    obtain ⟨hbindings, hfresh, herror, hnot⟩ := hparse.of_error hp
    obtain ⟨hup, hrel, hcaches⟩ := h.of_bindings hbindings hfresh
    exact ⟨hup, hrel.progress, fun x => hrel.formula x, fun id hc => (hcaches id n).1 hc,
      .inr ⟨herror, n, e, he, hnot⟩⟩
  | ok F r =>
    obtain ⟨hanchor, htaken⟩ := hparse.of_ok hp
    obtain ⟨hrr, hreads⟩ := hright.of_ok hp
    have hcur : CurrentBut new (fun id => f.registry.bound? id = none ∧ id ∈ F.bindings) (f.withFormula n F r) :=
      ((h.current.follows.withFormula he hreads hrr htaken).mono (fun _ hx => hx) fun _ hid =>
        hid.resolve_left not_false).current h.current.tree
    have hprogress : Progress f (f.withFormula n F r) :=
      ⟨sameBeside_withFormula, ⟨_, marks_withFormula htaken⟩, keeps_withFormula hn htaken⟩
    have hconnect := (h.consistent.joining hn hanchor htaken).connect
      (P := fun rest g => CurrentBut new (fun id => f.registry.bound? id = none ∧ id ∈ rest) g)
      (fun id hid => uses_withFormula hid) hcur fun a rest b g g' hb _ hsync hcaches hg =>
        (hg.synced hb hsync hcaches).mono (fun _ hx => hx) fun i ⟨⟨hi, hmem⟩, hne⟩ =>
          ⟨hi, (List.mem_cons.1 hmem).resolve_left hne⟩
    refine FormM.ends_orUndo (hconnect.mono ?_ ?_)
    · rintro _ f' ⟨g, hg, hgcur, rfl⟩
      obtain ⟨hcons, hrel⟩ := hg.finish
      refine ⟨hcons.upkept ?_, hprogress.trans (hg.relinked.trans hrel).progress, ?_, fun x hx => ?_⟩
      · refine hgcur.relinked hrel hgcur.cached ?_ hgcur.registered
        exact fun id d m hd _ hm hn => hgcur.complete id d m hd (fun hc => by simp at hc) hm hn
      · rw [hrel.formula, hg.relinked.formula, formula?_withFormula, if_pos rfl]
        rfl
      · rw [hrel.formula, hg.relinked.formula, formula?_withFormula, if_neg hx]
    · rintro error f' ⟨hj, a, rest, b, g, hb, hrel, hsub, hgcur, hrefused⟩
      obtain ⟨hcons, hdet⟩ := hj.detach
      obtain ⟨hcur', hexplains⟩ := hgcur.refused hb hrefused
      have hcur := hcur'.detached hdet fun id hid c hc => by
        by_contra hcn
        obtain ⟨F', hF', hmem⟩ := hj.relinked.uses.1 hc
        rw [formula?_withFormula, if_neg hcn] at hF'
        obtain ⟨b, hb, -⟩ := (h.coherent.consumers id c).2 (.inl ⟨F', hF', hmem⟩)
        simp [Registry.bound?, hb] at hid
      refine ⟨hcons.upkept (hcur.mono (fun x hx => hx.elim (fun hx => hx) fun hx => hx ▸ hnew) fun _ hid => hid),
        (hprogress.trans hj.relinked.progress).detached h.coherent hn hdet, fun x => ?_,
        fun id hc => absurd rfl ((hdet.caches id n).1 hc).2.1, ?_⟩
      · rw [hdet.formula, hj.relinked.formula, formula?_withFormula]
        split
        next hx => rw [hx, hn]
        next => rfl
      · rwa [hrel.beside.tree] at hexplains

/-- Reading and connecting a formula keeps the graph and the registry in agreement, whatever the tree is like. -/
theorem Consistent.attachFormula (h : Consistent f) (hn : f.graph.formula? n = none) (e : String) :
    Ends (attachFormula n e f) (fun _ f' => Consistent f' ∧ SameBeside f f')
      (fun _ f' => Consistent f' ∧ SameBeside f f') := by
  have hparse := Formula.parse_spec (t := f.tree) h.coherent.fresh (h.coherent.not_serves hn)
    h.coherent.used e
  rw [attachFormula_eq]
  cases hp : Formula.parse f.tree n e f.registry with
  | error error r =>
    obtain ⟨hbindings, hfresh, -⟩ := hparse.of_error hp
    exact ⟨h.of_bindings hbindings hfresh, rfl, rfl, rfl, rfl⟩
  | ok F r =>
    obtain ⟨hanchor, htaken⟩ := hparse.of_ok hp
    have hconnect := (h.joining hn hanchor htaken).connect (P := fun _ _ => True)
      (fun id hid => uses_withFormula hid) trivial fun _ _ _ _ _ _ _ _ _ _ => trivial
    refine FormM.ends_orUndo (hconnect.mono ?_ ?_)
    · rintro _ f' ⟨g, hg, -, rfl⟩
      obtain ⟨hcons, hrel⟩ := hg.finish
      exact ⟨hcons, sameBeside_withFormula.trans (hg.relinked.trans hrel).beside⟩
    · rintro error f' ⟨hj, -⟩
      obtain ⟨hcons, hdet⟩ := hj.detach
      exact ⟨hcons, (sameBeside_withFormula.trans hj.relinked.beside).trans hdet.beside⟩

end LiveForm.Form
