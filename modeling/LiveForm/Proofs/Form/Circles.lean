import LiveForm.Proofs.Form.Coherence
import LiveForm.Proofs.Graph.Exploring
import LiveForm.Proofs.Graph.Reachability

/-!
# No formula depends on itself

A link is made only if it closes no circle, and the search that decides this finds a path exactly if there
is one. While the formula of a node is being connected only some of its bindings have been checked, so the
property is stated for the dependencies by an arbitrary choice of users and bindings.
-/

set_option autoImplicit false

namespace LiveForm

open Relation

/-- New edges close no circle if no edge leads from the end of one of them back to the start of one. -/
theorem not_transGen_of_extended {α : Type} {R R' E : α → α → Prop}
    (hsub : ∀ a b, R' a b → R a b ∨ E a b)
    (hR : ∀ a, ¬ TransGen R a a)
    (hE : ∀ a b a' b', E a b → E a' b' → ¬ ReflTransGen R b a') (x : α) : ¬ TransGen R' x x := by
  have hsplit : ∀ y, TransGen R' x y →
      TransGen R x y ∨ ∃ a b, E a b ∧ ReflTransGen R x a ∧ ReflTransGen R b y := by
    intro y hy
    induction hy with
    | single h =>
      rcases hsub _ _ h with h | h
      · exact .inl (.single h)
      · exact .inr ⟨_, _, h, .refl, .refl⟩
    | @tail y z _ h ih =>
      rcases hsub _ _ h with h | h
      · rcases ih with ih | ⟨a, b, hab, hxa, hby⟩
        · exact .inl (ih.tail h)
        · exact .inr ⟨a, b, hab, hxa, hby.tail h⟩
      · rcases ih with ih | ⟨a, b, hab, hxa, hby⟩
        · exact .inr ⟨_, _, h, ih.to_reflTransGen, .refl⟩
        · exact absurd hby (hE _ _ _ _ hab h)
  intro hx
  rcases hsplit x hx with h | ⟨a, b, hab, hxa, hbx⟩
  · exact hR x h
  · exact hE a b a b hab hab (hbx.trans hxa)

/-- A way back closes a circle. -/
theorem Search.IsWay.circular {R R' : NodeId → NodeId → Prop} {source target : NodeId} {way : List NodeId}
    (h : IsWay R source target way) (hsub : ∀ a b, R a b → R' a b) (hback : R' target source) :
    Graph.Circular R' way := by
  have hhead : way.take 1 = [source] := by
    cases way with
    | nil => cases h.head
    | cons a rest => exact congrArg (fun x => [x]) (Option.some.inj h.head)
  refine ⟨fun hnil => by simp [hnil] at hhead, h.nodup, ?_⟩
  rw [hhead]
  refine (h.chain.imp hsub).append (.singleton source) fun last hlast first hfirst => ?_
  obtain rfl : target = last := Option.some.inj (h.last.symm.trans hlast)
  obtain rfl : source = first := Option.some.inj hfirst
  exact hback

namespace Form

variable {f f' : Form} {unread : NodeId → Prop} {id : BindingId} {m n : NodeId}

/-- The formula of the second node reads the first one by a binding that is among the chosen ones. -/
def FeedsBy (chosen : NodeId → BindingId → Prop) (f : Form) (m n : NodeId) : Prop :=
  ∃ id, f.registry.Caches id m ∧ f.graph.Uses n id ∧ chosen n id

/-- No node depends on itself by the chosen bindings. -/
def AcyclicBy (chosen : NodeId → BindingId → Prop) (f : Form) : Prop :=
  ∀ n, ¬ TransGen (f.FeedsBy chosen) n n

/-- No node depends on itself. -/
def Acyclic (f : Form) : Prop :=
  ∀ n, ¬ TransGen f.Feeds n n

theorem acyclicBy_all : f.AcyclicBy (fun _ _ => True) ↔ f.Acyclic := by
  have h : f.FeedsBy (fun _ _ => True) = f.Feeds := by
    funext m n
    simp [FeedsBy, Feeds]
  rw [AcyclicBy, h, Acyclic]

/-- Fewer dependencies close no new circle. -/
theorem AcyclicBy.anti {chosen chosen' : NodeId → BindingId → Prop} (h : f.AcyclicBy chosen)
    (hsub : ∀ m n, f'.FeedsBy chosen' m n → f.FeedsBy chosen m n) : f'.AcyclicBy chosen' :=
  fun n hn => h n (TransGen.mono hsub _ _ hn)

theorem FeedsBy.feeds {chosen : NodeId → BindingId → Prop} (h : f.FeedsBy chosen m n) :
    f.Feeds m n := by
  obtain ⟨id, hm, hn, -⟩ := h
  exact ⟨id, hm, hn⟩

/-- The dependents of a node are the nodes that read it. -/
theorem CoherentBut.mem_dependents (h : CoherentBut { unread } f) :
    n ∈ f.dependents m ↔ f.Feeds m n := by
  simp only [dependents, Graph.dependents, Std.ExtTreeSet.mem_toList, Std.ExtTreeSet.mem_ofList,
    List.contains_iff_mem, List.mem_flatMap, Registry.mem_consumersOf, Feeds]
  refine exists_congr fun id => ?_
  rw [h.successors, h.consumers]
  simp

/-- A field that a formula reads is a vertex. -/
theorem CoherentBut.contains_of_feeds (h : CoherentBut { unread } f) (hfeeds : f.Feeds m n) :
    f.graph.contains m = true := by
  obtain ⟨id, hcache, -⟩ := hfeeds
  exact h.tidy.contains_iff.2 (.inr ⟨id, (h.successors id m).2 ⟨hcache, not_false⟩⟩)

theorem mem_consumers : n ∈ f.consumers ↔ ∃ id, f.registry.Serves id n := by
  simp only [consumers, Std.ExtTreeSet.mem_ofList, List.contains_iff_mem, List.mem_flatMap,
    Std.ExtTreeSet.mem_toList, Registry.Serves]
  constructor
  · rintro ⟨b, hb, hn⟩
    obtain ⟨id, hid⟩ := Registry.mem_values.1 hb
    exact ⟨id, b, hid, hn⟩
  · rintro ⟨id, b, hb, hn⟩
    exact ⟨b, Registry.mem_values.2 ⟨id, hb⟩, hn⟩

/-- A path is found exactly if there is one. -/
theorem CoherentBut.isSome_pathBetween? (h : CoherentBut { unread } f) :
    (f.pathBetween? m n).isSome ↔ ReflTransGen f.Feeds m n := by
  have hrel : (fun a b => b ∈ f.dependents a) = f.Feeds := by
    funext a b
    exact propext h.mem_dependents
  rw [pathBetween?, Search.isSome_path?, hrel]
  intro a b hb
  obtain ⟨id, -, huse⟩ := h.mem_dependents.1 hb
  have hserve : f.registry.Serves id b := (h.consumers id b).2 (.inl huse)
  by_cases hbm : b = m
  · exact .inl hbm
  · refine .inr ?_
    simp [mem_consumers.2 ⟨id, hserve⟩, Ne.symm hbm]

/-- A path that is found is a way along the dependencies. -/
theorem CoherentBut.isWay_of_pathBetween? (h : CoherentBut { unread } f) {way : List NodeId}
    (hway : f.pathBetween? m n = some way) : Search.IsWay f.Feeds m n way := by
  have hrel : (fun a b => b ∈ f.dependents a) = f.Feeds := by
    funext a b
    exact propext h.mem_dependents
  rw [← hrel]
  exact Search.isWay_of_path? hway (by simp)

/-- The error names a way from a formula that uses a binding to one of some fields: a link between the two would close a
circle. -/
def ClosesBy (id : BindingId) (fields : NodeId → Prop) (e : FormError) (f : Form) : Prop :=
  ∃ m c way, fields m ∧ f.graph.Uses c id ∧ Search.IsWay f.Feeds c m way ∧ e = f.cycleError way

theorem ClosesBy.error {fields : NodeId → Prop} {e : FormError} (h : f.ClosesBy id fields e) :
    ∃ paths, e = .cycle paths := by
  obtain ⟨m, c, way, -, -, -, rfl⟩ := h
  exact ⟨_, rfl⟩

theorem ClosesBy.reaches {fields : NodeId → Prop} {e : FormError} (h : f.ClosesBy id fields e) :
    ∃ m c, fields m ∧ f.graph.Uses c id ∧ ReflTransGen f.Feeds c m := by
  obtain ⟨m, c, way, hm, hu, hway, -⟩ := h
  exact ⟨m, c, hm, hu, hway.reflTransGen⟩

theorem ClosesBy.mono {fields fields' : NodeId → Prop} {e : FormError} (h : f.ClosesBy id fields e)
    (hsub : ∀ m, fields m → fields' m) : f.ClosesBy id fields' e := by
  obtain ⟨m, c, way, hm, hrest⟩ := h
  exact ⟨m, c, way, hsub m hm, hrest⟩

/-- Whatever relates what the links relate, and the fields to the formulas that use the binding, has the circle that the
error names. -/
theorem ClosesBy.circular {fields : NodeId → Prop} {e : FormError} {R : NodeId → NodeId → Prop}
    (h : f.ClosesBy id fields e) (hfeeds : ∀ m c, f.Feeds m c → R m c)
    (hfields : ∀ m c, fields m → f.graph.Uses c id → R m c) : ∃ circle, Graph.Circular R circle ∧ e = f.cycleError circle := by
  obtain ⟨m, c, way, hm, hu, hway, rfl⟩ := h
  exact ⟨way, hway.circular hfeeds (hfields m c hm hu), rfl⟩

/-- A link is refused exactly if a user of the binding leads to the field. -/
theorem CoherentBut.link_spec (h : CoherentBut { unread } f) : Ends (link id m f)
      (fun _ f' => f' = f.linked id m ∧ ∀ c, f.graph.Uses c id → ¬ ReflTransGen f.Feeds c m)
      (fun e f' => f' = f ∧ f.ClosesBy id (· = m) e) := by
  have huse (c : NodeId) : c ∈ f.registry.consumersOf id ↔ f.graph.Uses c id := by
    rw [Registry.mem_consumersOf, h.consumers]
    simp
  rw [link_eq]
  cases hfind : (f.registry.consumersOf id).findSome? (f.pathBetween? · m) with
  | none =>
    refine ⟨rfl, fun c hc hpath => ?_⟩
    have hnone := List.findSome?_eq_none_iff.1 hfind c ((huse c).2 hc)
    have hsome := h.isSome_pathBetween?.2 hpath
    simp [hnone] at hsome
  | some circle =>
    obtain ⟨c, hc, hcircle⟩ := List.exists_of_findSome?_eq_some hfind
    exact ⟨rfl, m, c, circle, rfl, (huse c).1 hc, h.isWay_of_pathBetween? hcircle, rfl⟩

/-- A link that is made closes no circle. -/
theorem AcyclicBy.linked {chosen : NodeId → BindingId → Prop} (h : f.AcyclicBy chosen)
    (hid : (f.registry.get? id).isSome)
    (hpath : ∀ c, f.graph.Uses c id → ¬ ReflTransGen f.Feeds c m) :
    (f.linked id m).AcyclicBy chosen := by
  refine not_transGen_of_extended (R := f.FeedsBy chosen)
    (E := fun a b => a = m ∧ f.graph.Uses b id) ?_ h ?_
  · rintro a b ⟨i, hi, ⟨F, hF, hmem⟩, hchosen⟩
    rw [formula?_linked] at hF
    rcases (caches_linked hid).1 hi with hi | ⟨rfl, rfl⟩
    · exact .inl ⟨i, hi, ⟨F, hF, hmem⟩, hchosen⟩
    · exact .inr ⟨rfl, F, hF, hmem⟩
  · rintro a b a' b' ⟨-, hb⟩ ⟨rfl, -⟩ hreach
    exact hpath b hb (ReflTransGen.mono (fun _ _ => FeedsBy.feeds) _ _ hreach)

theorem AcyclicBy.unlink {chosen : NodeId → BindingId → Prop} (h : f.AcyclicBy chosen) :
    (f.unlink id m).AcyclicBy chosen := by
  refine h.anti ?_
  rintro a b ⟨i, hi, ⟨F, hF, hmem⟩, hchosen⟩
  rw [formula?_unlink] at hF
  exact ⟨i, (caches_unlink.1 hi).1, ⟨F, hF, hmem⟩, hchosen⟩

end Form

end LiveForm
