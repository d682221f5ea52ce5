import LiveForm.Proofs.Form.Circles

/-!
# Bringing the cache of a binding up to date

Afterwards the cache holds what it should, the other caches are as they were, and no circle was closed. If a
link is refused, the cache lacks some of what it should hold.
-/

set_option autoImplicit false

namespace LiveForm.Form

variable {f f' f'' : Form} {unread : NodeId → Prop} {id : BindingId} {mode : Refresh}

/-- A form is the result of removing and making links of a single binding: only its cache has changed, and no
circle was closed. -/
structure Synced (id : BindingId) (f f' : Form) : Prop where
  relinked : Relinked f f'
  others : ∀ i m, i ≠ id → (f'.registry.Caches i m ↔ f.registry.Caches i m)
  acyclic : ∀ chosen, f.AcyclicBy chosen → f'.AcyclicBy chosen
  levels : LevelsDue f f'

theorem Synced.refl (id : BindingId) (f : Form) : Synced id f f :=
  ⟨.refl f, fun _ _ _ => Iff.rfl, fun _ h => h, .refl f⟩

theorem Synced.trans (h : Synced id f f') (h' : Synced id f' f'') : Synced id f f'' where
  relinked := h.relinked.trans h'.relinked
  others i m hi := (h'.others i m hi).trans (h.others i m hi)
  acyclic chosen hc := h'.acyclic chosen (h.acyclic chosen hc)
  levels := h.levels.trans h'.levels

theorem CoherentBut.synced_unlink (h : CoherentBut { unread } f) {m : NodeId} :
    Synced id f (f.unlink id m) where
  relinked := h.relinked_unlink
  others i x hi := by
    rw [caches_unlink]
    simp [hi]
  acyclic _ hc := hc.unlink
  levels := .of_none levels_unlink

theorem CoherentBut.synced_linked (h : CoherentBut { unread } f) {m : NodeId}
    (hid : (f.registry.get? id).isSome)
    (hpath : ∀ c, f.graph.Uses c id → ¬ Relation.ReflTransGen f.Feeds c m) :
    Synced id f (f.linked id m) where
  relinked := h.relinked_linked hid
  others i x hi := by
    rw [caches_linked hid]
    simp [hi]
  acyclic _ hc := hc.linked hid hpath
  levels := .of_none levels_linked

/-- Links of a binding are removed one after the other. -/
theorem CoherentBut.foldl_unlink (h : CoherentBut { unread } f) (fields : List NodeId) :
    CoherentBut { unread } (fields.foldl (·.unlink id ·) f) ∧
      Synced id f (fields.foldl (·.unlink id ·) f) ∧
      ∀ m, (fields.foldl (·.unlink id ·) f).registry.Caches id m ↔
        f.registry.Caches id m ∧ m ∉ fields := by
  induction fields generalizing f with
  | nil => exact ⟨h, .refl id f, by simp⟩
  | cons a rest ih =>
    obtain ⟨hco, hsync, hcache⟩ := ih (h.unlink (m := a))
    refine ⟨hco, h.synced_unlink.trans hsync, fun m => ?_⟩
    rw [List.foldl_cons, hcache, caches_unlink, List.mem_cons, not_or]
    simp [and_assoc]

theorem Relinked.isSome_get? (h : Relinked f f') {i : BindingId} :
    (f'.registry.get? i).isSome = (f.registry.get? i).isSome := by
  have hb := h.bound i
  unfold Registry.bound? at hb
  have := congrArg Option.isSome hb
  simpa using this

/-- Links of a binding are made one after the other, up to the first one that is refused. -/
theorem CoherentBut.forM_link (h : CoherentBut { unread } f) (hid : (f.registry.get? id).isSome)
    (fields : List NodeId) : Ends (fields.forM (link id) f)
      (fun _ f' => CoherentBut { unread } f' ∧ Synced id f f' ∧
        ∀ m, f'.registry.Caches id m ↔ f.registry.Caches id m ∨ m ∈ fields)
      (fun e f' => CoherentBut { unread } f' ∧ Synced id f f' ∧ f'.ClosesBy id (· ∈ fields) e ∧
        ∀ m, (f.registry.Caches id m → f'.registry.Caches id m) ∧
          (f'.registry.Caches id m → f.registry.Caches id m ∨ m ∈ fields)) := by
  have hloop : Ends (fields.forM (link id) f) _
      fun e f' => CoherentBut { unread } f' ∧ Synced id f f' ∧ f'.ClosesBy id (· ∈ fields) e ∧
        ∀ m, (f.registry.Caches id m → f'.registry.Caches id m) ∧
          (f'.registry.Caches id m → f.registry.Caches id m ∨ m ∈ fields) :=
    Ends.forM (I := fun rest f' => CoherentBut { unread } f' ∧ Synced id f f' ∧ (∀ m ∈ rest, m ∈ fields) ∧
      ∀ m, (f.registry.Caches id m ∨ m ∈ fields ↔ f'.registry.Caches id m ∨ m ∈ rest) ∧
        (f.registry.Caches id m → f'.registry.Caches id m)) ?_
      ⟨h, .refl id f, fun _ hm => hm, fun m => ⟨Iff.rfl, fun hm => hm⟩⟩
  · refine hloop.mono ?_ fun _ _ he => he
    rintro _ f' ⟨hco, hsync, -, hcache⟩
    refine ⟨hco, hsync, fun m => ?_⟩
    rw [(hcache m).1]
    simp
  · rintro a rest s ⟨hco, hsync, hsub, hcache⟩
    have hs : (s.registry.get? id).isSome := by rwa [hsync.relinked.isSome_get?]
    refine hco.link_spec.mono ?_ ?_
    · rintro _ f' ⟨rfl, hpath⟩
      refine ⟨hco.linked hs, hsync.trans (hco.synced_linked hs hpath),
        fun m hm => hsub m (List.mem_cons_of_mem _ hm), fun m => ⟨?_, ?_⟩⟩
      · rw [(hcache m).1, caches_linked hs, List.mem_cons, ← or_assoc]
        simp
      · intro hm
        exact (caches_linked hs).2 (.inl ((hcache m).2 hm))
    · rintro e f' ⟨rfl, hcloses⟩
      exact ⟨hco, hsync, hcloses.mono fun m hm => hm ▸ hsub a List.mem_cons_self,
        fun m => ⟨(hcache m).2, fun hm => (hcache m).1.2 (.inl hm)⟩⟩

/-- What bringing the cache of a binding up to date does. -/
theorem CoherentBut.syncBy_spec (h : CoherentBut { unread } f) {b : Binding}
    (hb : f.registry.get? id = some b) (order : VisitOrder) :
    Ends (syncBy order mode id f)
      (fun _ f' => CoherentBut { unread } f' ∧ Synced id f f' ∧
        ∀ m, f'.registry.Caches id m ↔ m ∈ b.fresh f.tree mode)
      (fun e f' => CoherentBut { unread } f' ∧ Synced id f f' ∧ f'.ClosesBy id (· ∈ b.fresh f.tree mode) e ∧
        ∀ m, (m ∈ b.cache → m ∈ b.fresh f.tree mode → f'.registry.Caches id m) ∧
          (f'.registry.Caches id m → m ∈ b.fresh f.tree mode)) := by
  have hcache (m : NodeId) : f.registry.Caches id m ↔ m ∈ b.cache := by
    simp [Registry.Caches, hb]
  have hremoved (m : NodeId) : m ∈ order.removed id (b.diff (b.fresh f.tree mode)).removed.toList ↔
      m ∈ b.cache ∧ m ∉ b.fresh f.tree mode := by
    rw [(order.removed_perm id _).mem_iff, Std.ExtTreeSet.mem_toList, Binding.mem_removed_diff]
  have hadded (m : NodeId) : m ∈ order.added id (b.diff (b.fresh f.tree mode)).added.toList ↔
      m ∈ b.fresh f.tree mode ∧ m ∉ b.cache := by
    rw [(order.added_perm id _).mem_iff, Std.ExtTreeSet.mem_toList, Binding.mem_added_diff]
  have heq : syncBy order mode id f =
      (order.added id (b.diff (b.fresh f.tree mode)).added.toList).forM (link id)
        ((order.removed id (b.diff (b.fresh f.tree mode)).removed.toList).foldl
          (·.unlink id ·) f) := by
    simp only [syncBy, Registry.fresh?, Registry.diff, hb, Option.map_some, Option.getD_some]
  rw [heq]
  obtain ⟨hco, hsync, hun⟩ := h.foldl_unlink
    (order.removed id (b.diff (b.fresh f.tree mode)).removed.toList)
  have hsome : ((List.foldl (·.unlink id ·) f
      (order.removed id (b.diff (b.fresh f.tree mode)).removed.toList)).registry.get? id).isSome := by
    rw [hsync.relinked.isSome_get?, hb]
    rfl
  refine (hco.forM_link hsome _).mono ?_ ?_
  · rintro _ f' ⟨hco', hsync', hlinks⟩
    refine ⟨hco', hsync.trans hsync', fun m => ?_⟩
    rw [hlinks, hun, hremoved, hadded, hcache]
    grind
  · rintro e f' ⟨hco', hsync', hcloses, hlinks⟩
    refine ⟨hco', hsync.trans hsync', hcloses.mono fun x hx => ((hadded x).1 hx).1,
      fun m => ⟨fun hm hf => ?_, fun hm => ?_⟩⟩
    · refine (hlinks m).1 ((hun m).2 ⟨(hcache m).2 hm, ?_⟩)
      rw [hremoved]
      grind
    · have := (hlinks m).2 hm
      rw [hun, hremoved, hadded, hcache] at this
      grind

/-- A binding whose cache holds what it should is left alone. -/
theorem syncBy_of_current {b : Binding} (hb : f.registry.get? id = some b) (order : VisitOrder)
    (hfresh : ∀ m, m ∈ b.fresh f.tree mode ↔ m ∈ b.cache) :
    syncBy order mode id f = .ok () f := by
  have hset : b.fresh f.tree mode = b.cache := Std.ExtTreeSet.ext_mem fun m => hfresh m
  have hr : order.removed id (∅ : NodeSet).toList = [] :=
    ((order.removed_perm id _).trans (by simp)).eq_nil
  have ha : order.added id (∅ : NodeSet).toList = [] :=
    ((order.added_perm id _).trans (by simp)).eq_nil
  simp only [syncBy, Registry.fresh?, Registry.diff, hb, Option.map_some, Option.getD_some, hset,
    Binding.diff_cache,
    hr, ha, List.foldl_nil]
  rfl

/-- Nothing is done about a binding that is gone. -/
theorem syncBy_of_none (hb : f.registry.get? id = none) (order : VisitOrder) :
    syncBy order mode id f = .ok () f := by
  simp only [syncBy, Registry.fresh?, hb, Option.map_none]

end LiveForm.Form
