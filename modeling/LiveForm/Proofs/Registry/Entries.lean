import LiveForm.Registry.Cache

/-!
# What the registry holds after each of its operations

A binding is looked up by its handle. Each operation of the registry is described by what a look-up finds
afterwards. `Registry.Caches` and `Registry.Serves` say that a binding stands for a node, and that the
formula of a node uses it.
-/

set_option autoImplicit false

namespace LiveForm

/-- The values of a map are the second parts of its entries. -/
theorem values_eq_map_toList {α β : Type} {cmp : α → α → Ordering} [Std.TransCmp cmp]
    (t : Std.ExtTreeMap α β cmp) : t.values = t.toList.map Prod.snd := by
  have hfold : t.values = t.foldr (fun _ b values => b :: values) [] := by
    obtain ⟨⟨m⟩⟩ := t
    rfl
  rw [hfold, Std.ExtTreeMap.foldr_eq_foldr_toList]
  induction t.toList with
  | nil => rfl
  | cons entry rest ih => rw [List.foldr_cons, ih, List.map_cons]

/-- What a binding is made with: it never changes but for the path, which follows the base. -/
structure Bound where
  selector : Selector
  base : NodeId
  basePath : Path
deriving DecidableEq

namespace Binding

/-- The selector, the base and the path of the base. -/
def bound (b : Binding) : Bound :=
  { selector := b.selector, base := b.base, basePath := b.basePath }

/-- Bindings are equal if they were made with the same, and have the same members. -/
theorem eq_of_bound {b b' : Binding} (hbound : b'.bound = b.bound) (hcache : ∀ m, m ∈ b'.cache ↔ m ∈ b.cache)
    (hconsumers : ∀ c, c ∈ b'.consumers ↔ c ∈ b.consumers) : b' = b := by
  obtain ⟨selector, base, basePath, cache, consumers⟩ := b
  obtain ⟨selector', base', basePath', cache', consumers'⟩ := b'
  simp only [bound, Bound.mk.injEq] at hbound
  obtain ⟨rfl, rfl, rfl⟩ := hbound
  obtain rfl : cache' = cache := Std.ExtTreeSet.ext_mem hcache
  obtain rfl : consumers' = consumers := Std.ExtTreeSet.ext_mem hconsumers
  rfl

@[simp]
theorem bound_cacheNode (b : Binding) (n : NodeId) : (b.cacheNode n).bound = b.bound := rfl

@[simp]
theorem bound_dropNode (b : Binding) (n : NodeId) : (b.dropNode n).bound = b.bound := rfl

@[simp]
theorem consumers_cacheNode (b : Binding) (n : NodeId) :
    (b.cacheNode n).consumers = b.consumers := rfl

@[simp]
theorem consumers_dropNode (b : Binding) (n : NodeId) :
    (b.dropNode n).consumers = b.consumers := rfl

@[simp]
theorem mem_cache_cacheNode {b : Binding} {n x : NodeId} :
    x ∈ (b.cacheNode n).cache ↔ x = n ∨ x ∈ b.cache := by
  simp [cacheNode, @eq_comm _ n x]

@[simp]
theorem mem_cache_dropNode {b : Binding} {n x : NodeId} :
    x ∈ (b.dropNode n).cache ↔ x ∈ b.cache ∧ x ≠ n := by
  simp [dropNode, and_comm, @eq_comm _ n x]

theorem contains_eq_false_iff {nodes : NodeSet} {x : NodeId} :
    nodes.contains x = false ↔ x ∉ nodes := by
  rw [← Std.ExtTreeSet.contains_iff_mem, Bool.not_eq_true]

theorem mem_removed_diff {b : Binding} {fresh : NodeSet} {x : NodeId} :
    x ∈ (b.diff fresh).removed ↔ x ∈ b.cache ∧ x ∉ fresh := by
  simp [diff, contains_eq_false_iff]

theorem mem_added_diff {b : Binding} {fresh : NodeSet} {x : NodeId} :
    x ∈ (b.diff fresh).added ↔ x ∈ fresh ∧ x ∉ b.cache := by
  simp [diff, contains_eq_false_iff]

theorem diff_cache (b : Binding) : b.diff b.cache = {} := by
  have hnone : ∀ s : NodeSet, (∀ x, x ∉ s) → s = ∅ :=
    fun s => Std.ExtTreeSet.eq_empty_iff_forall_not_mem.2
  have hadded := hnone (b.diff b.cache).added fun x hx => (mem_added_diff.1 hx).2 (mem_added_diff.1 hx).1
  have hremoved := hnone (b.diff b.cache).removed fun x hx =>
    (mem_removed_diff.1 hx).2 (mem_removed_diff.1 hx).1
  calc b.diff b.cache = ⟨(b.diff b.cache).added, (b.diff b.cache).removed⟩ := rfl
    _ = {} := by rw [hadded, hremoved]

end Binding

namespace Registry

variable {r : Registry} {id x : BindingId} {n : NodeId}

/-- A binding stands for a node, as far as the registry has been told. -/
def Caches (r : Registry) (id : BindingId) (n : NodeId) : Prop :=
  ∃ b, r.get? id = some b ∧ n ∈ b.cache

/-- The formula of a node uses a binding. -/
def Serves (r : Registry) (id : BindingId) (n : NodeId) : Prop :=
  ∃ b, r.get? id = some b ∧ n ∈ b.consumers

/-- What a binding was made with. -/
def bound? (r : Registry) (id : BindingId) : Option Bound :=
  (r.get? id).map Binding.bound

theorem mem_toList {b : Binding} : (id, b) ∈ r.bindings.toList ↔ r.get? id = some b := by
  rw [get?, Std.ExtTreeMap.mem_toList_iff_getElem?_eq_some]

theorem mem_values {b : Binding} : b ∈ r.bindings.values ↔ ∃ id, r.get? id = some b := by
  rw [values_eq_map_toList, List.mem_map]
  constructor
  · rintro ⟨⟨id, _⟩, hmem, rfl⟩
    exact ⟨id, mem_toList.1 hmem⟩
  · rintro ⟨id, hb⟩
    exact ⟨(id, b), mem_toList.2 hb, rfl⟩

theorem mem_ids : id ∈ r.ids ↔ (r.get? id).isSome := by
  simp [ids, get?, Std.ExtTreeMap.mem_keys]

theorem mem_consumersOf : n ∈ r.consumersOf id ↔ r.Serves id n := by
  unfold consumersOf Serves
  cases r.get? id <;> simp

/-- Two registries hold the same if each look-up finds the same. -/
theorem bindings_ext {r r' : Registry} (h : ∀ id, r.get? id = r'.get? id) :
    r.bindings = r'.bindings :=
  Std.ExtTreeMap.ext_getElem? h

theorem get?_modify (f : Binding → Binding) :
    (r.modify id f).get? x = if x = id then (r.get? x).map f else r.get? x := by
  simp only [get?, modify, Std.ExtTreeMap.getElem?_modify, Std.LawfulEqCmp.compare_eq_iff_eq]
  by_cases h : x = id
  · rw [if_pos h, if_pos h.symm, h]
  · rw [if_neg h, if_neg (Ne.symm h)]

theorem bound?_modify {f : Binding → Binding} (hf : ∀ b, (f b).bound = b.bound) :
    (r.modify id f).bound? x = r.bound? x := by
  rw [bound?, bound?, get?_modify]
  split
  · cases r.get? x <;> simp [hf]
  · rfl

theorem bound?_join : (r.modify id fun b =>
    { b with consumers := b.consumers.insert n }).bound? x = r.bound? x :=
  bound?_modify fun _ => rfl

theorem serves_modify {f : Binding → Binding} (hf : ∀ b, (f b).consumers = b.consumers) :
    (r.modify id f).Serves x n ↔ r.Serves x n := by
  simp only [Serves, get?_modify]
  split
  · cases r.get? x <;> simp [hf]
  · rfl

theorem caches_cacheNode {m : NodeId} (h : (r.get? id).isSome) :
    (r.modify id (·.cacheNode m)).Caches x n ↔ r.Caches x n ∨ (x = id ∧ n = m) := by
  obtain ⟨b, hb⟩ := Option.isSome_iff_exists.1 h
  simp only [Caches, get?_modify]
  by_cases hx : x = id
  · subst hx
    simp [hb, or_comm]
  · simp [hx]

theorem caches_dropNode {m : NodeId} :
    (r.modify id (·.dropNode m)).Caches x n ↔ r.Caches x n ∧ ¬ (x = id ∧ n = m) := by
  simp only [Caches, get?_modify]
  by_cases hx : x = id
  · subst hx
    cases r.get? x <;> simp
  · simp [hx]

@[simp]
theorem serial_modify (f : Binding → Binding) : (r.modify id f).serial = r.serial := rfl

/-- The handle of the next binding. -/
def nextId (r : Registry) : BindingId :=
  { seat := r.nextSeat, serial := r.serial }

theorem get?_add (b : Binding) :
    (r.add b).2.get? x = if x = r.nextId then some b else r.get? x := by
  have hget : (r.add b).2.get? x = (r.bindings.insert r.nextId b)[x]? := rfl
  rw [hget, Std.ExtTreeMap.getElem?_insert]
  simp only [Std.LawfulEqCmp.compare_eq_iff_eq]
  by_cases h : x = r.nextId
  · rw [if_pos h, if_pos h.symm]
  · rw [if_neg h, if_neg (Ne.symm h)]
    rfl

theorem bound?_add (r : Registry) (b : Binding) : (r.add b).2.bound? (r.add b).1 = some b.bound := by
  have hid : (r.add b).1 = r.nextId := rfl
  rw [bound?, get?_add, if_pos hid, Option.map_some]

/-- A binding that is found by its key has that key. -/
theorem of_lookup?_eq_some {source : String} {basePath : Path}
    (h : r.lookup? source basePath = some id) :
    ∃ b, r.get? id = some b ∧ b.selector.source = source ∧ b.basePath = basePath := by
  obtain ⟨⟨id', b⟩, hfind, rfl⟩ := Option.map_eq_some_iff.1 h
  have hkey := List.find?_some hfind
  simp only [Binding.isKeyed, Bool.and_eq_true, decide_eq_true_eq] at hkey
  exact ⟨b, mem_toList.1 (List.mem_of_find?_eq_some hfind), hkey.1, hkey.2⟩

theorem lookup?_eq_none {source : String} {basePath : Path} :
    r.lookup? source basePath = none ↔
      ∀ id b, r.get? id = some b → ¬ (b.selector.source = source ∧ b.basePath = basePath) := by
  simp only [lookup?, Option.map_eq_none_iff, List.find?_eq_none, Prod.forall, mem_toList,
    Binding.isKeyed, Bool.and_eq_true, decide_eq_true_eq]

theorem mem_accepting {t : FieldTree} :
    id ∈ r.accepting t n ↔ ∃ b, r.get? id = some b ∧ b.accepts t n = true := by
  simp [accepting, get?]

/-- No handle is given out twice. -/
def Fresh (r : Registry) : Prop :=
  ∀ id b, r.get? id = some b → id.serial < r.serial

theorem Fresh.get?_nextId (h : r.Fresh) : r.get? r.nextId = none := by
  cases hb : r.get? r.nextId with
  | none => rfl
  | some b => exact absurd (h _ b hb) (Nat.lt_irrefl _)

/-- A node that joins a binding becomes a user of it. -/
theorem serves_join {c : NodeId} (h : (r.get? id).isSome) :
    (r.modify id fun b => { b with consumers := b.consumers.insert c }).Serves x n ↔
      r.Serves x n ∨ (x = id ∧ n = c) := by
  obtain ⟨b, hb⟩ := Option.isSome_iff_exists.1 h
  simp only [Serves, get?_modify]
  by_cases hx : x = id
  · subst hx
    simp [hb, or_comm, @eq_comm _ c n]
  · simp [hx]

theorem serves_add (h : r.Fresh) {b : Binding} :
    (r.add b).2.Serves x n ↔ r.Serves x n ∨ (x = r.nextId ∧ n ∈ b.consumers) := by
  simp only [Serves, get?_add]
  by_cases hx : x = r.nextId
  · simp [hx, h.get?_nextId]
  · simp [hx]

/-! ### Releasing -/

/-- A user of a binding leaves it, and the last one takes it along. -/
theorem get?_release {c : NodeId} :
    (r.release id c).2.get? x = if x = id then
        (r.get? x).bind fun b =>
          if (b.consumers.erase c).isEmpty then none
          else some { b with consumers := b.consumers.erase c }
      else r.get? x := by
  simp only [release]
  cases hb : r.get? id with
  | none =>
    by_cases hx : x = id
    · rw [if_pos hx, hx, hb, Option.bind_none]
    · rw [if_neg hx]
  | some b =>
    dsimp only
    by_cases he : (b.consumers.erase c).isEmpty
    · rw [if_pos he]
      simp only [get?, Std.ExtTreeMap.getElem?_erase, Std.LawfulEqCmp.compare_eq_iff_eq]
      by_cases hx : x = id
      · subst hx
        rw [get?] at hb
        rw [if_pos rfl, if_pos rfl, hb, Option.bind_some, if_pos he]
      · rw [if_neg hx, if_neg (Ne.symm hx)]
    · rw [if_neg he, get?_modify]
      by_cases hx : x = id
      · subst hx
        rw [if_pos rfl, if_pos rfl, hb, Option.map_some, Option.bind_some, if_neg he]
      · rw [if_neg hx, if_neg hx]

/-- The binding that is returned is gone. -/
theorem fst_release {c : NodeId} {gone : Binding} (h : (r.release id c).1 = some gone) :
    ∃ b, r.get? id = some b ∧ gone.cache = b.cache ∧ (r.release id c).2.get? id = none := by
  have hget : (r.release id c).2.get? id = _ := get?_release
  unfold release at h
  cases hb : r.get? id with
  | none => simp [hb] at h
  | some b =>
    simp only [hb] at h
    split at h
    next he =>
      simp only [Option.some.injEq] at h
      rw [if_pos rfl, hb, Option.bind_some, if_pos he] at hget
      exact ⟨b, rfl, by rw [← h], hget⟩
    next => simp at h

/-- If no binding is returned, none is gone. -/
theorem fst_release_none {c : NodeId} (h : (r.release id c).1 = none) :
    ((r.release id c).2.get? x).isSome = (r.get? x).isSome := by
  rw [get?_release]
  split
  next hx =>
    subst hx
    cases hb : r.get? x with
    | none => rfl
    | some b =>
      simp only [release, hb] at h
      split at h
      · simp at h
      next he =>
        rw [Option.bind_some, if_neg he]
        rfl
  next => rfl

/-- A binding that is left is as it was, but for its users. -/
theorem of_get?_release {c : NodeId} {b : Binding} (h : (r.release id c).2.get? x = some b) :
    ∃ b', r.get? x = some b' ∧ b.bound = b'.bound ∧ b.cache = b'.cache ∧
      (x ≠ id → b = b') ∧ (x = id → ∃ n, n ∈ b.consumers) := by
  rw [get?_release] at h
  split at h
  next hx =>
    obtain ⟨b', hb', hsome⟩ := Option.bind_eq_some_iff.1 h
    split at hsome
    · simp at hsome
    next hne =>
      obtain rfl := Option.some.inj hsome
      refine ⟨b', hb', rfl, rfl, fun hx' => absurd hx hx', fun _ => ?_⟩
      simpa [Std.ExtTreeSet.eq_empty_iff_forall_not_mem] using hne
  next hx => exact ⟨b, h, rfl, rfl, fun _ => rfl, fun hx' => absurd hx' hx⟩

theorem serves_release {c : NodeId} :
    (r.release id c).2.Serves x n ↔ r.Serves x n ∧ ¬ (x = id ∧ n = c) := by
  unfold Serves
  simp only [get?_release]
  by_cases hx : x = id
  · subst hx
    cases hb : r.get? x with
    | none => simp
    | some b =>
      simp only [if_true, Option.bind_some, Option.some.injEq, exists_eq_left', true_and]
      have hmem : n ∈ b.consumers.erase c ↔ n ∈ b.consumers ∧ n ≠ c := by
        simp [and_comm, @eq_comm _ c n]
      split
      next he =>
        have hempty : b.consumers.erase c = ∅ := by simpa using he
        rw [hempty] at hmem
        simpa using hmem
      next => simp [← hmem]
  · simp [hx]

theorem bound?_release {c : NodeId} {d : Bound} (h : (r.release id c).2.bound? x = some d) :
    r.bound? x = some d := by
  obtain ⟨b, hb, rfl⟩ := Option.map_eq_some_iff.1 h
  obtain ⟨b', hb', hbound, -⟩ := of_get?_release hb
  rw [bound?, hb', Option.map_some, hbound]

theorem caches_release {c : NodeId} : (r.release id c).2.Caches x n ↔
    r.Caches x n ∧ ((r.release id c).2.get? x).isSome := by
  constructor
  · rintro ⟨b, hb, hn⟩
    obtain ⟨b', hb', -, hcache, -⟩ := of_get?_release hb
    exact ⟨⟨b', hb', hcache ▸ hn⟩, by rw [hb]; rfl⟩
  · rintro ⟨⟨b', hb', hn⟩, h⟩
    obtain ⟨b, hb⟩ := Option.isSome_iff_exists.1 h
    obtain ⟨b'', hb'', -, hcache, -⟩ := of_get?_release hb
    obtain rfl := Option.some.inj (hb'.symm.trans hb'')
    exact ⟨b, hb, hcache ▸ hn⟩

theorem isSome_get?_of_release {c : NodeId} (h : ((r.release id c).2.get? x).isSome) :
    (r.get? x).isSome := by
  obtain ⟨b, hb⟩ := Option.isSome_iff_exists.1 h
  obtain ⟨b', hb', -⟩ := of_get?_release hb
  rw [hb']
  rfl

@[simp]
theorem serial_release {c : NodeId} : (r.release id c).2.serial = r.serial := by
  simp only [release]
  cases r.get? id with
  | none => rfl
  | some b => dsimp only; split <;> rfl

theorem Fresh.release (h : r.Fresh) {c : NodeId} : (r.release id c).2.Fresh := by
  intro y b hy
  rw [get?_release] at hy
  rw [serial_release]
  split at hy
  · obtain ⟨b', hb', -⟩ := Option.bind_eq_some_iff.1 hy
    exact h y b' hb'
  · exact h y b hy

theorem Fresh.modify (h : r.Fresh) (f : Binding → Binding) : (r.modify id f).Fresh := by
  intro y b hy
  rw [get?_modify] at hy
  rw [serial_modify]
  split at hy
  · obtain ⟨b', hb', -⟩ := Option.map_eq_some_iff.1 hy
    exact h y b' hb'
  · exact h y b hy

theorem Fresh.add (h : r.Fresh) (b : Binding) : (r.add b).2.Fresh := by
  intro y b' hy
  rw [get?_add] at hy
  have hserial : (r.add b).2.serial = r.serial + 1 := rfl
  rw [hserial]
  split at hy
  next he => rw [he]; exact Nat.lt_succ_self _
  next => exact Nat.lt_succ_of_lt (h y b' hy)

/-- No binding has been made before a serial number was reached. -/
def NewerThan (k : Nat) (r : Registry) : Prop :=
  k ≤ r.serial ∧ ∀ id, (r.get? id).isSome → k ≤ id.serial

theorem NewerThan.modify {k : Nat} (h : r.NewerThan k) (f : Binding → Binding) : (r.modify id f).NewerThan k := by
  refine ⟨h.1, fun y hy => h.2 y ?_⟩
  rw [get?_modify] at hy
  split at hy
  · rwa [Option.isSome_map] at hy
  · exact hy

theorem NewerThan.add {k : Nat} (h : r.NewerThan k) (b : Binding) : (r.add b).2.NewerThan k := by
  refine ⟨Nat.le_succ_of_le h.1, fun y hy => ?_⟩
  rw [get?_add] at hy
  split at hy
  next he => rw [he]; exact h.1
  next => exact h.2 y hy

section Refreshing

variable {t : FieldTree} {mode : Refresh}

/-- A refreshed binding holds what it should; nothing else about a registry changes. -/
theorem get?_refresh : (r.refresh t id mode).2.get? x =
    if x = id then (r.get? x).map fun b => { b with cache := b.fresh t mode } else r.get? x := by
  unfold refresh
  by_cases hx : x = id
  · subst hx
    rw [if_pos rfl]
    cases hb : r.get? x with
    | none => exact hb
    | some b =>
      dsimp only
      rw [get?_modify, if_pos rfl, hb]
      rfl
  · rw [if_neg hx]
    cases hb : r.get? id with
    | none => rfl
    | some b =>
      dsimp only
      rw [get?_modify, if_neg hx]

@[simp]
theorem serial_refresh : (r.refresh t id mode).2.serial = r.serial := by
  unfold refresh
  split <;> rfl

theorem serves_refresh : (r.refresh t id mode).2.Serves x n ↔ r.Serves x n := by
  unfold refresh
  split
  · rfl
  · exact serves_modify fun _ => rfl

theorem Fresh.refresh (h : r.Fresh) : (r.refresh t id mode).2.Fresh := by
  intro y b hy
  rw [get?_refresh] at hy
  rw [serial_refresh]
  split at hy
  · obtain ⟨b', hb', -⟩ := Option.map_eq_some_iff.1 hy
    exact h y b' hb'
  · exact h y b hy

end Refreshing

section Acquiring

variable {t : FieldTree} {word : String} {anchor c : NodeId} {isNew : Bool} {r' : Registry}

/-- A binding is joined if there is one for the selector at the base, and is made otherwise. -/
theorem acquire_ok (h : r.acquire t word anchor c = .ok ((id, isNew), r')) :
    ∃ s, Selector.parse word = .ok s ∧
      ((isNew = false ∧ r.lookup? word (t.path (s.base t anchor)) = some id ∧
          r' = r.modify id fun b => { b with consumers := b.consumers.insert c }) ∨
        (isNew = true ∧ r.lookup? word (t.path (s.base t anchor)) = none ∧ id = r.nextId ∧
          r' = (r.add { selector := s, base := s.base t anchor, basePath := t.path (s.base t anchor),
                        consumers := {c} }).2)) := by
  unfold acquire at h
  cases hparse : Selector.parse word with
  | error fault => simp [hparse] at h
  | ok s =>
    refine ⟨s, rfl, ?_⟩
    simp only [hparse] at h
    cases hlookup : r.lookup? word (t.path (s.base t anchor)) with
    | some found =>
      simp only [hlookup, Except.ok.injEq, Prod.mk.injEq] at h
      obtain ⟨⟨rfl, rfl⟩, rfl⟩ := h
      exact .inl ⟨rfl, rfl, rfl⟩
    | none =>
      simp only [hlookup, Except.ok.injEq, Prod.mk.injEq] at h
      obtain ⟨⟨rfl, rfl⟩, rfl⟩ := h
      exact .inr ⟨rfl, rfl, rfl, rfl⟩

/-- Nothing but the selector can be at fault. -/
theorem acquire_error {e : FormError} (h : r.acquire t word anchor c = .error e) :
    ∃ fault, Selector.parse word = .error fault ∧ e = .invalidSelector word fault := by
  unfold acquire at h
  cases hparse : Selector.parse word with
  | error fault =>
    simp only [hparse, Except.error.injEq] at h
    exact ⟨fault, rfl, h.symm⟩
  | ok s =>
    simp only [hparse] at h
    split at h <;> simp at h

theorem NewerThan.acquire {k : Nat} (h : r.NewerThan k) (hacquire : r.acquire t word anchor c = .ok ((id, isNew), r')) :
    r'.NewerThan k := by
  obtain ⟨s, -, ⟨-, -, rfl⟩ | ⟨-, -, -, rfl⟩⟩ := acquire_ok hacquire
  · exact h.modify _
  · exact h.add _

end Acquiring

section Moving

variable {old new : Path}

/-- The bindings at a path follow, unless there is one with their selector at the new path. -/
theorem mem_followers : x ∈ r.followers old new ↔ old ≠ new ∧ ∃ b, r.get? x = some b ∧ b.basePath = old ∧
    ∀ id b', r.get? id = some b' → ¬ (b'.selector.source = b.selector.source ∧ b'.basePath = new) := by
  unfold followers
  split
  next heq => simp [heq]
  next hne =>
    rw [List.mem_map]
    constructor
    · rintro ⟨⟨id, b⟩, hmem, rfl⟩
      obtain ⟨hin, hb⟩ := List.mem_filter.1 hmem
      simp only [Bool.and_eq_true, decide_eq_true_eq, Option.isNone_iff_eq_none] at hb
      exact ⟨hne, b, mem_toList.1 hin, hb.1, lookup?_eq_none.1 hb.2⟩
    · rintro ⟨-, b, hb, hbase, hfree⟩
      refine ⟨(x, b), List.mem_filter.2 ⟨mem_toList.2 hb, ?_⟩, rfl⟩
      simp only [hbase, decide_true, Bool.true_and, Option.isNone_iff_eq_none]
      exact lookup?_eq_none.2 hfree

theorem get?_rekey : (r.rekey old new).get? x = if x ∈ r.followers old new then
    (r.get? x).map fun b => { b with basePath := new } else r.get? x := by
  have hfold (ids : List BindingId) (r : Registry) :
      (ids.foldl (fun r id => r.modify id fun b => { b with basePath := new }) r).get? x =
        if x ∈ ids then (r.get? x).map fun b => { b with basePath := new } else r.get? x := by
    induction ids generalizing r with
    | nil => simp
    | cons a rest ih =>
      rw [List.foldl_cons, ih, get?_modify]
      by_cases ha : x = a
      · subst ha
        by_cases hx : x ∈ rest
        · simp only [hx, if_true, List.mem_cons, true_or, Option.map_map]
          rfl
        · simp [hx]
      · simp [ha]
  exact hfold _ r

theorem serial_rekey : (r.rekey old new).serial = r.serial := by
  have hfold (ids : List BindingId) (r : Registry) :
      (ids.foldl (fun r id => r.modify id fun b => { b with basePath := new }) r).serial = r.serial := by
    induction ids generalizing r with
    | nil => rfl
    | cons a rest ih => rw [List.foldl_cons, ih, serial_modify]
  exact hfold _ r

theorem Fresh.rekey (h : r.Fresh) : (r.rekey old new).Fresh := by
  intro y b hy
  rw [get?_rekey] at hy
  rw [serial_rekey]
  split at hy
  · obtain ⟨b', hb', -⟩ := Option.map_eq_some_iff.1 hy
    exact h y b' hb'
  · exact h y b hy

/-- Moving a base leaves the caches and the users alone. -/
theorem get?_rekey_eq : ∃ path : Binding → Path, (r.rekey old new).get? x =
    (r.get? x).map fun b => { b with basePath := path b } := by
  rw [get?_rekey]
  split
  · exact ⟨fun _ => new, rfl⟩
  · refine ⟨fun b => b.basePath, ?_⟩
    cases r.get? x <;> rfl

@[simp]
theorem caches_rekey : (r.rekey old new).Caches x n ↔ r.Caches x n := by
  obtain ⟨path, hpath⟩ := get?_rekey_eq (r := r) (x := x)
  unfold Caches
  rw [hpath]
  cases r.get? x <;> simp

@[simp]
theorem serves_rekey : (r.rekey old new).Serves x n ↔ r.Serves x n := by
  obtain ⟨path, hpath⟩ := get?_rekey_eq (r := r) (x := x)
  unfold Serves
  rw [hpath]
  cases r.get? x <;> simp

/-- A binding that is moved keeps its selector. -/
theorem selector_rekey : ((r.rekey old new).bound? x).map Bound.selector = (r.bound? x).map Bound.selector := by
  obtain ⟨path, hpath⟩ := get?_rekey_eq (r := r) (x := x)
  unfold bound?
  rw [hpath]
  cases r.get? x <;> rfl

end Moving

end Registry

end LiveForm
