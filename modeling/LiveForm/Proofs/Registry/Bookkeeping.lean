import LiveForm.Proofs.Registry.Entries
import LiveForm.Proofs.Selector.Matching

/-!
# Who uses which binding

A registry is changed by four calls: nodes acquire and release bindings, bases move, and caches are brought up to date.
Beside a registry one can keep notes of these calls alone: who has acquired and released what, and a table of keys that is
changed key by key. Whatever has been called, the registry agrees with the notes: each binding has the users that have
acquired it and not released it since, it is found by its own key and by no other, and it goes with its last user.
-/

set_option autoImplicit false

namespace LiveForm

namespace Registry

variable {r r' : Registry} {id id' : BindingId} {b b' : Binding} {c : NodeId} {source : String} {path old new : Path}

/-- What every registry is that calls have led to: handles are not given out twice, keys tell bindings apart, and every
binding has a user. -/
structure Sound (r : Registry) : Prop where
  fresh : r.Fresh
  key : ∀ id id' b b', r.get? id = some b → r.get? id' = some b' → b.selector.source = b'.selector.source →
    b.basePath = b'.basePath → id = id'
  used : ∀ id b, r.get? id = some b → ∃ c, c ∈ b.consumers

/-- A binding is found by its own key and by no other. -/
theorem Sound.lookup?_eq_some (h : r.Sound) : r.lookup? source path = some id ↔
    ∃ b, r.get? id = some b ∧ b.selector.source = source ∧ b.basePath = path := by
  constructor
  · exact of_lookup?_eq_some
  · rintro ⟨b, hb, rfl, rfl⟩
    cases hfound : r.lookup? b.selector.source b.basePath with
    | none => exact absurd ⟨rfl, rfl⟩ (lookup?_eq_none.1 hfound id b hb)
    | some other =>
      obtain ⟨b', hb', hsource, hpath⟩ := of_lookup?_eq_some hfound
      rw [h.key other id b' b hb' hb hsource hpath]

/-- What happens to bindings one by one, without a change of their keys, keeps a registry sound as long as each has a
user. -/
theorem Sound.of_get? (h : r.Sound) (hfresh : r'.Fresh)
    (hkeys : ∀ id b', r'.get? id = some b' → (∃ c, c ∈ b'.consumers) ∧
      ∃ b, r.get? id = some b ∧ b'.selector = b.selector ∧ b'.basePath = b.basePath) : r'.Sound where
  fresh := hfresh
  key id id' b b' hb hb' hsource hpath := by
    obtain ⟨-, d, hd, hs, hp⟩ := hkeys id b hb
    obtain ⟨-, d', hd', hs', hp'⟩ := hkeys id' b' hb'
    exact h.key id id' d d' hd hd' (by rw [← hs, ← hs', hsource]) (by rw [← hp, ← hp', hpath])
  used id b hb := (hkeys id b hb).1

theorem Sound.join (h : r.Sound) :
    (r.modify id fun b => { b with consumers := b.consumers.insert c }).Sound := by
  refine h.of_get? (h.fresh.modify _) fun i b' hb' => ?_
  rw [get?_modify] at hb'
  split at hb'
  · obtain ⟨b, hb, rfl⟩ := Option.map_eq_some_iff.1 hb'
    exact ⟨⟨c, by simp⟩, b, hb, rfl, rfl⟩
  · exact ⟨h.used i b' hb', b', hb', rfl, rfl⟩

theorem Sound.add (h : r.Sound) (hfree : r.lookup? b.selector.source b.basePath = none) (hused : ∃ c, c ∈ b.consumers) :
    (r.add b).2.Sound where
  fresh := h.fresh.add b
  key i i' d d' hd hd' hsource hpath := by
    have hother {i : BindingId} {d : Binding} (hd : r.get? i = some d) :
        ¬ (d.selector.source = b.selector.source ∧ d.basePath = b.basePath) := lookup?_eq_none.1 hfree i d hd
    rw [get?_add] at hd hd'
    split at hd
    next hi =>
      obtain rfl := Option.some.inj hd
      split at hd'
      next hi' => rw [hi, hi']
      next => exact absurd ⟨hsource.symm, hpath.symm⟩ (hother hd')
    next =>
      split at hd'
      next =>
        obtain rfl := Option.some.inj hd'
        exact absurd ⟨hsource, hpath⟩ (hother hd)
      next => exact h.key i i' d d' hd hd' hsource hpath
  used i d hd := by
    rw [get?_add] at hd
    split at hd
    · exact Option.some.inj hd ▸ hused
    · exact h.used i d hd

theorem Sound.acquire {t : FieldTree} {word : String} {anchor : NodeId} {isNew : Bool} (h : r.Sound)
    (hacquire : r.acquire t word anchor c = .ok ((id, isNew), r')) : r'.Sound := by
  obtain ⟨s, hparse, ⟨-, -, rfl⟩ | ⟨-, hlookup, rfl, rfl⟩⟩ := acquire_ok hacquire
  · exact h.join
  · refine h.add ?_ ⟨c, by simp⟩
    rwa [Selector.source_of_parse hparse]

theorem Sound.release (h : r.Sound) : (r.release id c).2.Sound := by
  refine h.of_get? h.fresh.release fun i b' hb' => ?_
  obtain ⟨b, hb, hbound, -, hother, hself⟩ := of_get?_release hb'
  refine ⟨?_, b, hb, congrArg Bound.selector hbound, congrArg Bound.basePath hbound⟩
  by_cases hi : i = id
  · exact hself hi
  · rw [hother hi]
    exact h.used i b hb

theorem Sound.refresh {t : FieldTree} {mode : Refresh} (h : r.Sound) : (r.refresh t id mode).2.Sound := by
  refine h.of_get? h.fresh.refresh fun i b' hb' => ?_
  rw [get?_refresh] at hb'
  split at hb'
  · obtain ⟨b, hb, rfl⟩ := Option.map_eq_some_iff.1 hb'
    exact ⟨h.used i b hb, b, hb, rfl, rfl⟩
  · exact ⟨h.used i b' hb', b', hb', rfl, rfl⟩

/-- The bindings that follow their base are those whose keys are free at the new path. -/
theorem mem_followers_iff : id ∈ r.followers old new ↔
    ∃ b, r.get? id = some b ∧ b.basePath = old ∧ r.lookup? b.selector.source new = none := by
  simp only [mem_followers, lookup?_eq_none]
  refine and_iff_right_of_imp ?_
  rintro ⟨b, hb, hold, hfree⟩ rfl
  exact hfree id b hb ⟨rfl, hold⟩

/-- A binding follows its base unless its key is taken there. -/
theorem get?_rekey_of_get? (hb : r.get? id = some b) : (r.rekey old new).get? id =
    some (if b.basePath = old ∧ r.lookup? b.selector.source new = none then { b with basePath := new } else b) := by
  rw [get?_rekey, hb, Option.map_some, ← apply_ite some]
  refine congrArg some (if_congr ?_ rfl rfl)
  rw [mem_followers_iff]
  simp [hb]

theorem get?_of_get?_rekey (hb' : (r.rekey old new).get? id = some b') : ∃ b, r.get? id = some b ∧
    b' = if b.basePath = old ∧ r.lookup? b.selector.source new = none then { b with basePath := new } else b := by
  cases hb : r.get? id with
  | none =>
    rw [get?_rekey, hb] at hb'
    simp at hb'
  | some b =>
    rw [get?_rekey_of_get? hb] at hb'
    exact ⟨b, rfl, (Option.some.inj hb').symm⟩

theorem Sound.rekey (h : r.Sound) : (r.rekey old new).Sound where
  fresh := h.fresh.rekey
  key i i' d d' hd hd' hsource hpath := by
    obtain ⟨b, hb, rfl⟩ := get?_of_get?_rekey hd
    obtain ⟨b', hb', rfl⟩ := get?_of_get?_rekey hd'
    have hselector {b : Binding} : (if b.basePath = old ∧ r.lookup? b.selector.source new = none then
        { b with basePath := new } else b).selector = b.selector := by
      split <;> rfl
    rw [hselector, hselector] at hsource
    split at hpath
    next hmoved =>
      split at hpath
      next hmoved' => exact h.key i i' b b' hb hb' hsource (hmoved.1.trans hmoved'.1.symm)
      next => exact absurd ⟨hsource.symm, hpath.symm⟩ (lookup?_eq_none.1 hmoved.2 i' b' hb')
    next =>
      split at hpath
      next hmoved' => exact absurd ⟨hsource, hpath⟩ (lookup?_eq_none.1 hmoved'.2 i b hb)
      next => exact h.key i i' b b' hb hb' hsource hpath
  used i d hd := by
    obtain ⟨b, hb, rfl⟩ := get?_of_get?_rekey hd
    obtain ⟨c, hc⟩ := h.used i b hb
    refine ⟨c, ?_⟩
    split <;> exact hc

/-- The last user of a binding takes it along. -/
theorem Sound.fst_release_eq_some (h : r.Sound) (hb : r.get? id = some b) {gone : Binding} :
    (r.release id c).1 = some gone ↔ (∀ m, m ∈ b.consumers ↔ m = c) ∧ gone = { b with consumers := ∅ } := by
  have hmem (m : NodeId) : m ∈ b.consumers.erase c ↔ m ∈ b.consumers ∧ m ≠ c := by
    simp [and_comm, @eq_comm _ c m]
  have hlast : (b.consumers.erase c).isEmpty ↔ ∀ m, m ∈ b.consumers ↔ m = c := by
    rw [Std.ExtTreeSet.isEmpty_iff, Std.ExtTreeSet.eq_empty_iff_forall_not_mem]
    obtain ⟨u, hu⟩ := h.used id b hb
    simp only [hmem, not_and, not_not]
    refine ⟨fun hall m => ⟨hall m, ?_⟩, fun hall m hm => (hall m).1 hm⟩
    rintro rfl
    exact hall u hu ▸ hu
  simp only [Registry.release, hb]
  split
  next he =>
    have hempty : b.consumers.erase c = ∅ := Std.ExtTreeSet.isEmpty_iff.1 he
    simp only [hempty, Option.some.injEq, hlast.1 he, implies_true, true_and, @eq_comm _ _ gone]
  next he => simp [mt hlast.2 he]

theorem Sound.isSome_fst_release (h : r.Sound) (hb : r.get? id = some b) :
    (r.release id c).1.isSome ↔ ∀ m, m ∈ b.consumers ↔ m = c := by
  rw [Option.isSome_iff_exists]
  simp only [h.fst_release_eq_some hb, exists_and_left, exists_eq, and_true]

/-! ### What a look-up finds -/

/-- The key of a binding: the text of its selector and the path of its base. -/
def key? (r : Registry) (id : BindingId) : Option (String × Path) :=
  (r.get? id).map fun b => (b.selector.source, b.basePath)

theorem Sound.lookup?_eq_some_iff (h : r.Sound) : r.lookup? source path = some id ↔ r.key? id = some (source, path) := by
  rw [h.lookup?_eq_some]
  cases hb : r.get? id <;> simp [key?, hb]

theorem lookup?_congr (h : r.Sound) (h' : r'.Sound) (hkey : ∀ id, r'.key? id = r.key? id) :
    r'.lookup? source path = r.lookup? source path :=
  Option.ext fun id => by rw [h.lookup?_eq_some_iff, h'.lookup?_eq_some_iff, hkey]

theorem lookup?_join (h : r.Sound) :
    (r.modify id fun b => { b with consumers := b.consumers.insert c }).lookup? source path =
      r.lookup? source path := by
  refine lookup?_congr h h.join fun i => ?_
  unfold key?
  rw [get?_modify]
  split
  · rw [Option.map_map]
    rfl
  · rfl

theorem lookup?_refresh {t : FieldTree} {mode : Refresh} (h : r.Sound) :
    (r.refresh t id mode).2.lookup? source path = r.lookup? source path := by
  refine lookup?_congr h h.refresh fun i => ?_
  unfold key?
  rw [get?_refresh]
  split
  · rw [Option.map_map]
    rfl
  · rfl

/-- A new binding is found by its key. -/
theorem lookup?_add (h : r.Sound) (hfree : r.lookup? b.selector.source b.basePath = none)
    (hused : ∃ c, c ∈ b.consumers) : (r.add b).2.lookup? source path =
      if source = b.selector.source ∧ path = b.basePath then some r.nextId else r.lookup? source path := by
  have hadd (i : BindingId) : (r.add b).2.key? i =
      if i = r.nextId then some (b.selector.source, b.basePath) else r.key? i := by
    unfold key?
    rw [get?_add]
    split <;> rfl
  have hnext : r.key? r.nextId = none := by rw [key?, h.fresh.get?_nextId, Option.map_none]
  refine Option.ext fun i => ?_
  rw [(h.add hfree hused).lookup?_eq_some_iff, hadd]
  by_cases hkey : source = b.selector.source ∧ path = b.basePath
  · obtain ⟨rfl, rfl⟩ := hkey
    have hother : r.key? i ≠ some (b.selector.source, b.basePath) := fun hi => by
      simp [h.lookup?_eq_some_iff.2 hi] at hfree
    by_cases hi : i = r.nextId
    · simp [hi]
    · simp [hi, hother, Ne.symm hi]
  · rw [if_neg hkey, h.lookup?_eq_some_iff]
    by_cases hi : i = r.nextId
    · rw [if_pos hi, hi, hnext]
      simpa [eq_comm] using hkey
    · rw [if_neg hi]

/-- What is acquired is found, and so is all that was found before. -/
theorem Sound.lookup?_acquire {t : FieldTree} {word : String} {anchor : NodeId} {isNew : Bool} (h : r.Sound)
    (hacquire : r.acquire t word anchor c = .ok ((id, isNew), r')) :
    (∃ s, Selector.parse word = .ok s ∧ r'.lookup? word (t.path (s.base t anchor)) = some id) ∧
      ∀ source path i, r.lookup? source path = some i → r'.lookup? source path = some i := by
  obtain ⟨s, hparse, ⟨-, hlookup, rfl⟩ | ⟨-, hlookup, rfl, rfl⟩⟩ := acquire_ok hacquire
  · exact ⟨⟨s, hparse, (lookup?_join h).trans hlookup⟩, fun source path i hi => (lookup?_join h).trans hi⟩
  · have hsource := Selector.source_of_parse hparse
    rw [← hsource] at hlookup
    refine ⟨⟨s, hparse, ?_⟩, fun source path i hi => ?_⟩
    · rw [lookup?_add h hlookup ⟨c, by simp⟩, if_pos ⟨hsource.symm, rfl⟩]
    · rw [lookup?_add h hlookup ⟨c, by simp⟩, if_neg, hi]
      rintro ⟨rfl, rfl⟩
      simp [hi] at hlookup

/-- A binding that is gone is not found any more. -/
theorem lookup?_release (h : r.Sound) (hb : r.get? id = some b) : (r.release id c).2.lookup? source path =
    if (r.release id c).1.isSome ∧ source = b.selector.source ∧ path = b.basePath then none
    else r.lookup? source path := by
  have hrelease (i : BindingId) : (r.release id c).2.key? i =
      if i = id ∧ (r.release id c).1.isSome then none else r.key? i := by
    unfold key?
    rw [get?_release]
    by_cases hi : i = id
    · subst hi
      by_cases he : (b.consumers.erase c).isEmpty
      · simp only [Registry.release, hb, he, if_true, Option.bind_some, Option.isSome_some, and_self, Option.map_none]
      · simp only [Registry.release, hb, he, if_true, if_false, Option.bind_some, Option.isSome_none, and_false,
          Option.map_some, Bool.false_eq_true]
    · simp [hi]
  have hid : r.key? id = some (b.selector.source, b.basePath) := by rw [key?, hb, Option.map_some]
  refine Option.ext fun i => ?_
  have hfound (j : BindingId) : r.lookup? source path = some j ↔ r.key? j = some (source, path) :=
    h.lookup?_eq_some_iff
  rw [h.release.lookup?_eq_some_iff, hrelease]
  grind

/-- A key follows its base if it is free there. -/
theorem lookup?_rekey (h : r.Sound) : (r.rekey old new).lookup? source path =
    if r.lookup? source new = none then
      if path = new then r.lookup? source old else if path = old then none else r.lookup? source path
    else r.lookup? source path := by
  have hrekey (i : BindingId) : (r.rekey old new).key? i = (r.key? i).map fun key =>
      if key.2 = old ∧ r.lookup? key.1 new = none then (key.1, new) else key := by
    unfold key?
    cases hb : r.get? i with
    | none =>
      rw [get?_rekey, hb]
      simp
    | some b =>
      rw [get?_rekey_of_get? hb]
      simp only [Option.map_some, Option.some.injEq]
      split <;> rfl
  refine Option.ext fun i => ?_
  have hfound (path : Path) : r.lookup? source path = some i ↔ r.key? i = some (source, path) :=
    h.lookup?_eq_some_iff
  rw [h.rekey.lookup?_eq_some_iff, hrekey]
  cases hkey : r.key? i with
  | none => grind
  | some key =>
    obtain ⟨source', path'⟩ := key
    grind

end Registry

/-- A call by which a registry is changed. -/
inductive RegistryCall where
  | acquire (t : FieldTree) (source : String) (anchor consumer : NodeId)
  | release (id : BindingId) (consumer : NodeId)
  | rekey (old new : Path)
  | refresh (t : FieldTree) (id : BindingId) (mode : Refresh)

/-- What is noted of a call about the users of bindings. -/
inductive UseNote where
  | acquired (id : BindingId) (consumer : NodeId)
  | released (id : BindingId) (consumer : NodeId)

namespace UseNote

/-- By the notes, of which the last one comes first, a node has acquired a binding and has not released it since. -/
def Holds (notes : List UseNote) (id : BindingId) (c : NodeId) : Prop :=
  ∃ since before, notes = since ++ acquired id c :: before ∧ released id c ∉ since

variable {notes : List UseNote} {id i : BindingId} {c m : NodeId}

theorem not_holds_nil : ¬ Holds [] id c := by
  rintro ⟨since, before, h, -⟩
  simp at h

theorem holds_acquired : Holds (acquired i m :: notes) id c ↔ Holds notes id c ∨ (id = i ∧ c = m) := by
  constructor
  · rintro ⟨since, before, h, hnot⟩
    cases since with
    | nil =>
      obtain ⟨hnote, -⟩ := List.cons.inj h
      exact .inr (by simpa [eq_comm] using hnote)
    | cons note since =>
      obtain ⟨-, rfl⟩ := List.cons.inj h
      exact .inl ⟨since, before, rfl, fun hmem => hnot (List.mem_cons_of_mem _ hmem)⟩
  · rintro (⟨since, before, rfl, hnot⟩ | ⟨rfl, rfl⟩)
    · exact ⟨_ :: since, before, rfl, by simpa using hnot⟩
    · exact ⟨[], notes, rfl, List.not_mem_nil⟩

theorem holds_released : Holds (released i m :: notes) id c ↔ Holds notes id c ∧ ¬ (id = i ∧ c = m) := by
  constructor
  · rintro ⟨since, before, h, hnot⟩
    cases since with
    | nil => simp at h
    | cons note since =>
      obtain ⟨rfl, rfl⟩ := List.cons.inj h
      simp only [List.mem_cons, released.injEq, not_or] at hnot
      exact ⟨⟨since, before, rfl, hnot.2⟩, hnot.1⟩
  · rintro ⟨⟨since, before, rfl, hnot⟩, hne⟩
    refine ⟨_ :: since, before, rfl, ?_⟩
    simp only [List.mem_cons, released.injEq, not_or]
    exact ⟨hne, hnot⟩

end UseNote

/-- A registry, and the notes that are kept beside it. -/
structure Ledger where
  registry : Registry := {}
  /-- Who has acquired and released what, the last call first. -/
  notes : List UseNote := []
  /-- The binding that has been entered under a key. -/
  keys : String → Path → Option BindingId := fun _ _ => none

namespace Ledger

/-- A table of keys after a change of one of them. -/
def enter (keys : String → Path → Option BindingId) (source : String) (path : Path) (entry : Option BindingId) :
    String → Path → Option BindingId := fun source' path' =>
  if source' = source ∧ path' = path then entry else keys source' path'

/-- A table of keys in which those at one path have been moved to another one, as far as they are free there. -/
def move (keys : String → Path → Option BindingId) (old new : Path) : String → Path → Option BindingId :=
  fun source path =>
    if keys source new = none then
      if path = new then keys source old else if path = old then none else keys source path
    else keys source path

/-- A call changes the registry, and is noted. An acquisition that fails changes nothing. -/
def run (s : Ledger) : RegistryCall → Ledger
  | .acquire t source anchor consumer =>
    match Selector.parse source with
    | .error _ => s
    | .ok selector =>
      match s.registry.acquire t source anchor consumer with
      | .error _ => s
      | .ok ((id, isNew), registry) =>
        { registry, notes := .acquired id consumer :: s.notes,
          keys := if isNew then enter s.keys source (t.path (selector.base t anchor)) (some id) else s.keys }
  | .release id consumer =>
    let (gone, registry) := s.registry.release id consumer
    { registry, notes := .released id consumer :: s.notes,
      keys := match gone with
        | some b => enter s.keys b.selector.source b.basePath none
        | none => s.keys }
  | .rekey old new => { s with registry := s.registry.rekey old new, keys := move s.keys old new }
  | .refresh t id mode => { s with registry := (s.registry.refresh t id mode).2 }

/-- One call after the other, from a registry that has no bindings. -/
def runAll (calls : List RegistryCall) : Ledger :=
  calls.foldl run {}

/-- The registry and the notes agree. -/
structure Balanced (s : Ledger) : Prop where
  sound : s.registry.Sound
  users : ∀ id c, s.registry.Serves id c ↔ UseNote.Holds s.notes id c
  keys : ∀ source path, s.registry.lookup? source path = s.keys source path

variable {s : Ledger} {id : BindingId} {c : NodeId} {t : FieldTree}

theorem balanced_empty : ({} : Ledger).Balanced := by
  have hnone (id : BindingId) : ({} : Registry).get? id = none := by simp [Registry.get?]
  refine ⟨⟨fun id b hb => ?_, fun id _ b _ hb => ?_, fun id b hb => ?_⟩, fun id c => ?_, fun source path => ?_⟩
  · simp [hnone] at hb
  · simp [hnone] at hb
  · simp [hnone] at hb
  · simp [Registry.Serves, hnone, UseNote.not_holds_nil]
  · exact Registry.lookup?_eq_none.2 fun id b hb => by simp [hnone] at hb

theorem Balanced.acquire (h : s.Balanced) {source : String} {anchor : NodeId} :
    (s.run (.acquire t source anchor c)).Balanced := by
  cases hparse : Selector.parse source with
  | error fault =>
    simp only [run, hparse]
    exact h
  | ok selector =>
    cases hacquire : s.registry.acquire t source anchor c with
    | error e =>
      simp only [run, hparse, hacquire]
      exact h
    | ok result =>
      obtain ⟨⟨id, isNew⟩, registry⟩ := result
      simp only [run, hparse, hacquire]
      have hsound : registry.Sound := h.sound.acquire hacquire
      obtain ⟨selector', hparse', hcases⟩ := Registry.acquire_ok hacquire
      obtain rfl : selector = selector' := Except.ok.inj (hparse.symm.trans hparse')
      rcases hcases with ⟨rfl, hlookup, rfl⟩ | ⟨rfl, hlookup, rfl, rfl⟩
      · obtain ⟨b, hb, -⟩ := Registry.of_lookup?_eq_some hlookup
        refine ⟨hsound, fun i m => ?_, fun source' path => ?_⟩
        · rw [Registry.serves_join (by rw [hb]; rfl), h.users, UseNote.holds_acquired]
        · exact (Registry.lookup?_join h.sound).trans (h.keys source' path)
      · have hsource := Selector.source_of_parse hparse
        rw [← hsource] at hlookup
        refine ⟨hsound, fun i m => ?_, fun source' path => ?_⟩
        · rw [Registry.serves_add h.sound.fresh, h.users, UseNote.holds_acquired]
          simp [@eq_comm _ c m]
        · refine (Registry.lookup?_add h.sound hlookup ⟨c, by simp⟩).trans ?_
          simp only [h.keys, if_true, enter, hsource]

theorem Balanced.release (h : s.Balanced) : (s.run (.release id c)).Balanced := by
  refine ⟨h.sound.release, fun i m => ?_, fun source path => ?_⟩
  · exact Registry.serves_release.trans ((and_congr_left' (h.users i m)).trans UseNote.holds_released.symm)
  · cases hb : s.registry.get? id with
    | none =>
      have hrelease : s.registry.release id c = (none, s.registry) := by simp [Registry.release, hb]
      simp only [run, hrelease]
      exact h.keys source path
    | some b =>
      refine (Registry.lookup?_release h.sound hb).trans ?_
      cases hgone : (s.registry.release id c).1 with
      | none => simp [run, hgone, h.keys]
      | some gone =>
        obtain ⟨-, rfl⟩ := (h.sound.fst_release_eq_some hb).1 hgone
        simp [run, hgone, h.keys, enter]

theorem Balanced.rekey {old new : Path} (h : s.Balanced) : (s.run (.rekey old new)).Balanced := by
  refine ⟨h.sound.rekey, fun i m => Registry.serves_rekey.trans (h.users i m), fun source path => ?_⟩
  refine (Registry.lookup?_rekey h.sound).trans ?_
  simp only [h.keys]
  rfl

theorem Balanced.refresh {mode : Refresh} (h : s.Balanced) : (s.run (.refresh t id mode)).Balanced :=
  ⟨h.sound.refresh, fun i m => Registry.serves_refresh.trans (h.users i m),
    fun source path => (Registry.lookup?_refresh h.sound).trans (h.keys source path)⟩

/-- Every call keeps the registry and the notes in agreement. -/
theorem Balanced.run (h : s.Balanced) (call : RegistryCall) : (s.run call).Balanced := by
  cases call with
  | acquire t source anchor consumer => exact h.acquire
  | release id consumer => exact h.release
  | rekey old new => exact h.rekey
  | refresh t id mode => exact h.refresh

theorem balanced_runAll (calls : List RegistryCall) : (runAll calls).Balanced := by
  have hfold (s : Ledger) (h : s.Balanced) : (calls.foldl Ledger.run s).Balanced := by
    induction calls generalizing s with
    | nil => exact h
    | cons call rest ih => exact ih _ (h.run call)
  exact hfold {} balanced_empty

/-- What a registry says of its bindings, and what becomes of them when one is released or a base moves. -/
structure Accounted (s : Ledger) : Prop where
  /-- A binding is found by its own key, and by no other. -/
  found : ∀ id b, s.registry.get? id = some b → ∀ source path,
    s.registry.lookup? source path = some id ↔ b.selector.source = source ∧ b.basePath = path
  live : ∀ source path id, s.registry.lookup? source path = some id → ∃ b, s.registry.get? id = some b
  distinct : ∀ id id' b b', s.registry.get? id = some b → s.registry.get? id' = some b' →
    b.selector.source = b'.selector.source → b.basePath = b'.basePath → id = id'
  used : ∀ id b, s.registry.get? id = some b → ∃ c, c ∈ b.consumers
  /-- The users of a binding are those that have acquired it and not released it since. -/
  users : ∀ id b, s.registry.get? id = some b → ∀ c, c ∈ b.consumers ↔ UseNote.Holds s.notes id c
  unused : ∀ id, s.registry.get? id = none → ∀ c, ¬ UseNote.Holds s.notes id c
  /-- Keys that are entered, moved and taken out one by one are those that are found. -/
  keys : ∀ source path, s.registry.lookup? source path = s.keys source path
  /-- A binding is returned if it loses its last user, and is not found afterwards. -/
  release : ∀ id b, s.registry.get? id = some b → ∀ c,
    ((s.registry.release id c).1.isSome ↔ ∀ m, m ∈ b.consumers ↔ m = c) ∧
      ∀ gone, (s.registry.release id c).1 = some gone → gone = { b with consumers := ∅ } ∧
        (s.registry.release id c).2.get? id = none ∧
        (s.registry.release id c).2.lookup? b.selector.source b.basePath = none
  missing : ∀ id, s.registry.get? id = none → ∀ c, s.registry.release id c = (none, s.registry)
  /-- A binding follows its base if its key is free there, and else keeps its key. -/
  rekey : ∀ old new id b, s.registry.get? id = some b → (s.registry.rekey old new).get? id =
    some (if b.basePath = old ∧ s.registry.lookup? b.selector.source new = none then { b with basePath := new } else b)
  followers : ∀ old new id, id ∈ s.registry.followers old new ↔ ∃ b, s.registry.get? id = some b ∧
    b.basePath = old ∧ s.registry.lookup? b.selector.source new = none

/-- Whatever has been called, the registry accounts for all bindings and their users. -/
theorem accounted_runAll (calls : List RegistryCall) : (runAll calls).Accounted := by
  have h := balanced_runAll calls
  generalize runAll calls = s at h
  exact {
    found := fun id b hb source path => by
      rw [h.sound.lookup?_eq_some]
      simp [hb]
    live := fun source path id hfound => by
      obtain ⟨b, hb, -⟩ := Registry.of_lookup?_eq_some hfound
      exact ⟨b, hb⟩
    distinct := h.sound.key
    used := h.sound.used
    users := fun id b hb c => by
      rw [← h.users]
      simp [Registry.Serves, hb]
    unused := fun id hnone c => by
      rw [← h.users]
      simp [Registry.Serves, hnone]
    keys := h.keys
    release := fun id b hb c => by
      refine ⟨h.sound.isSome_fst_release hb, fun gone hgone => ?_⟩
      obtain ⟨-, -, -, hnone⟩ := Registry.fst_release hgone
      refine ⟨((h.sound.fst_release_eq_some hb).1 hgone).2, hnone, ?_⟩
      rw [Registry.lookup?_release h.sound hb, hgone]
      simp
    missing := fun id hnone c => by simp [Registry.release, hnone]
    rekey := fun old new id b hb => Registry.get?_rekey_of_get? hb
    followers := fun old new id => Registry.mem_followers_iff }

end Ledger

end LiveForm
