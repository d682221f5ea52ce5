import LiveForm.Graph.Levels
import LiveForm.Proofs.Graph.Vertices
import Mathlib.Data.List.Chain
import Mathlib.Data.List.TakeWhile
import Mathlib.Logic.Relation

/-!
# The search for levels

What holds while vertices are entered and left. The tasks are a stack: the vertices that are still to be left
make up the trail, and whatever lies above one of them is read by its formula. When a vertex is left, all that
its formula reads has been left before, so its level can be told. A source that is on the trail closes a
circle.
-/

set_option autoImplicit false

namespace LiveForm.Graph

open Relation

variable {g : Graph} {order : SearchOrder} {n m : NodeId} {k : Nat} {unseen trail : List NodeId}
  {levels : Std.ExtTreeMap NodeId Nat} {tasks : List Task}

theorem mem_sources : m ∈ g.sources n ↔ m ∈ g.predecessors n ∧ g.contains m = true := by
  simp [sources]

section Stack

/-- The vertex that a task is about. -/
def Task.node : Task → NodeId
  | .enter node => node
  | .leave node => node

/-- The vertices that are still to be left. -/
def trailOf : List Task → List NodeId
  | [] => []
  | .enter _ :: tasks => trailOf tasks
  | .leave node :: tasks => node :: trailOf tasks

/-- Each task is about a vertex that is not on the trail below it, and that the first formula on that trail
reads. -/
def Stacked (g : Graph) : List Task → Prop
  | [] => True
  | task :: tasks =>
    g.contains task.node = true ∧ task.node ∉ trailOf tasks ∧
      (∀ reader ∈ (trailOf tasks).head?, task.node ∈ g.sources reader) ∧ Stacked g tasks

/-- If the vertices in `done` have been left, then whenever a vertex is left its sources will have been left
before. -/
def Covered (g : Graph) (done : NodeId → Prop) : List Task → Prop
  | [] => True
  | .enter node :: tasks => Covered g (fun m => done m ∨ m = node) tasks
  | .leave node :: tasks => (∀ m ∈ g.sources node, done m) ∧ Covered g (fun m => done m ∨ m = node) tasks

theorem Covered.mono {done done' : NodeId → Prop} (hsub : ∀ m, done m → done' m) (h : Covered g done tasks) :
    Covered g done' tasks := by
  induction tasks generalizing done done' with
  | nil => trivial
  | cons task tasks ih =>
    have hmore (node : NodeId) : ∀ m, done m ∨ m = node → done' m ∨ m = node := fun m => Or.imp_left (hsub m)
    cases task with
    | enter node => exact ih (hmore node) h
    | leave node => exact ⟨fun m hm => hsub m (h.1 m hm), ih (hmore node) h.2⟩

theorem trailOf_enter (nodes : List NodeId) (tasks : List Task) :
    trailOf (nodes.map .enter ++ tasks) = trailOf tasks := by
  induction nodes with
  | nil => rfl
  | cons node nodes ih => exact ih

/-- Vertices that the first formula on the trail reads may be put on the stack. -/
theorem Stacked.enter {nodes : List NodeId} (h : Stacked g tasks)
    (hnodes : ∀ m ∈ nodes, g.contains m = true ∧ m ∉ trailOf tasks ∧
      ∀ reader ∈ (trailOf tasks).head?, m ∈ g.sources reader) : Stacked g (nodes.map .enter ++ tasks) := by
  induction nodes with
  | nil => exact h
  | cons node nodes ih =>
    obtain ⟨hvertex, htrail, hread⟩ := hnodes node List.mem_cons_self
    refine ⟨hvertex, ?_, ?_, ih fun m hm => hnodes m (List.mem_cons_of_mem _ hm)⟩
    · exact (trailOf_enter nodes tasks).symm ▸ htrail
    · exact (trailOf_enter nodes tasks).symm ▸ hread

theorem Covered.enter {nodes : List NodeId} {done : NodeId → Prop}
    (h : Covered g (fun m => done m ∨ m ∈ nodes) tasks) : Covered g done (nodes.map .enter ++ tasks) := by
  induction nodes generalizing done with
  | nil => exact h.mono fun m hm => hm.resolve_right (List.not_mem_nil)
  | cons node nodes ih =>
    refine ih (h.mono fun m hm => ?_)
    simpa only [List.mem_cons, or_assoc] using hm

/-- Each node of a trail is read by the formula of the next one. -/
theorem Stacked.isChain (h : Stacked g tasks) : (trailOf tasks).IsChain (fun m n => m ∈ g.sources n) := by
  induction tasks with
  | nil => exact .nil
  | cons task tasks ih =>
    cases task with
    | enter node => exact ih h.2.2.2
    | leave node => exact List.isChain_cons.2 ⟨h.2.2.1, ih h.2.2.2⟩

theorem Stacked.nodup (h : Stacked g tasks) : (trailOf tasks).Nodup := by
  induction tasks with
  | nil => exact .nil
  | cons task tasks ih =>
    cases task with
    | enter node => exact ih h.2.2.2
    | leave node => exact List.nodup_cons.2 ⟨h.2.1, ih h.2.2.2⟩

end Stack

section Circles

variable {R : NodeId → NodeId → Prop}

/-- Nodes of which each is related to the next one, and the last one to the first. -/
structure Circular (R : NodeId → NodeId → Prop) (circle : List NodeId) : Prop where
  ne_nil : circle ≠ []
  nodup : circle.Nodup
  chain : (circle ++ circle.take 1).IsChain R

/-- A circle may be told from any of its nodes on. -/
theorem Circular.turned {before circle : List NodeId} (h : Circular R (before ++ circle)) :
    Circular R (circle ++ before) := by
  refine ⟨?_, List.perm_append_comm.nodup_iff.1 h.nodup, ?_⟩
  · simpa [and_comm] using h.ne_nil
  · have hchain := h.chain
    cases before with
    | nil => simpa using hchain
    | cons first before =>
      cases circle with
      | nil => simpa using hchain
      | cons second circle =>
        have hround : ((first :: before) ++ second :: (circle ++ [first])).IsChain R := by simpa using hchain
        obtain ⟨hfirst, hsecond⟩ := List.isChain_split.1 hround
        have hjoined : ((second :: circle) ++ [first] ++ (before ++ [second])).IsChain R :=
          List.IsChain.append_overlap (by simpa using hsecond) (by simpa using hfirst) (by simp)
        simpa using hjoined

theorem Circular.mono {R' : NodeId → NodeId → Prop} {circle : List NodeId} (h : Circular R circle)
    (hsub : ∀ m n, R m n → R' m n) : Circular R' circle :=
  ⟨h.ne_nil, h.nodup, h.chain.imp hsub⟩

/-- Each node of a circle has a next one. -/
theorem Circular.exists_next {circle : List NodeId} (h : Circular R circle) (hm : m ∈ circle) : ∃ n, R m n := by
  obtain ⟨before, after, rfl⟩ := List.append_of_mem hm
  have hchain : (m :: (after ++ before ++ [m])).IsChain R := by simpa using h.turned.chain
  cases hrest : after ++ before ++ [m] with
  | nil => simp at hrest
  | cons n rest =>
    rw [hrest] at hchain
    exact ⟨n, (List.isChain_cons_cons.1 hchain).1⟩

/-- The nodes of a circle are connected with themselves. -/
theorem Circular.transGen {circle : List NodeId} (h : Circular R circle) : ∃ n, TransGen R n n := by
  obtain ⟨first, rest, rfl⟩ := List.exists_cons_of_ne_nil h.ne_nil
  have hround : (first :: (rest ++ [first])).IsChain R := by simpa using h.chain
  have htrans : (first :: (rest ++ [first])).IsChain (TransGen R) := hround.imp fun _ _ => TransGen.single
  exact ⟨first, htrans.rel_cons (List.mem_append_right _ List.mem_cons_self)⟩

/-- What is found is a part of the trail, up to the node that is looked for. -/
theorem circleAt_prefix (hmem : m ∈ trail) : circleAt trail m <+: trail := by
  have hne : trail.dropWhile (· ≠ m) ≠ [] := by
    rw [ne_eq, List.dropWhile_eq_nil_iff]
    intro hall
    simpa using hall m hmem
  obtain ⟨first, rest, hrest⟩ := List.exists_cons_of_ne_nil hne
  have hfirst : first = m := by
    have hnot := List.head_dropWhile_not (· ≠ m) hne
    simp only [hrest, List.head_cons] at hnot
    simpa using hnot
  refine ⟨rest, ?_⟩
  calc circleAt trail m ++ rest
      = trail.takeWhile (· ≠ m) ++ trail.dropWhile (· ≠ m) := by
        rw [hrest, hfirst, circleAt, List.append_assoc, List.singleton_append]
    _ = trail := List.takeWhile_append_dropWhile

/-- A vertex of the trail to which the last one entered is related closes a circle. -/
theorem circular_circleAt (hchain : (n :: trail).IsChain R) (hnodup : (n :: trail).Nodup) (hmem : m ∈ n :: trail)
    (hread : R m n) : Circular R (circleAt (n :: trail) m) := by
  have hprefix := circleAt_prefix hmem
  have hne : circleAt (n :: trail) m ≠ [] := by simp [circleAt]
  have hhead : (circleAt (n :: trail) m).take 1 = [n] := by
    obtain ⟨first, rest, hfirst⟩ := List.exists_cons_of_ne_nil hne
    rw [hfirst] at hprefix ⊢
    obtain ⟨_, heq⟩ := hprefix
    simpa using (List.cons.inj heq).1
  refine ⟨hne, hprefix.sublist.nodup hnodup, ?_⟩
  rw [hhead]
  have htaken : (circleAt (n :: trail) m).IsChain R := List.IsChain.prefix hchain hprefix
  refine htaken.append (.singleton n) fun last hlast first hfirst => ?_
  obtain rfl : n = first := by simpa using hfirst
  obtain rfl : m = last := by simpa [circleAt] using hlast
  exact hread

end Circles

section Ranks

/-- The levels that have been told: each is the least one above those of the sources. -/
structure Ranked (g : Graph) (levels : Std.ExtTreeMap NodeId Nat) : Prop where
  ascending : ∀ n k, levels[n]? = some k → ∀ m ∈ g.sources n, ∃ k', levels[m]? = some k' ∧ k' < k
  tight : ∀ n k, levels[n]? = some (k + 1) → ∃ m ∈ g.sources n, levels[m]? = some k

/-- The least level above some nodes lies above the level of each of them, and just above one of these unless
it is the lowest. -/
theorem levelAbove_spec (levels : Std.ExtTreeMap NodeId Nat) (nodes : List NodeId) :
    (∀ m ∈ nodes, ∀ k, levels[m]? = some k → k < levelAbove levels nodes) ∧
      ∀ k, levelAbove levels nodes = k + 1 → ∃ m ∈ nodes, levels[m]? = some k := by
  have hmem (k : Nat) : k ∈ (nodes.filterMap (levels[·]?)).map (· + 1) ↔
      ∃ m ∈ nodes, ∃ j, levels[m]? = some j ∧ j + 1 = k := by
    simp only [List.mem_map, List.mem_filterMap]
    exact ⟨fun ⟨j, ⟨m, hm, hj⟩, hk⟩ => ⟨m, hm, j, hj, hk⟩, fun ⟨m, hm, j, hj, hk⟩ => ⟨j, ⟨m, hm, hj⟩, hk⟩⟩
  unfold levelAbove
  cases hmax : ((nodes.filterMap (levels[·]?)).map (· + 1)).max? with
  | none =>
    refine ⟨fun m hm k hk => ?_, fun k hk => by simp at hk⟩
    have hin := (hmem (k + 1)).2 ⟨m, hm, k, hk, rfl⟩
    rw [List.max?_eq_none_iff.1 hmax] at hin
    simp at hin
  | some top =>
    obtain ⟨htop, hle⟩ := List.max?_eq_some_iff.1 hmax
    refine ⟨fun m hm k hk => ?_, fun k hk => ?_⟩
    · exact hle (k + 1) ((hmem (k + 1)).2 ⟨m, hm, k, hk, rfl⟩)
    · obtain ⟨m, hm, j, hj, hjk⟩ := (hmem top).1 htop
      have hjk' : j = k := Nat.succ.inj (hjk.trans hk)
      exact ⟨m, hm, hjk' ▸ hj⟩

/-- A node may be told its level when all its sources have been told theirs. -/
theorem Ranked.insert (h : Ranked g levels) (hnew : n ∉ levels) (hsources : ∀ m ∈ g.sources n, m ∈ levels)
    (hvertices : ∀ m ∈ levels, g.contains m = true) :
    Ranked g (levels.insert n (levelAbove levels (g.predecessors n).toList)) := by
  obtain ⟨habove, hjust⟩ := levelAbove_spec levels (g.predecessors n).toList
  have hself (k : Nat) : (levels.insert n k)[n]? = some k := Std.ExtTreeMap.getElem?_insert_self
  have hkeep (m : NodeId) (hm : m ≠ n) (k : Nat) : (levels.insert n k)[m]? = levels[m]? := by
    rw [Std.ExtTreeMap.getElem?_insert, if_neg]
    simpa using Ne.symm hm
  have hold {m : NodeId} {j : Nat} (hj : levels[m]? = some j) (k : Nat) :
      (levels.insert n k)[m]? = some j := by
    have hin : m ∈ levels := Std.ExtTreeMap.mem_iff_isSome_getElem?.2 (hj ▸ rfl)
    rw [hkeep m (fun heq => hnew (heq ▸ hin)), hj]
  refine ⟨fun m k hk s hs => ?_, fun m k hk => ?_⟩
  · by_cases heq : m = n
    · subst heq
      obtain rfl := Option.some.inj ((hself _).symm.trans hk)
      obtain ⟨j, hj⟩ := Option.isSome_iff_exists.1 (Std.ExtTreeMap.mem_iff_isSome_getElem?.1 (hsources s hs))
      exact ⟨j, hold hj _, habove s (Std.ExtTreeSet.mem_toList.2 (mem_sources.1 hs).1) j hj⟩
    · obtain ⟨j, hj, hlt⟩ := h.ascending m k ((hkeep m heq _).symm.trans hk) s hs
      exact ⟨j, hold hj _, hlt⟩
  · by_cases heq : m = n
    · subst heq
      obtain ⟨s, hs, hsk⟩ := hjust k (Option.some.inj ((hself _).symm.trans hk))
      have hin : s ∈ levels := Std.ExtTreeMap.mem_iff_isSome_getElem?.2 (hsk ▸ rfl)
      exact ⟨s, mem_sources.2 ⟨Std.ExtTreeSet.mem_toList.1 hs, hvertices s hin⟩, hold hsk _⟩
    · obtain ⟨s, hs, hsk⟩ := h.tight m k ((hkeep m heq _).symm.trans hk)
      exact ⟨s, hs, hold hsk _⟩

end Ranks

/-- The state of the search: each vertex has not been entered, is on the trail, or has a level. -/
structure Exploring (g : Graph) (unseen trail : List NodeId) (levels : Std.ExtTreeMap NodeId Nat)
    (tasks : List Task) : Prop where
  trail_eq : trail = trailOf tasks
  stacked : Stacked g tasks
  covered : Covered g (· ∈ levels) tasks
  queued : ∀ n ∈ unseen, .enter n ∈ tasks
  nodup : unseen.Nodup
  vertices : ∀ n, g.contains n = true ↔ n ∈ unseen ∨ n ∈ trail ∨ n ∈ levels
  fresh : ∀ n ∈ unseen, n ∉ trail ∧ n ∉ levels
  unranked : ∀ n ∈ trail, n ∉ levels
  ranked : Ranked g levels

/-- In the beginning all vertices are to be entered. -/
theorem exploring_start (order : SearchOrder) (g : Graph) :
    Exploring g g.nodes [] ∅ ((order.vertices g.nodes).map .enter) := by
  have hmem (n : NodeId) : n ∈ order.vertices g.nodes ↔ n ∈ g.nodes := (order.vertices_perm _).mem_iff
  have htrail := trailOf_enter (order.vertices g.nodes) []
  rw [List.append_nil] at htrail
  have hstacked : Stacked g ((order.vertices g.nodes).map .enter ++ []) :=
    Stacked.enter trivial fun m hm => ⟨mem_nodes.1 ((hmem m).1 hm), by simp [trailOf], by simp [trailOf]⟩
  have hcovered : Covered g (· ∈ (∅ : Std.ExtTreeMap NodeId Nat)) ((order.vertices g.nodes).map .enter ++ []) :=
    Covered.enter trivial
  rw [List.append_nil] at hstacked hcovered
  exact
    { trail_eq := htrail.symm
      stacked := hstacked
      covered := hcovered
      queued := fun n hn => List.mem_map_of_mem ((hmem n).2 hn)
      nodup := Std.ExtTreeMap.nodup_keys
      vertices := fun n => by simp [mem_nodes]
      fresh := fun n _ => by simp
      unranked := fun n hn => by simp at hn
      ranked := ⟨fun n k hk => by simp at hk, fun n k hk => by simp at hk⟩ }

namespace Exploring

/-- In the end all vertices have levels. -/
theorem done (h : Exploring g unseen trail levels []) : (∀ n, n ∈ levels ↔ g.contains n = true) ∧ Ranked g levels := by
  refine ⟨fun n => ?_, h.ranked⟩
  have hunseen : n ∉ unseen := fun hn => by simpa using h.queued n hn
  have htrail : n ∉ trail := by simp [h.trail_eq, trailOf]
  simp [h.vertices, hunseen, htrail]

/-- A vertex that has been entered before has been left, too. -/
theorem skip (h : Exploring g unseen trail levels (.enter n :: tasks)) (hn : n ∉ unseen) :
    Exploring g unseen trail levels tasks := by
  have hvertex := (h.vertices n).1 h.stacked.1
  have hleft : n ∈ levels := (hvertex.resolve_left hn).resolve_left fun htrail =>
    h.stacked.2.1 (h.trail_eq ▸ htrail)
  exact
    { h with
      trail_eq := h.trail_eq
      stacked := h.stacked.2.2.2
      covered := h.covered.mono fun m hm => hm.elim id fun heq => heq ▸ hleft
      queued := fun m hm => (List.mem_cons.1 (h.queued m hm)).resolve_left
        fun heq => hn (Task.enter.inj heq ▸ hm) }

/-- A vertex is left when all its sources have been left. -/
theorem leave (h : Exploring g unseen trail levels (.leave n :: tasks)) :
    Exploring g unseen trail.tail (levels.insert n (levelAbove levels (g.predecessors n).toList)) tasks := by
  have htrail : trail = n :: trailOf tasks := h.trail_eq
  have hsources : ∀ m ∈ g.sources n, m ∈ levels := h.covered.1
  have hnew : n ∉ levels := h.unranked n (htrail ▸ List.mem_cons_self)
  have hmem (m : NodeId) (k : Nat) : m ∈ levels.insert n k ↔ m = n ∨ m ∈ levels := by
    rw [Std.ExtTreeMap.mem_insert, Std.LawfulEqCmp.compare_eq_iff_eq, eq_comm]
  rw [htrail, List.tail_cons]
  constructor
  case trail_eq => rfl
  case stacked => exact h.stacked.2.2.2
  case covered => exact h.covered.2.mono fun m hm => (hmem m _).2 hm.symm
  case queued => exact fun m hm => by simpa using h.queued m hm
  case nodup => exact h.nodup
  case vertices =>
    intro m
    rw [h.vertices, htrail, hmem, List.mem_cons]
    grind
  case fresh =>
    intro m hm
    obtain ⟨hmt, hml⟩ := h.fresh m hm
    rw [htrail, List.mem_cons, not_or] at hmt
    rw [hmem, not_or]
    exact ⟨hmt.2, hmt.1, hml⟩
  case unranked =>
    intro m hm
    rw [hmem, not_or]
    exact ⟨fun heq => h.stacked.2.1 (heq ▸ hm), h.unranked m (htrail ▸ List.mem_cons_of_mem _ hm)⟩
  case ranked =>
    exact h.ranked.insert hnew hsources fun m hm => (h.vertices m).2 (.inr (.inr hm))

theorem mem_waiting : m ∈ (order.predecessors n (g.sources n)).filter (!levels.contains ·) ↔
    m ∈ g.sources n ∧ m ∉ levels := by
  rw [List.mem_filter, (order.predecessors_perm _ _).mem_iff, Bool.not_eq_true', ← Bool.not_eq_true,
    Std.ExtTreeMap.contains_iff_mem]

/-- A vertex is entered by putting those of its sources on the stack that have no level yet. -/
theorem enter (h : Exploring g unseen trail levels (.enter n :: tasks)) (hn : n ∈ unseen)
    {waiting : List NodeId} (hwaiting : ∀ m, m ∈ waiting ↔ m ∈ g.sources n ∧ m ∉ levels)
    (hopen : ∀ m ∈ waiting, m ∉ n :: trail) :
    Exploring g (unseen.erase n) (n :: trail) levels (waiting.reverse.map .enter ++ .leave n :: tasks) := by
  have htrail : trail = trailOf tasks := h.trail_eq
  obtain ⟨hvertex, hfree, hread, hstacked⟩ := h.stacked
  have herase (m : NodeId) : m ∈ unseen.erase n ↔ m ≠ n ∧ m ∈ unseen := h.nodup.mem_erase_iff
  constructor
  case trail_eq => rw [trailOf_enter, htrail, trailOf]
  case stacked =>
    refine Stacked.enter ⟨hvertex, hfree, hread, hstacked⟩ fun m hm => ?_
    rw [List.mem_reverse] at hm
    have hsource := ((hwaiting m).1 hm).1
    refine ⟨(mem_sources.1 hsource).2, by simpa [trailOf, htrail] using hopen m hm, fun reader hreader => ?_⟩
    obtain rfl : n = reader := by simpa [trailOf] using hreader
    exact hsource
  case covered =>
    refine Covered.enter ⟨fun m hm => ?_, h.covered.mono fun m hm => ?_⟩
    · by_cases hlevel : m ∈ levels
      · exact .inl hlevel
      · exact .inr (List.mem_reverse.2 ((hwaiting m).2 ⟨hm, hlevel⟩))
    · exact hm.imp_left .inl
  case queued =>
    intro m hm
    obtain ⟨hne, hm⟩ := (herase m).1 hm
    have hin := (List.mem_cons.1 (h.queued m hm)).resolve_left fun heq => hne (Task.enter.inj heq)
    exact List.mem_append_right _ (List.mem_cons_of_mem _ hin)
  case nodup => exact h.nodup.erase n
  case vertices =>
    intro m
    rw [h.vertices, herase, List.mem_cons]
    by_cases heq : m = n
    · simp [heq, hn]
    · simp [heq]
  case fresh =>
    intro m hm
    obtain ⟨hne, hm⟩ := (herase m).1 hm
    obtain ⟨hmt, hml⟩ := h.fresh m hm
    exact ⟨by simp [hne, hmt], hml⟩
  case unranked =>
    intro m hm
    rcases List.mem_cons.1 hm with rfl | hm
    · exact (h.fresh m hn).2
    · exact h.unranked m hm
  case ranked => exact h.ranked

/-- The search returns the levels of all vertices, or else a circle. -/
theorem explore (h : Exploring g unseen trail levels tasks) :
    match Graph.explore order g unseen trail levels tasks with
    | .ok levels => (∀ n, n ∈ levels ↔ g.contains n = true) ∧ Ranked g levels
    | .error circle => Circular (fun m n => m ∈ g.sources n) circle := by
  fun_induction Graph.explore order g unseen trail levels tasks with
  | case1 => exact h.done
  | case2 unseen trail levels node tasks ih => exact ih h.leave
  | case3 unseen trail levels node tasks hn waiting source hfind =>
    have hmem : source ∈ node :: trail := by simpa using List.find?_some hfind
    have hsource := (mem_waiting.1 (List.mem_of_find?_eq_some hfind)).1
    have htrail : trail = trailOf tasks := h.trail_eq
    -- The vertex is about to be put on the trail, and the stack says that it may be.
    have hstacked : Stacked g (.leave node :: tasks) := h.stacked
    have hchain : (node :: trail).IsChain (fun m n => m ∈ g.sources n) := htrail ▸ hstacked.isChain
    have hnodup : (node :: trail).Nodup := htrail ▸ hstacked.nodup
    exact circular_circleAt hchain hnodup hmem hsource
  | case4 unseen trail levels node tasks hn waiting hfind ih =>
    refine ih (h.enter hn (fun _ => mem_waiting) fun m hm => ?_)
    simpa using List.find?_eq_none.1 hfind m hm
  | case5 unseen trail levels node tasks hn ih => exact ih (h.skip hn)

end Exploring

end LiveForm.Graph
