import LiveForm.Graph.Search
import Mathlib.Data.List.Chain
import Mathlib.Data.List.Nodup
import Mathlib.Logic.Relation

/-!
# What a search finds

A search for a path succeeds exactly if there is a path, and a search that goes on past some nodes only comes
upon exactly what can be reached that way. Both hold provided that the list of unseen nodes has all targets
of edges.
-/

set_option autoImplicit false

namespace LiveForm.Search

open Relation

variable {α : Type} {next : α → List α} {passes : α → Bool}

/-- A node that is reached from some targets, by way of nodes that the search goes on from. -/
inductive Reached (next : α → List α) (passes : α → Bool) (targets : List α) : α → Prop where
  | target {a : α} (h : a ∈ targets) : Reached next passes targets a
  | step {a b : α} (ha : Reached next passes targets a) (hpass : passes a = true) (h : b ∈ next a) :
      Reached next passes targets b

theorem Reached.mono {targets targets' : List α} {a : α} (h : Reached next passes targets a)
    (hsub : ∀ b ∈ targets, Reached next passes targets' b) : Reached next passes targets' a := by
  induction h with
  | target ha => exact hsub _ ha
  | step _ hpass hb ih => exact ih.step hpass hb

/-- The targets of some prolongations are the nodes behind the ends of the ways. -/
theorem mem_targets_prolongations {ways : List (List α)} {b : α} :
    b ∈ targets (prolongations next ways) ↔ ∃ way ∈ ways, ∃ a ∈ way.head?, b ∈ next a := by
  simp only [targets, prolongations, List.mem_map, List.mem_flatMap, Prod.exists, exists_and_right,
    exists_eq_right]
  constructor
  · rintro ⟨_, way, hway, h⟩
    cases way with
    | nil => simp at h
    | cons a rest =>
      obtain ⟨c, hc, heq⟩ := List.mem_map.1 h
      obtain ⟨rfl, -⟩ := Prod.mk.inj heq
      exact ⟨_, hway, a, rfl, hc⟩
  · rintro ⟨way, hway, a, ha, hb⟩
    cases way with
    | nil => simp at ha
    | cons c rest =>
      obtain rfl : c = a := by simpa using ha
      exact ⟨_, _, hway, List.mem_map.2 ⟨b, hb, rfl⟩⟩

/-- Different nodes from a source to a target, each of which is related to the next one. -/
structure IsWay (R : α → α → Prop) (source target : α) (way : List α) : Prop where
  nodup : way.Nodup
  chain : way.IsChain R
  head : way.head? = some source
  last : way.getLast? = some target

theorem IsWay.reflTransGen {R : α → α → Prop} {source target : α} {way : List α} (h : IsWay R source target way) :
    ReflTransGen R source target := by
  cases way with
  | nil => cases h.head
  | cons a rest =>
    obtain rfl := Option.some.inj h.head
    have htrans : (a :: rest).IsChain (ReflTransGen R) := h.chain.imp fun _ _ => .single
    rcases List.mem_cons.1 (List.mem_of_getLast? h.last) with rfl | hmem
    · exact .refl
    · exact htrans.rel_cons hmem

/-- Some ways from a source that edges prolong, by nodes that have not been come upon. -/
def Prolong (next : α → List α) (source : α) (unseen : List α) (edges : List (α × List α)) : Prop :=
  ∀ edge ∈ edges, (edge.1 :: edge.2).IsChain (fun b a => b ∈ next a) ∧ edge.2.Nodup ∧ (∀ a ∈ edge.2, a ∉ unseen) ∧
    edge.2.getLast? = some source

/-- The edges that lead on from some ways prolong these. -/
theorem prolong_prolongations {source : α} {unseen : List α} {ways : List (List α)}
    (h : ∀ way ∈ ways, way.IsChain (fun b a => b ∈ next a) ∧ way.Nodup ∧ (∀ a ∈ way, a ∉ unseen) ∧
      way.getLast? = some source) : Prolong next source unseen (prolongations next ways) := by
  intro edge hedge
  obtain ⟨way, hway, hmem⟩ := List.mem_flatMap.1 hedge
  obtain ⟨hchain, hrest⟩ := h way hway
  cases way with
  | nil => cases hmem
  | cons a rest =>
    obtain ⟨b, hb, rfl⟩ := List.mem_map.1 hmem
    exact ⟨List.isChain_cons_cons.2 ⟨hb, hchain⟩, hrest⟩

variable [DecidableEq α]

@[simp]
theorem mem_among {targets unseen : List α} {a : α} :
    a ∈ among targets unseen ↔ a ∈ unseen ∧ a ∈ targets := by
  simp [among]

@[simp]
theorem mem_outside {targets unseen : List α} {a : α} :
    a ∈ outside targets unseen ↔ a ∈ unseen ∧ a ∉ targets := by
  simp [outside]

section Reach

/-- A search finds only what can be reached. -/
theorem reached_of_mem_reach {unseen targets : List α} {a : α}
    (h : a ∈ reach next passes unseen targets) : Reached next passes targets a := by
  fun_induction reach next passes unseen targets with
  | case1 => simp at h
  | case2 unseen targets hne ih =>
    rcases List.mem_append.1 h with h | h
    · exact .target (mem_among.1 h).2
    · refine (ih h).mono fun b hb => ?_
      obtain ⟨c, hc, hb⟩ := List.mem_flatMap.1 hb
      obtain ⟨hc, hpass⟩ := List.mem_filter.1 hc
      exact .step (.target (mem_among.1 hc).2) hpass hb

/-- The targets that are unseen are found. -/
theorem mem_reach_of_mem {unseen targets : List α} {a : α} (hu : a ∈ unseen) (ht : a ∈ targets) :
    a ∈ reach next passes unseen targets := by
  have hmem : a ∈ among targets unseen := mem_among.2 ⟨hu, ht⟩
  rw [reach, if_neg (List.ne_nil_of_mem hmem)]
  exact List.mem_append_left _ hmem

/-- What a search finds is closed under the edges that it goes on along. -/
theorem mem_reach_of_next {unseen targets : List α} {a b : α}
    (ha : a ∈ reach next passes unseen targets) (hpass : passes a = true) (hb : b ∈ next a)
    (hu : b ∈ unseen) : b ∈ reach next passes unseen targets := by
  fun_induction reach next passes unseen targets with
  | case1 => simp at ha
  | case2 unseen targets hne ih =>
    by_cases hbt : b ∈ targets
    · exact List.mem_append_left _ (mem_among.2 ⟨hu, hbt⟩)
    · have hbo : b ∈ outside targets unseen := mem_outside.2 ⟨hu, hbt⟩
      refine List.mem_append_right _ ?_
      rcases List.mem_append.1 ha with ha | ha
      · exact mem_reach_of_mem hbo
          (List.mem_flatMap.2 ⟨a, List.mem_filter.2 ⟨ha, hpass⟩, hb⟩)
      · exact ih ha hbo

end Reach

section Path

/-- There is one way to each target. -/
theorem exists_mem_prolonged {edges : List (α × List α)} {nodes : List α} {a : α}
    (hn : a ∈ nodes) (he : a ∈ targets edges) :
    ∃ way ∈ prolonged edges nodes, way.head? = some a := by
  cases hlookup : edges.lookup a with
  | none =>
    obtain ⟨edge, hmem, hedge⟩ := List.mem_map.1 he
    have := List.lookup_eq_none_iff.1 hlookup edge hmem
    simp [hedge] at this
  | some w =>
    exact ⟨a :: w, List.mem_filterMap.2 ⟨a, hn, by simp [hlookup]⟩, rfl⟩

theorem head_of_mem_prolonged {edges : List (α × List α)} {nodes : List α} {way : List α} {a : α}
    (h : way ∈ prolonged edges nodes) (ha : way.head? = some a) : a ∈ nodes := by
  obtain ⟨b, hb, hway⟩ := List.mem_filterMap.1 h
  obtain ⟨w, -, rfl⟩ := Option.map_eq_some_iff.1 hway
  obtain rfl : b = a := by simpa using ha
  exact hb

/-- If no way is found, then what the edges lead to is closed and does not hold the target. -/
theorem closed_of_shortestWay?_none {target : α} {unseen : List α} {edges : List (α × List α)}
    (h : shortestWay? next target unseen edges = none) :
    ∃ V : List α, (∀ a ∈ targets edges, a ∈ unseen → a ∈ V) ∧
      (∀ a ∈ V, ∀ b ∈ next a, b ∈ unseen → b ∈ V) ∧ target ∉ V := by
  fun_induction shortestWay? next target unseen edges with
  | case1 unseen edges hempty =>
    refine ⟨[], fun a ha hu => ?_, by simp, by simp⟩
    have hmem := mem_among.2 ⟨hu, ha⟩
    rwa [hempty] at hmem
  | case2 => simp at h
  | case3 unseen edges hne ways hfind ih =>
    obtain ⟨V, hstart, hclosed, htarget⟩ := ih h
    refine ⟨among (targets edges) unseen ++ V, ?_, ?_, ?_⟩
    · intro a ha hu
      exact List.mem_append_left _ (mem_among.2 ⟨hu, ha⟩)
    · intro a ha b hb hu
      by_cases hbt : b ∈ targets edges
      · exact List.mem_append_left _ (mem_among.2 ⟨hu, hbt⟩)
      · have hbo : b ∈ outside (targets edges) unseen := mem_outside.2 ⟨hu, hbt⟩
        refine List.mem_append_right _ ?_
        rcases List.mem_append.1 ha with ha | ha
        · obtain ⟨way, hway, hhead⟩ := exists_mem_prolonged ha (mem_among.1 ha).2
          exact hstart b (mem_targets_prolongations.2 ⟨way, hway, a, hhead, hb⟩) hbo
        · exact hclosed a ha b hb hbo
    · intro hmem
      rcases List.mem_append.1 hmem with hmem | hmem
      · obtain ⟨way, hway, hhead⟩ := exists_mem_prolonged hmem (mem_among.1 hmem).2
        have := List.find?_eq_none.1 hfind way hway
        simp [hhead] at this
      · exact htarget hmem

/-- A way that is found leads to the target. -/
theorem reachable_of_shortestWay? {target : α} {unseen : List α} {edges : List (α × List α)}
    (h : (shortestWay? next target unseen edges).isSome) :
    ∃ a ∈ targets edges, ReflTransGen (fun a b => b ∈ next a) a target := by
  fun_induction shortestWay? next target unseen edges with
  | case1 => simp at h
  | case2 unseen edges hne ways way hfind =>
    have hhead : way.head? = some target := by simpa using List.find?_some hfind
    have hmem := head_of_mem_prolonged (List.mem_of_find?_eq_some hfind) hhead
    exact ⟨target, (mem_among.1 hmem).2, .refl⟩
  | case3 unseen edges hne ways hfind ih =>
    obtain ⟨b, hb, hpath⟩ := ih h
    obtain ⟨way, hway, a, ha, hb⟩ := mem_targets_prolongations.1 hb
    have hmem := head_of_mem_prolonged hway ha
    exact ⟨a, (mem_among.1 hmem).2, .head hb hpath⟩

/-- A way is prolonged by nodes that are still unseen, so it does not meet itself. -/
theorem Prolong.ways {source : α} {unseen : List α} {edges : List (α × List α)}
    (h : Prolong next source unseen edges) : ∀ way ∈ prolonged edges (among (targets edges) unseen),
      way.IsChain (fun b a => b ∈ next a) ∧ way.Nodup ∧ (∀ a ∈ way, a ∉ outside (targets edges) unseen) ∧
        way.getLast? = some source := by
  intro way hway
  obtain ⟨a, ha, hlookup⟩ := List.mem_filterMap.1 hway
  obtain ⟨rest, hrest, rfl⟩ := Option.map_eq_some_iff.1 hlookup
  obtain ⟨hu, ht⟩ := mem_among.1 ha
  obtain ⟨before, after, hedges, -⟩ := List.lookup_eq_some_iff.1 hrest
  obtain ⟨hchain, hnodup, hseen, hlast⟩ := h (a, rest) (by simp [hedges])
  refine ⟨hchain, List.nodup_cons.2 ⟨fun hmem => hseen a hmem hu, hnodup⟩, ?_, ?_⟩
  · intro b hb
    rw [mem_outside, not_and_not_right]
    intro hbu
    rcases List.mem_cons.1 hb with rfl | hb
    · exact ht
    · exact absurd hbu (hseen b hb)
  · cases rest with
    | nil => cases hlast
    | cons b rest => rw [List.getLast?_cons_cons, hlast]

/-- The nodes of a way that is found are different, and edges lead from each to the next one, beginning with the source. -/
theorem way_of_shortestWay? {source target : α} {unseen way : List α} {edges : List (α × List α)}
    (h : shortestWay? next target unseen edges = some way) (hedges : Prolong next source unseen edges) :
    way.IsChain (fun b a => b ∈ next a) ∧ way.Nodup ∧ way.head? = some target ∧ way.getLast? = some source := by
  fun_induction shortestWay? next target unseen edges with
  | case1 => cases h
  | case2 unseen edges hne ways way' hfind =>
    obtain rfl := Option.some.inj h
    obtain ⟨hchain, hnodup, -, hlast⟩ := hedges.ways _ (List.mem_of_find?_eq_some hfind)
    exact ⟨hchain, hnodup, by simpa using List.find?_some hfind, hlast⟩
  | case3 unseen edges hne ways hfind ih => exact ih h (prolong_prolongations hedges.ways)

/-- A path that is found is a way from the source to the target. -/
theorem isWay_of_path? {source target : α} {unseen way : List α} (h : path? next source target unseen = some way)
    (hsource : source ∉ unseen) : IsWay (fun a b => b ∈ next a) source target way := by
  unfold path? at h
  split at h
  next heq =>
    obtain rfl := Option.some.inj h
    exact ⟨List.nodup_singleton _, .singleton _, rfl, by rw [heq]; rfl⟩
  next =>
    obtain ⟨back, hback, rfl⟩ := Option.map_eq_some_iff.1 h
    have hstart : Prolong next source unseen (prolongations next [[source]]) := by
      apply prolong_prolongations
      intro way hway
      obtain rfl := List.mem_singleton.1 hway
      exact ⟨.singleton _, List.nodup_singleton _, by simpa using hsource, rfl⟩
    obtain ⟨hchain, hnodup, hhead, hlast⟩ := way_of_shortestWay? hback hstart
    exact ⟨List.nodup_reverse.2 hnodup, List.isChain_reverse.2 hchain, by rw [List.head?_reverse, hlast],
      by rw [List.getLast?_reverse, hhead]⟩

/-- A path is found exactly if there is one. -/
theorem isSome_path? {source target : α} {unseen : List α}
    (hunseen : ∀ a b, b ∈ next a → b = source ∨ b ∈ unseen) :
    (path? next source target unseen).isSome ↔
      ReflTransGen (fun a b => b ∈ next a) source target := by
  unfold path?
  by_cases heq : source = target
  · subst heq
    simp [ReflTransGen.refl]
  · rw [if_neg heq, Option.isSome_map]
    constructor
    · intro h
      obtain ⟨b, hb, hpath⟩ := reachable_of_shortestWay? h
      obtain ⟨way, hway, a, ha, hb⟩ := mem_targets_prolongations.1 hb
      obtain rfl : way = [source] := by simpa using hway
      obtain rfl : source = a := by simpa using ha
      exact .head hb hpath
    · intro hpath
      rw [Option.isSome_iff_ne_none]
      intro hnone
      obtain ⟨V, hstart, hclosed, htarget⟩ := closed_of_shortestWay?_none hnone
      have hreach : ∀ a, ReflTransGen (fun a b => b ∈ next a) source a → a = source ∨ a ∈ V := by
        intro a ha
        induction ha with
        | refl => exact .inl rfl
        | @tail b c _ hc ih =>
          rcases hunseen b c hc with hsource | hu
          · exact .inl hsource
          · refine .inr ?_
            rcases ih with rfl | hb
            · exact hstart c (mem_targets_prolongations.2 ⟨[b], by simp, b, rfl, hc⟩) hu
            · exact hclosed b hb c hc hu
      exact (hreach target hpath).elim (fun h => heq h.symm) htarget

end Path

end LiveForm.Search
