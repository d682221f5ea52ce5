import LiveForm.Proofs.Path.RoundTrip
import LiveForm.Proofs.Selector.Ordering
import LiveForm.Proofs.Tree.Finding

/-!
# The path of a field as a selector

Paths and selectors are read by different functions, which agree: a text is a path if and only if it is a selector of the
root without wildcards, and it stands for the same steps either way. So the path of a field, written as a selector, stands
for that field and for no other one, as long as the root of the tree has no key.
-/

set_option autoImplicit false

namespace LiveForm

/-- The pattern that only one step fits. -/
def PatternStep.exactly : Step → PatternStep
  | .name s => name s
  | .index i => index i

/-- The pattern that only one sequence of steps fits. -/
def Path.pattern (p : Path) : List PatternStep :=
  p.steps.map PatternStep.exactly

section Readings

open PatternStep

variable {step : Step} {steps : List Step} {pattern : List PatternStep} {pieces : List (List Char)}

theorem PatternStep.fits_exactly (step other : Step) : (exactly step).fits other = true ↔ other = step := by
  cases step <;> cases other <;> simp only [exactly, fits, beq_iff_eq, reduceCtorEq, Bool.false_eq_true, Step.name.injEq,
    Step.index.injEq] <;> exact eq_comm

/-- A pattern without wildcards is fit by one sequence of steps. -/
theorem fitsSteps_exactly (steps others : List Step) : fitsSteps (steps.map exactly) others = true ↔ others = steps := by
  induction steps generalizing others with
  | nil => cases others <;> simp [fitsSteps]
  | cons step steps ih =>
    cases others with
    | nil => simp [fitsSteps]
    | cons other others => simp [fitsSteps, fits_exactly, ih]

theorem PatternStep.exactly_ne_anyIndex (step : Step) : exactly step ≠ .anyIndex := by
  cases step <;> simp [exactly]

theorem PatternStep.anyIndex_not_mem (steps : List Step) : .anyIndex ∉ steps.map exactly := by
  intro hmem
  obtain ⟨step, -, hstep⟩ := List.mem_map.1 hmem
  exact exactly_ne_anyIndex step hstep

/-- A step stands for itself in a selector, unless it is a negative index. -/
theorem PatternStep.ofStep?_eq_some_iff {part : PatternStep} (hpart : part ≠ .anyIndex) :
    ofStep? step = some part ↔ Path.isNegativeIndex step = false ∧ part = exactly step := by
  cases step with
  | name s => simp [ofStep?, Path.isNegativeIndex, exactly, eq_comm]
  | index i =>
    simp only [ofStep?, Path.isNegativeIndex, exactly, decide_eq_false_iff_not, Int.not_lt]
    split
    next hi => simp [hi, hpart.symm]
    next =>
      split
      next hpos => simp [hpos, eq_comm]
      next hneg => simp [hneg]

/-- The steps of a piece stand for themselves, unless one of them is a negative index. -/
theorem PatternStep.mapM_ofStep? (hpattern : .anyIndex ∉ pattern) :
    steps.mapM ofStep? = some pattern ↔ steps.any Path.isNegativeIndex = false ∧ pattern = steps.map exactly := by
  induction steps generalizing pattern with
  | nil => simp [eq_comm]
  | cons step steps ih =>
    rw [List.mapM_cons, List.any_cons, Bool.or_eq_false_iff, List.map_cons]
    constructor
    · intro h
      obtain ⟨part, hpart, rest, hrest, hcons⟩ : ∃ part, ofStep? step = some part ∧ ∃ rest,
          steps.mapM ofStep? = some rest ∧ part :: rest = pattern := by simpa [Option.bind_eq_some_iff] using h
      obtain rfl := hcons
      rw [List.mem_cons, not_or] at hpattern
      obtain ⟨hstep, rfl⟩ := (ofStep?_eq_some_iff (Ne.symm hpattern.1)).1 hpart
      obtain ⟨hsteps, rfl⟩ := (ih hpattern.2).1 hrest
      exact ⟨⟨hstep, hsteps⟩, rfl⟩
    · rintro ⟨⟨hstep, hsteps⟩, rfl⟩
      rw [(ofStep?_eq_some_iff (exactly_ne_anyIndex step)).2 ⟨hstep, rfl⟩, (ih (anyIndex_not_mem steps)).2 ⟨hsteps, rfl⟩]
      rfl

theorem Path.stepsOfPieces_cons_eq_ok {piece : List Char} :
    stepsOfPieces (piece :: pieces) = .ok steps ↔ ∃ first rest, piece? piece = some first ∧
      first.any isNegativeIndex = false ∧ stepsOfPieces pieces = .ok rest ∧ steps = first ++ rest := by
  rw [stepsOfPieces]
  constructor
  · intro h
    split at h
    · cases h
    next first hfirst =>
      split at h
      · cases h
      next hnegative =>
        cases hrest : stepsOfPieces pieces with
        | error fault =>
          rw [hrest] at h
          cases h
        | ok rest =>
          rw [hrest] at h
          exact ⟨first, rest, hfirst, by simpa using hnegative, rfl, (Except.ok.inj h).symm⟩
  · rintro ⟨first, rest, hfirst, hnegative, hrest, rfl⟩
    simp only [hfirst, hnegative, hrest]
    rfl

theorem Selector.patternOfPieces_cons_eq_ok {piece : List Char} :
    patternOfPieces (piece :: pieces) = .ok pattern ↔ ∃ first parts rest, Path.piece? piece = some first ∧
      first.mapM ofStep? = some parts ∧ patternOfPieces pieces = .ok rest ∧ pattern = parts ++ rest := by
  rw [patternOfPieces]
  constructor
  · intro h
    split at h
    · cases h
    next first hfirst =>
      split at h
      · cases h
      next parts hparts =>
        cases hrest : patternOfPieces pieces with
        | error fault =>
          rw [hrest] at h
          cases h
        | ok rest =>
          rw [hrest] at h
          exact ⟨first, parts, rest, hfirst, hparts, rfl, (Except.ok.inj h).symm⟩
  · rintro ⟨first, parts, rest, hfirst, hparts, hrest, rfl⟩
    simp only [hfirst, hparts, hrest]
    rfl

/-- Pieces are read as a pattern without wildcards exactly if they are read as steps, and these are the ones that the
pattern asks for. -/
theorem Selector.patternOfPieces_eq_ok (hpattern : .anyIndex ∉ pattern) :
    patternOfPieces pieces = .ok pattern ↔
      ∃ steps, Path.stepsOfPieces pieces = .ok steps ∧ pattern = steps.map exactly := by
  induction pieces generalizing pattern with
  | nil => simp [patternOfPieces, Path.stepsOfPieces, eq_comm]
  | cons piece pieces ih =>
    simp only [patternOfPieces_cons_eq_ok, Path.stepsOfPieces_cons_eq_ok]
    constructor
    · rintro ⟨first, parts, rest, hfirst, hparts, hrest, rfl⟩
      rw [List.mem_append, not_or] at hpattern
      obtain ⟨hnegative, rfl⟩ := (mapM_ofStep? hpattern.1).1 hparts
      obtain ⟨steps, hsteps, rfl⟩ := (ih hpattern.2).1 hrest
      exact ⟨first ++ steps, ⟨first, steps, hfirst, hnegative, hsteps, rfl⟩, List.map_append.symm⟩
    · rintro ⟨-, ⟨first, steps, hfirst, hnegative, hsteps, rfl⟩, rfl⟩
      refine ⟨first, first.map exactly, steps.map exactly, hfirst, ?_, ?_, List.map_append⟩
      · exact (mapM_ofStep? (anyIndex_not_mem first)).2 ⟨hnegative, rfl⟩
      · exact (ih (anyIndex_not_mem steps)).2 ⟨steps, hsteps, rfl⟩

end Readings

namespace Selector

variable {text : String} {p : Path} {s : Selector}

/-- Unless it starts as a relative selector does, only a slash is dropped from a text. -/
theorem splitStart_eq {cs : List Char} (h : ¬ ['.', '/'] <+: cs) : splitStart cs = (false, Path.dropSlash cs) := by
  unfold splitStart
  split
  next body => exact absurd ⟨body, rfl⟩ h
  next => rfl
  next hslash =>
    cases cs with
    | nil => rfl
    | cons c rest => rw [Path.dropSlash_of_ne fun hc => hslash rest (by rw [hc])]

theorem dropSlash_ne_nil (hempty : text ≠ "") (hslash : text ≠ "/") : Path.dropSlash text.toList ≠ [] := by
  intro hnil
  cases hcs : text.toList with
  | nil => exact hempty (String.toList_inj.1 hcs)
  | cons c rest =>
    rw [hcs, Path.dropSlash] at hnil
    split at hnil
    next hc =>
      rw [hc, hnil] at hcs
      exact hslash (String.toList_inj.1 hcs)
    next => cases hnil

/-- A text that is not relative and does not stand for the root is a selector without wildcards exactly if it is a path. -/
theorem parse_eq_ok_iff (hrelative : ¬ "./".toList <+: text.toList) (hempty : text ≠ "") (hslash : text ≠ "/")
    (hexact : .anyIndex ∉ s.pattern) :
    parse text = .ok s ↔ ∃ p, Path.parse text = .ok p ∧ s = { source := text, relative := false, pattern := p.pattern } := by
  have hbody := dropSlash_ne_nil hempty hslash
  have hsplit : splitStart text.toList = (false, Path.dropSlash text.toList) := splitStart_eq hrelative
  have hselector : parse text = (patternOfPieces (Path.pieces (Path.dropSlash text.toList))).map fun pattern =>
      { source := text, relative := false, pattern } := by
    rw [parse, hsplit]
    exact if_neg (by simpa using hbody)
  have hpath : Path.parse text = (Path.stepsOfPieces (Path.pieces (Path.dropSlash text.toList))).map Path.mk :=
    if_neg (by simpa using hbody)
  rw [hselector, hpath]
  constructor
  · intro h
    cases hread : patternOfPieces (Path.pieces (Path.dropSlash text.toList)) with
    | error fault =>
      rw [hread] at h
      cases h
    | ok pattern =>
      rw [hread] at h
      obtain rfl := Except.ok.inj h
      obtain ⟨steps, hsteps, rfl⟩ := (patternOfPieces_eq_ok hexact).1 hread
      exact ⟨⟨steps⟩, by rw [hsteps]; rfl, rfl⟩
  · rintro ⟨p, h, rfl⟩
    cases hread : Path.stepsOfPieces (Path.pieces (Path.dropSlash text.toList)) with
    | error fault =>
      rw [hread] at h
      cases h
    | ok steps =>
      rw [hread] at h
      obtain rfl := Except.ok.inj h
      rw [(patternOfPieces_eq_ok hexact).2 ⟨steps, hread, rfl⟩]
      rfl

/-- The text of a path does not start with a slash, unless it is that of the root. -/
theorem exists_render_eq_cons (hp : p.Writable) (hroot : p ≠ .root) :
    ∃ c rest, p.render.toList = c :: rest ∧ c ≠ '/' := by
  obtain ⟨steps⟩ := p
  cases steps with
  | nil => exact absurd rfl hroot
  | cons step rest =>
    have hstep : step.Writable := hp step List.mem_cons_self
    have hrender : (Path.render ⟨step :: rest⟩).toList = step.render.toList ++ (Path.renderRest rest).toList := by
      simp [Path.render]
    cases step with
    | name s =>
      obtain ⟨-, hne⟩ := Path.takeName_of_writable hstep
      obtain ⟨c, cs, hcs⟩ := List.exists_cons_of_ne_nil hne
      have hc : Path.isNamePart c = true := Path.isNamePart_of_writable hstep c (by simp [hcs])
      refine ⟨c, cs ++ (Path.renderRest rest).toList, ?_, fun hslash => ?_⟩
      · rw [hrender, show (Step.name s).render = s from rfl, hcs, List.cons_append]
      · rw [hslash] at hc
        exact absurd hc (by decide)
    | index i =>
      refine ⟨'[', (toString i ++ "]").toList ++ (Path.renderRest rest).toList, ?_, by decide⟩
      rw [hrender]
      simp [Step.render]

/-- With a slash in front, the text of a path is read as that path, and as the selector that only its steps fit. -/
theorem parse_slash_render (hp : p.Writable) (hroot : p ≠ .root) :
    Path.parse ("/" ++ p.render) = .ok p ∧
      parse ("/" ++ p.render) = .ok { source := "/" ++ p.render, relative := false, pattern := p.pattern } := by
  obtain ⟨c, rest, hcs, hc⟩ := exists_render_eq_cons hp hroot
  have htext : ("/" ++ p.render).toList = '/' :: c :: rest := by simp [hcs]
  have hread : Path.parse ("/" ++ p.render) = .ok p := by
    have hbody : Path.dropSlash ("/" ++ p.render).toList = Path.dropSlash p.render.toList := by
      rw [htext, hcs, Path.dropSlash_of_ne hc]
      rfl
    rw [← Path.parse_render hp, Path.parse, hbody]
    rfl
  refine ⟨hread, (parse_eq_ok_iff ?_ ?_ ?_ (PatternStep.anyIndex_not_mem _)).2 ⟨p, hread, rfl⟩⟩
  · rw [htext]
    rintro ⟨body, hbody⟩
    cases hbody
  · intro hempty
    rw [hempty] at htext
    cases htext
  · intro hslash
    rw [hslash] at htext
    cases htext

end Selector

namespace FieldTree

variable {t : FieldTree} {n : NodeId} {p : Place}

/-- All keys outside templates are identifiers or indices of elements. -/
def PlainKeys (t : FieldTree) : Prop :=
  ∀ parent, ∀ child ∈ t.children parent, t.inTemplate child.id = false → child.key.Plain

/-- Only the children of nodes of the tree are in question. -/
theorem plainKeys_iff : t.PlainKeys ↔
    ∀ parent ∈ rootId :: t.fields.ids, ∀ child ∈ t.children parent, t.inTemplate child.id = false → child.key.Plain := by
  constructor
  · intro h parent _
    exact h parent
  · intro h parent child hchild
    refine h parent ?_ child hchild
    by_cases hroot : parent = rootId
    · exact hroot ▸ List.mem_cons_self
    · refine List.mem_cons_of_mem _ ((Forest.isSome_spot? parent t.fields).1 ?_)
      by_contra hspot
      have hnone : t.locate? parent = none := by
        rw [← Option.map_eq_none_iff, ← place?.eq_def, place?_of_ne_root t hroot]
        simpa using hspot
      simp [children, hnone] at hchild

instance : DecidablePred PlainKeys := fun _ => decidable_of_iff _ plainKeys_iff.symm

/-- The path of a node outside templates consists of the keys of the nodes above it and of the node. -/
theorem PlainKeys.writable (ht : t.Keyed) (hkeys : t.PlainKeys) (hroot : ∀ key, t.rootKey = some key → key.Plain) {k : Nat}
    (hk : p.path.steps.length = k) (hp : t.place? n = some p) (hlive : p.inTemplate = false) : p.path.Writable := by
  induction k generalizing n p with
  | zero =>
    intro step hstep
    rw [List.length_eq_zero_iff.1 hk] at hstep
    cases hstep
  | succ k ih =>
    by_cases hn : n = rootId
    · subst hn
      obtain rfl := Option.some.inj (t.place?_root.symm.trans hp)
      intro step hstep
      exact Step.writable_iff_plain.2 (hroot step (Option.mem_toList.1 hstep))
    obtain ⟨parent, q, key, hparent, hq, hkey, hpath, hin⟩ := exists_place?_parent ht hn hp
    rw [hlive, eq_comm, Bool.or_eq_false_iff] at hin
    rw [hpath, Path.child, List.length_append, List.length_singleton] at hk
    have habove : q.path.Writable := ih (by omega) hq hin.1
    have hchild : ⟨n, key, p.node⟩ ∈ t.children parent := by
      obtain ⟨g, hg⟩ := exists_below? hq
      rw [children_eq, hg]
      exact (mem_heads_below? ht hg).2 ⟨p, hp, hparent, hkey, rfl⟩
    have hplain : key.Plain := hkeys parent _ hchild (by rw [inTemplate_eq, hp]; exact hlive)
    intro step hstep
    rw [hpath] at hstep
    rcases List.mem_append.1 hstep with hstep | hstep
    · exact habove step hstep
    · obtain rfl := List.mem_singleton.1 hstep
      exact Step.writable_iff_plain.2 hplain

/-- With a slash in front, the path of a node is read as a selector of the root without wildcards that stands for this node
alone, and as a path that leads to it. -/
def SelectedByPath (t : FieldTree) (n : NodeId) : Prop :=
  (∃ s, Selector.parse ("/" ++ (t.path n).render) = .ok s ∧ s.relative = false ∧ .anyIndex ∉ s.pattern ∧
    s.fieldsBelow t rootId = [n]) ∧
  ∃ q, Path.parse ("/" ++ (t.path n).render) = .ok q ∧ t.find? q = some n

/-- With a slash in front, the path of a node is read as a selector that does not stand for this node, and as a path that
does not lead to it. -/
def MissedByPath (t : FieldTree) (n : NodeId) : Prop :=
  (∃ s, Selector.parse ("/" ++ (t.path n).render) = .ok s ∧ n ∉ s.fieldsBelow t rootId) ∧
  ∃ q, Path.parse ("/" ++ (t.path n).render) = .ok q ∧ t.find? q ≠ some n

/-- A field has a path of its own, other than that of the root. -/
theorem path_ne_root_of_field (ht : t.Keyed) (hp : t.place? n = some p) (hfield : p.node.kind = .field) :
    p.path ≠ .root := by
  intro hroot
  by_cases hn : n = rootId
  · subst hn
    obtain rfl := Option.some.inj (t.place?_root.symm.trans hp)
    exact absurd (hfield.symm.trans ht.root_group) (by decide)
  · obtain ⟨parent, q, key, -, -, -, hpath, -⟩ := exists_place?_parent ht hn hp
    rw [hroot] at hpath
    simp [Path.root, Path.child] at hpath

/-- The pattern of a path stands, below the root, for the live field whose path it is. -/
theorem matches_pattern_iff {s : Selector} {q : Path} (hpattern : s.pattern = q.pattern) (hp : t.place? n = some p)
    (hroot : t.rootPlace.inTemplate = false) (hfield : p.node.kind = .field) (hlive : p.inTemplate = false) :
    t.Matches s rootId n ↔ p.path.steps = t.rootKey.toList ++ q.steps := by
  constructor
  · rintro ⟨r, p', steps, hr, hp', -, -, -, hsteps, hfits⟩
    obtain rfl := Option.some.inj (t.place?_root.symm.trans hr)
    obtain rfl := Option.some.inj (hp.symm.trans hp')
    rw [hpattern] at hfits
    obtain rfl := (fitsSteps_exactly _ _).1 hfits
    exact hsteps
  · intro hsteps
    refine ⟨_, p, q.steps, t.place?_root, hp, hroot, hfield, hlive, hsteps, ?_⟩
    rw [hpattern]
    exact (fitsSteps_exactly _ _).2 rfl

/-- Below a root without key, the path of a live field stands for this field. -/
theorem selectedByPath (ht : t.Keyed) (hroot : t.rootKey = none) (hp : t.place? n = some p) (hfield : p.node.kind = .field)
    (hlive : p.inTemplate = false) (hwritable : p.path.Writable) : t.SelectedByPath n := by
  have hpath : t.path n = p.path := path_of_place? hp
  obtain ⟨hread, hselector⟩ := Selector.parse_slash_render hwritable (path_ne_root_of_field ht hp hfield)
  rw [← hpath] at hread hselector
  refine ⟨⟨_, hselector, rfl, PatternStep.anyIndex_not_mem _, ?_⟩, _, hread, ?_⟩
  · -- the walk lists the fields that have this path, and a path belongs to one node only
    rw [← List.perm_singleton, List.perm_ext_iff_of_nodup (Selector.ascending_fieldsBelow ht _ _).nodup (List.nodup_singleton n)]
    intro x
    rw [Selector.mem_fieldsBelow ht (Selector.pattern_ne_nil hselector), List.mem_singleton]
    constructor
    · intro hmatch
      obtain ⟨-, q, -, -, hq, -, hqfield, hqlive, -⟩ := id hmatch
      have hsteps := (matches_pattern_iff rfl hq ht.root_live hqfield hqlive).1 hmatch
      rw [hroot] at hsteps
      exact eq_of_path_eq ht hq hp (congrArg Path.mk (hsteps.trans (by rw [hpath]; rfl)))
    · rintro rfl
      refine (matches_pattern_iff rfl hp ht.root_live hfield hlive).2 ?_
      rw [hroot, hpath]
      rfl
  · exact (find?_eq_some ht hroot).2 ⟨p, hp, hpath.symm⟩

/-- Below a root with a key, the path of a live field does not stand for this field: it asks for that key below the root. -/
theorem missedByPath (ht : t.Keyed) {key : Step} (hroot : t.rootKey = some key) (hp : t.place? n = some p)
    (hfield : p.node.kind = .field) (hlive : p.inTemplate = false) (hwritable : p.path.Writable) : t.MissedByPath n := by
  have hpath : t.path n = p.path := path_of_place? hp
  obtain ⟨hread, hselector⟩ := Selector.parse_slash_render hwritable (path_ne_root_of_field ht hp hfield)
  rw [← hpath] at hread hselector
  refine ⟨⟨_, hselector, ?_⟩, _, hread, ?_⟩
  · rw [Selector.mem_fieldsBelow ht (Selector.pattern_ne_nil hselector),
      matches_pattern_iff rfl hp ht.root_live hfield hlive, hroot, hpath]
    intro hsteps
    exact absurd (congrArg List.length hsteps) (by simp)
  · intro hfind
    have hn : n ≠ rootId := by
      rintro rfl
      obtain rfl := Option.some.inj (t.place?_root.symm.trans hp)
      exact absurd (hfield.symm.trans ht.root_group) (by decide)
    have hne : ((t.path n).isRoot) = false := by
      rw [hpath, Path.isRoot, List.isEmpty_eq_false_iff]
      intro hnil
      exact path_ne_root_of_field ht hp hfield (congrArg Path.mk hnil)
    rw [find?, hne, if_neg (by decide)] at hfind
    obtain ⟨spot, hspot, hsteps⟩ := Forest.spot?_of_find? ht.nodup hfind
    rw [place?_of_ne_root t hn, hspot] at hp
    obtain rfl := Option.some.inj hp
    rw [hpath] at hsteps
    exact absurd (congrArg List.length hsteps) (by simp [Spot.place, rootPlace, Located.place, locatedRoot, hroot])

/-- In a tree that operations have built, with plain keys, the path of a live field is a selector that stands for this field
alone, and leads to it, as long as the root has no key. Once the root has a key, neither holds of any live field. Whatever the
tree, a text that is not relative and does not stand for the root is a path exactly if it is a selector without wildcards,
and the steps of both are the same. -/
theorem own_paths_select (h : t.Built) (hkeys : t.PlainKeys) :
    (∀ n node, t.get? n = some node → node.kind = .field → t.inTemplate n = false →
      (t.rootKey = none → t.SelectedByPath n) ∧ ∀ key, t.rootKey = some key → key.Plain → t.MissedByPath n) ∧
    ∀ text, ¬ "./".toList <+: text.toList → text ≠ "" → text ≠ "/" →
      ((∃ p, Path.parse text = .ok p) ↔ ∃ s, Selector.parse text = .ok s ∧ .anyIndex ∉ s.pattern) ∧
      ∀ p s, Path.parse text = .ok p → Selector.parse text = .ok s → s.relative = false ∧ s.pattern = p.pattern := by
  have ht : t.Keyed := h.keyed
  constructor
  · intro n node hget hfield hlive
    obtain ⟨p, hp, rfl⟩ : ∃ p, t.place? n = some p ∧ p.node = node := by simpa [get?_eq, Option.map_eq_some_iff] using hget
    rw [inTemplate_eq, hp] at hlive
    constructor
    · intro hroot
      exact selectedByPath ht hroot hp hfield hlive (hkeys.writable ht (by simp [hroot]) rfl hp hlive)
    · intro key hroot hplain
      refine missedByPath ht hroot hp hfield hlive (hkeys.writable ht ?_ rfl hp hlive)
      intro key' hkey'
      obtain rfl := Option.some.inj (hroot.symm.trans hkey')
      exact hplain
  · intro text hrelative hempty hslash
    have hparse {p : Path} (hp : Path.parse text = .ok p) :
        Selector.parse text = .ok { source := text, relative := false, pattern := p.pattern } :=
      (Selector.parse_eq_ok_iff hrelative hempty hslash (PatternStep.anyIndex_not_mem _)).2 ⟨p, hp, rfl⟩
    refine ⟨⟨?_, ?_⟩, ?_⟩
    · rintro ⟨p, hp⟩
      exact ⟨_, hparse hp, PatternStep.anyIndex_not_mem _⟩
    · rintro ⟨s, hs, hexact⟩
      obtain ⟨p, hp, -⟩ := (Selector.parse_eq_ok_iff hrelative hempty hslash hexact).1 hs
      exact ⟨p, hp⟩
    · intro p s hp hs
      obtain rfl := Except.ok.inj (hs.symm.trans (hparse hp))
      exact ⟨rfl, rfl⟩

/-- Elements of elements: the element `a[0]` has an array of its own, which has an element `b[12]` with a field. -/
def nestedRows : FieldTree :=
  TreeEdit.runAll [.insert rootId (.name "a") .array, .insertTemplate 1, .insert 2 (.name "b") .array, .insertTemplate 3,
    .insert 4 (.name "x") .field, .copySubtree 2 1 (.index 0), .copySubtree 8 7 (.index 12)] {}

theorem nestedRows_built : nestedRows.Built :=
  Built.empty.runAll (by simp [TreeEdit.IsOperation])

theorem nestedRows_selected : (nestedRows.path 11).render = "a[0].b[12].x" ∧ nestedRows.SelectedByPath 11 := by
  have hget : nestedRows.get? 11 = some { kind := .field } := by cbv
  have hlive : nestedRows.inTemplate 11 = false := by cbv
  have hroot : nestedRows.rootKey = none := by cbv
  refine ⟨by cbv, ?_⟩
  exact ((own_paths_select nestedRows_built (by decide +kernel)).1 11 _ hget rfl hlive).1 hroot

/-- A field below the root, which then gets a key. -/
def keyedRoot : FieldTree :=
  TreeEdit.runAll [.insert rootId (.name "a") .field, .rekey rootId (.name "r")] {}

/-- The path of a field does not stand for it once the root has got a key. -/
theorem keyedRoot_not_selected : ¬ ∀ t : FieldTree, t.Built → t.PlainKeys → ∀ n node, t.get? n = some node →
    node.kind = .field → t.inTemplate n = false → t.SelectedByPath n := by
  intro h
  have hget : keyedRoot.get? 1 = some { kind := .field } := by cbv
  have hlive : keyedRoot.inTemplate 1 = false := by cbv
  have hbuilt : keyedRoot.Built := Built.empty.runAll (by simp [TreeEdit.IsOperation])
  obtain ⟨-, q, hq, hfind⟩ := h keyedRoot hbuilt (by decide +kernel) 1 _ hget rfl hlive
  have hread : Path.parse ("/" ++ (keyedRoot.path 1).render) = .ok ⟨[.name "r", .name "a"]⟩ := by cbv
  obtain rfl := Except.ok.inj (hread.symm.trans hq)
  have hnone : keyedRoot.find? ⟨[.name "r", .name "a"]⟩ = none := by cbv
  rw [hnone] at hfind
  cases hfind

end FieldTree

end LiveForm
