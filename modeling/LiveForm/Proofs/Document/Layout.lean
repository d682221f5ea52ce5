import LiveForm.Proofs.Document.Checking
import LiveForm.Proofs.Text.Bytes
import LiveForm.Proofs.Tree.Layout

/-!
# The layout that a document describes

What a document says about the nodes of its form, without any form at hand. There is one node for each definition, in the
order of the document. An array has a template that its definitions describe, and for each item an element, which is the
template with the values of the item entered. An item that has a value for something that is no field of the element is at
fault, and so is the document then.
-/

set_option autoImplicit false

namespace LiveForm

namespace Layout

/-- Enters a value at the field that a key leads to from an element. The element itself is a group. -/
def enter (element : Path) (l : Layout) (key : String) (value : Value) : Except FormError Layout :=
  match Path.parse key with
  | .error fault => .error (.invalidPath key fault)
  | .ok relative =>
    let path : Path := ⟨element.steps ++ relative.steps⟩
    if relative.isRoot then .error (.invalidPath path.render .valueOffField)
    else
      match l.get? relative.steps with
      | none => .error (.nodeNotFound path.render)
      | some node =>
        if node.kind = .field then .ok (l.setValue value relative.steps)
        else .error (.invalidPath path.render .valueOffField)

/-- Enters values one after the other. -/
def enterAll (element : Path) : Layout → List (String × Value) → Except FormError Layout
  | l, [] => .ok l
  | l, (key, value) :: rest => do
    let l ← l.enter element key value
    l.enterAll element rest

/-- The elements of an array that some items stand for, numbered from `start` on. The values of an item are entered in the
order of their keys. -/
def elements (array : Path) (template : Layout) (start : Nat) : List Item → Except FormError Layout
  | [] => .ok .nil
  | item :: rest => do
    let children ← template.enterAll (array.child (.index start)) item.toList
    let siblings ← elements array template (start + 1) rest
    return .cons (.index start) { kind := .group } children siblings

end Layout

namespace FieldDef

mutual

/-- The nodes that some definitions describe. -/
def layoutAll (above : Path) : List FieldDef → Except FormError Layout
  | [] => .ok .nil
  | d :: rest => do
    let first ← layoutOf above d
    let others ← layoutAll above rest
    return first.append others

/-- The node that a definition describes, with all that is below it. -/
def layoutOf (above : Path) : FieldDef → Except FormError Layout
  | ⟨key, value, formula, fields, template, items⟩ =>
    let path := above.child (.name key)
    let node : Node :=
      { kind := FieldDef.kind ⟨key, value, formula, fields, template, items⟩, value := value.getD .void, formula }
    match template with
    | none => do
      let children ← layoutAll path fields
      return .cons (.name key) node children .nil
    | some template => do
      let inner ← layoutAll (path.child (.index templateIndex)) template
      let elements ← Layout.elements path inner 0 items
      return .cons (.name key) node
        (.cons (.index templateIndex) { kind := .group, isTemplate := true } inner elements) .nil

end

end FieldDef

/-- The nodes that a document describes. -/
def Document.layout (document : Document) : Except FormError Layout :=
  FieldDef.layoutAll .root document.fields

/-- An error about an item that has a value for something that is no field. -/
def FormError.IsOfItem (e : FormError) : Prop :=
  ∃ path, e = .nodeNotFound path ∨ e = .invalidPath path .valueOffField

/-- An outcome that is an error only if an item is at fault. -/
def ItemFaultsOnly {α : Type} (r : Except FormError α) : Prop :=
  ∀ e, r = .error e → e.IsOfItem

theorem ItemFaultsOnly.ok {α : Type} (a : α) : ItemFaultsOnly (.ok a) :=
  fun _ h => by cases h

theorem ItemFaultsOnly.bind {α β : Type} {r : Except FormError α} {k : α → Except FormError β} (h : ItemFaultsOnly r)
    (hk : ∀ a, ItemFaultsOnly (k a)) : ItemFaultsOnly (r >>= k) := by
  cases r with
  | ok a => exact hk a
  | error e => exact fun _ he => h _ (congrArg Except.error (Except.error.inj he))

/-- The keys of an item come in the order of their bytes. -/
theorem Item.pairwise_bytes_lt (item : Item) : item.toList.Pairwise fun a b => bytes a.1 < bytes b.1 :=
  Std.ExtTreeMap.ordered_keys_toList.imp fun h => bytes_lt (compare_lt_iff_lt.1 h)

namespace Layout

variable {element array : Path} {l l' : Layout} {key : String} {value : Value} {entries : List (String × Value)}

/-- The value that is entered last at the node that some steps lead to. -/
def entered? (steps : List Step) : List (String × Value) → Option Value
  | [] => none
  | (key, value) :: rest =>
    (entered? steps rest).or (if Path.parse key = .ok ⟨steps⟩ then some value else none)

theorem enter_ok (h : l.enter element key value = .ok l') :
    ∃ relative : Path, Path.parse key = .ok relative ∧ l' = l.setValue value relative.steps := by
  unfold enter at h
  cases hparse : Path.parse key with
  | error fault => simp [hparse] at h
  | ok relative =>
    refine ⟨relative, rfl, ?_⟩
    simp only [hparse] at h
    split at h
    · cases h
    · split at h
      · cases h
      · split at h
        · exact (Except.ok.inj h).symm
        · cases h

theorem itemFaultsOnly_enter (hkey : ∃ p, Path.parse key = .ok p) : ItemFaultsOnly (l.enter element key value) := by
  obtain ⟨relative, hparse⟩ := hkey
  intro e h
  simp only [enter, hparse] at h
  split at h
  · exact ⟨_, .inr (Except.error.inj h).symm⟩
  · split at h
    · exact ⟨_, .inl (Except.error.inj h).symm⟩
    · split at h
      · cases h
      · exact ⟨_, .inr (Except.error.inj h).symm⟩

theorem itemFaultsOnly_enterAll (hkeys : ∀ entry ∈ entries, ∃ p, Path.parse entry.1 = .ok p) :
    ItemFaultsOnly (l.enterAll element entries) := by
  induction entries generalizing l with
  | nil => exact .ok l
  | cons entry rest ih =>
    exact (itemFaultsOnly_enter (hkeys _ List.mem_cons_self)).bind fun _ =>
      ih fun entry hentry => hkeys entry (List.mem_cons_of_mem _ hentry)

theorem itemFaultsOnly_elements {items : List Item}
    (hkeys : ∀ item ∈ items, ∀ entry ∈ item.toList, ∃ p, Path.parse entry.1 = .ok p) (start : Nat) :
    ItemFaultsOnly (elements array l start items) := by
  induction items generalizing start with
  | nil => exact .ok _
  | cons item rest ih =>
    exact (itemFaultsOnly_enterAll (hkeys item List.mem_cons_self)).bind fun _ =>
      (ih (fun item hitem => hkeys item (List.mem_cons_of_mem _ hitem)) (start + 1)).bind fun _ => .ok _

/-- Values that are entered leave everything else as it was. -/
theorem get?_enterAll (h : l.enterAll element entries = .ok l') (steps : List Step) :
    l'.get? steps = (l.get? steps).map fun n => { n with value := (entered? steps entries).getD n.value } := by
  induction entries generalizing l with
  | nil =>
    obtain rfl := Except.ok.inj h
    cases l.get? steps <;> rfl
  | cons entry rest ih =>
    obtain ⟨key, value⟩ := entry
    rw [enterAll] at h
    cases hfirst : l.enter element key value with
    | error e =>
      rw [hfirst] at h
      cases h
    | ok l₁ =>
      rw [hfirst] at h
      obtain ⟨relative, hparse, rfl⟩ := enter_ok hfirst
      rw [ih h, get?_setValue, Option.map_map, entered?, hparse]
      congr 1
      funext n
      by_cases hsteps : steps = relative.steps
      · subst hsteps
        cases entered? relative.steps rest <;> simp
      · have hne : (.ok relative : Except PathFault Path) ≠ .ok ⟨steps⟩ := fun he =>
          hsteps (congrArg Path.steps (Except.ok.inj he)).symm
        cases entered? steps rest <;> simp [hsteps, hne]

end Layout

namespace FieldDef

mutual

/-- If definitions have been checked, only an item can keep them from having a layout. -/
theorem itemFaultsOnly_layoutAll {parent : Path} {seen : List String} (path : Path) (defs : List FieldDef)
    (hcheck : checkAll parent seen defs = .ok ()) : ItemFaultsOnly (layoutAll path defs) := by
  match defs with
  | [] =>
    rw [layoutAll]
    exact .ok _
  | d :: rest =>
    obtain ⟨-, hdeep, hrest⟩ := checkAll_cons hcheck
    rw [layoutAll]
    exact (itemFaultsOnly_layoutOf path d hdeep).bind fun _ =>
      (itemFaultsOnly_layoutAll path rest hrest).bind fun _ => .ok _

theorem itemFaultsOnly_layoutOf {parent : Path} (path : Path) (d : FieldDef) (hcheck : checkDeep parent d = .ok ()) :
    ItemFaultsOnly (layoutOf path d) := by
  match d with
  | ⟨key, value, formula, fields, template, items⟩ =>
    obtain ⟨hchecked, _, hfields, htemplate⟩ := checkDeep_ok hcheck
    cases template with
    | none =>
      rw [layoutOf]
      exact (itemFaultsOnly_layoutAll _ fields hfields).bind fun _ => .ok _
    | some template =>
      rw [layoutOf]
      exact (itemFaultsOnly_layoutAll _ template (htemplate _ rfl)).bind fun _ =>
        (Layout.itemFaultsOnly_elements hchecked.itemKeys 0).bind fun _ => .ok _

end

end FieldDef

end LiveForm
