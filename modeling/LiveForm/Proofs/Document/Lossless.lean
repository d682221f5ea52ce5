import LiveForm.Document.Storage
import LiveForm.Proofs.Storage.Disk
import LiveForm.Storage.Memory
import Mathlib

/-!
# Documents are kept without loss

A document that is saved is loaded as it was. The only thing that a document can hold and that cannot be written is a
void value, and a document that holds one leaves the storage as it is.
-/

set_option autoImplicit false

namespace LiveForm

/-! ## Lists of things that are written -/

section Lists

variable {α β : Type} {write : α → Option β} {read : β → Option α} {l : List α} {written : List β}

theorem mapM_eq_none : l.mapM write = none ↔ ∃ a ∈ l, write a = none := by
  induction l with
  | nil => simp
  | cons a rest ih =>
    rw [List.mapM_cons]
    cases ha : write a <;> cases hrest : rest.mapM write <;> simp_all

/-- What is written one by one is read one by one. -/
theorem mapM_of_mapM (h : l.mapM write = some written) (hread : ∀ a ∈ l, ∀ b, write a = some b → read b = some a) :
    written.mapM read = some l := by
  induction l generalizing written with
  | nil =>
    obtain rfl := Option.some.inj h
    rfl
  | cons a rest ih =>
    rw [List.mapM_cons] at h
    obtain ⟨b, hb, h⟩ := Option.bind_eq_some_iff.1 h
    obtain ⟨bs, hbs, h⟩ := Option.bind_eq_some_iff.1 h
    obtain rfl := Option.some.inj h
    rw [List.mapM_cons, hread a List.mem_cons_self b hb, ih hbs fun a ha => hread a (List.mem_cons_of_mem _ ha)]
    rfl

end Lists

/-! ## Values and items -/

theorem Value.toToml?_eq_none {v : Value} : v.toToml? = none ↔ v = .void := by
  cases v <;> simp [Value.toToml?]

theorem Value.ofToml?_of_toToml? {v : Value} {t : Toml.Value} (h : v.toToml? = some t) : Value.ofToml? t = some v := by
  cases v <;> cases h <;> rfl

namespace Item

variable {item : Item} {t : Toml.Value}

/-- The values of an item. -/
def values (item : Item) : List Value :=
  item.toList.map Prod.snd

theorem ofList_toList (item : Item) : Std.ExtTreeMap.ofList item.toList = item := by
  refine Std.ExtTreeMap.ext_getElem? fun key => ?_
  cases hkey : item[key]? with
  | none =>
    refine Std.ExtTreeMap.getElem?_ofList_of_contains_eq_false ?_
    simpa [Std.ExtTreeMap.map_fst_toList_eq_keys] using hkey
  | some v =>
    exact Std.ExtTreeMap.getElem?_ofList_of_mem Std.ReflCmp.compare_self Std.ExtTreeMap.distinct_keys_toList
      (Std.ExtTreeMap.mem_toList_iff_getElem?_eq_some.2 hkey)

theorem toToml?_eq_none : item.toToml? = none ↔ .void ∈ item.values := by
  simp [toToml?, mapM_eq_none, Value.toToml?_eq_none, values]

theorem ofToml?_of_toToml? (h : item.toToml? = some t) : Item.ofToml? t = some item := by
  obtain ⟨entries, hentries, rfl⟩ := Option.map_eq_some_iff.1 h
  rw [Item.ofToml?, mapM_of_mapM hentries fun entry _ b hb => ?_]
  · exact congrArg some (ofList_toList item)
  · obtain ⟨w, hw, rfl⟩ := Option.map_eq_some_iff.1 hb
    simp [Value.ofToml?_of_toToml? hw]

end Item

namespace FieldDef

/-! ## The values of a document -/

mutual

/-- The values that a definition holds, with those below it. -/
def values : FieldDef → List Value
  | ⟨_, value, _, fields, template, items⟩ =>
    value.toList ++ allValues fields ++ (match template with
      | none => []
      | some defs => allValues defs) ++ items.flatMap Item.values

/-- The values that definitions hold, with those below them. -/
def allValues : List FieldDef → List Value
  | [] => []
  | d :: rest => values d ++ allValues rest

end

theorem mem_values {d : FieldDef} {v : Value} : v ∈ d.values ↔ v ∈ d.value ∨ v ∈ allValues d.fields ∨
    (∃ defs ∈ d.template, v ∈ allValues defs) ∨ ∃ item ∈ d.items, v ∈ item.values := by
  obtain ⟨key, value, formula, fields, template, items⟩ := d
  cases template <;> simp [values]

/-! ## Writing and reading a definition -/

/-- The entries that stand for the parts of a definition. A part that is missing or empty has none. -/
def entries (key : String) (value : Option Toml.Value) (formula : Option String) (fields : List Toml.Value)
    (template : Option (List Toml.Value)) (items : List Toml.Value) : Toml.Table :=
  [("key", .text key)] ++ (value.map ("value", ·)).toList ++
    (formula.map fun f => ("formula", .text f)).toList ++
    (if fields.isEmpty then [] else [("fields", .array fields)]) ++
    (template.map fun defs => ("template", .array defs)).toList ++
    (if items.isEmpty then [] else [("items", .array items)])

/-- A definition is written part by part. -/
theorem toToml?_eq (d : FieldDef) : d.toToml? =
    (d.value.mapM Value.toToml?).bind fun value => (allToToml? d.fields).bind fun fields =>
      (d.template.mapM allToToml?).bind fun template => (d.items.mapM Item.toToml?).bind fun items =>
        some (.table (entries d.key value d.formula fields template items)) := by
  obtain ⟨key, value, formula, fields, template, items⟩ := d
  rw [toToml?]
  cases template <;> rfl

theorem setEntries?_append (a b : Toml.Table) (d : FieldDef) :
    setEntries? (a ++ b) d = (setEntries? a d).bind (setEntries? b) := by
  induction a generalizing d with
  | nil => simp [setEntries?]
  | cons entry rest ih =>
    obtain ⟨name, v⟩ := entry
    rw [List.cons_append, setEntries?, setEntries?]
    cases setPart? name v d with
    | none => rfl
    | some d' => exact ih d'

section Parts

variable {key : String} {value : Option Value} {formula : Option String} {fields : List FieldDef}
  {template : Option (List FieldDef)} {items : List Item} {value' : Option Toml.Value} {fields' : List Toml.Value}
  {template' : Option (List Toml.Value)} {items' : List Toml.Value}

/-- A definition is read from the entries for its parts if each part is. -/
theorem ofToml?_entries (hvalue : value'.mapM Value.ofToml? = some value) (hfields : allOfToml? fields' = some fields)
    (htemplate : template'.mapM allOfToml? = some template) (hitems : items'.mapM Item.ofToml? = some items) :
    ofToml? (.table (entries key value' formula fields' template' items')) =
      some ⟨key, value, formula, fields, template, items⟩ := by
  have hkey : setEntries? [("key", .text key)] ⟨"", none, none, [], none, []⟩ =
      some ⟨key, none, none, [], none, []⟩ := by
    simp [setEntries?, setPart?]
  have hvalue : setEntries? (value'.map ("value", ·)).toList ⟨key, none, none, [], none, []⟩ =
      some ⟨key, value, none, [], none, []⟩ := by
    cases value' with
    | none => simp_all [setEntries?]
    | some v => simp_all [setEntries?, setPart?, Option.map_eq_some_iff]
  have hformula : setEntries? (formula.map fun f => ("formula", .text f)).toList ⟨key, value, none, [], none, []⟩ =
      some ⟨key, value, formula, [], none, []⟩ := by
    cases formula <;> simp [setEntries?, setPart?]
  have hfields : setEntries? (if fields'.isEmpty then [] else [("fields", .array fields')])
      ⟨key, value, formula, [], none, []⟩ = some ⟨key, value, formula, fields, none, []⟩ := by
    cases fields' with
    | nil => simp_all [setEntries?, allOfToml?]
    | cons v rest => simp [setEntries?, setPart?, hfields]
  have htemplate : setEntries? (template'.map fun defs => ("template", .array defs)).toList
      ⟨key, value, formula, fields, none, []⟩ = some ⟨key, value, formula, fields, template, []⟩ := by
    cases template' with
    | none => simp_all [setEntries?]
    | some defs => simp_all [setEntries?, setPart?, Option.map_eq_some_iff]
  have hitems : setEntries? (if items'.isEmpty then [] else [("items", .array items')])
      ⟨key, value, formula, fields, template, []⟩ = some ⟨key, value, formula, fields, template, items⟩ := by
    cases items' with
    | nil => simp_all [setEntries?]
    | cons v rest => simp [setEntries?, setPart?, hitems]
  rw [ofToml?, if_pos (by simp [entries])]
  simp only [entries, setEntries?_append, hkey, hvalue, hformula, hfields, htemplate, hitems, Option.bind_some]

end Parts

mutual

/-- What is written for a definition is read as that definition. -/
theorem ofToml?_of_toToml? (d : FieldDef) {t : Toml.Value} (h : d.toToml? = some t) : ofToml? t = some d := by
  match d with
  | ⟨key, value, formula, fields, template, items⟩ =>
    rw [toToml?_eq] at h
    obtain ⟨value', hvalue, h⟩ := Option.bind_eq_some_iff.1 h
    obtain ⟨fields', hfields, h⟩ := Option.bind_eq_some_iff.1 h
    obtain ⟨template', htemplate, h⟩ := Option.bind_eq_some_iff.1 h
    obtain ⟨items', hitems, h⟩ := Option.bind_eq_some_iff.1 h
    obtain rfl := Option.some.inj h
    refine ofToml?_entries ?_ (allOfToml?_of_allToToml? fields hfields) ?_
      (mapM_of_mapM hitems fun item _ v hv => Item.ofToml?_of_toToml? hv)
    · cases value with
      | none =>
        obtain rfl := Option.some.inj hvalue
        rfl
      | some v =>
        obtain ⟨v', hv, rfl⟩ := Option.map_eq_some_iff.1 hvalue
        exact congrArg (Option.map some) (Value.ofToml?_of_toToml? hv)
    · cases template with
      | none =>
        obtain rfl := Option.some.inj htemplate
        rfl
      | some defs =>
        obtain ⟨defs', hdefs, rfl⟩ := Option.map_eq_some_iff.1 htemplate
        exact congrArg (Option.map some) (allOfToml?_of_allToToml? defs hdefs)

theorem allOfToml?_of_allToToml? (defs : List FieldDef) {ts : List Toml.Value} (h : allToToml? defs = some ts) :
    allOfToml? ts = some defs := by
  match defs with
  | [] =>
    obtain rfl := Option.some.inj h
    rw [allOfToml?]
  | d :: rest =>
    rw [allToToml?] at h
    obtain ⟨t, ht, h⟩ := Option.bind_eq_some_iff.1 h
    obtain ⟨ts', hts, h⟩ := Option.bind_eq_some_iff.1 h
    obtain rfl := Option.some.inj h
    rw [allOfToml?, ofToml?_of_toToml? d ht, allOfToml?_of_allToToml? rest hts]
    rfl

end

mutual

/-- What keeps a definition from being written is a void value. -/
theorem toToml?_eq_none (d : FieldDef) : d.toToml? = none ↔ .void ∈ d.values := by
  match d with
  | ⟨key, value, formula, fields, template, items⟩ =>
    have hvalue : value.mapM Value.toToml? = none ↔ .void ∈ value := by
      cases value <;> simp [Value.toToml?_eq_none]
    have htemplate : template.mapM allToToml? = none ↔ ∃ defs ∈ template, .void ∈ allValues defs := by
      cases template with
      | none => simp
      | some defs => simpa using allToToml?_eq_none defs
    have hitems : items.mapM Item.toToml? = none ↔ ∃ item ∈ items, .void ∈ item.values := by
      simp only [mapM_eq_none, Item.toToml?_eq_none]
    rw [mem_values, ← hvalue, ← allToToml?_eq_none fields, ← htemplate, ← hitems, toToml?_eq]
    cases value.mapM Value.toToml? <;> cases allToToml? fields <;> cases template.mapM allToToml? <;>
      cases items.mapM Item.toToml? <;> simp

theorem allToToml?_eq_none (defs : List FieldDef) : allToToml? defs = none ↔ .void ∈ allValues defs := by
  match defs with
  | [] => simp [allToToml?, allValues]
  | d :: rest =>
    rw [allToToml?, allValues, List.mem_append, ← toToml?_eq_none d, ← allToToml?_eq_none rest]
    cases d.toToml? <;> cases allToToml? rest <;> simp

end

end FieldDef

/-! ## Documents -/

namespace Document

variable {σ : Type} [Storage σ] {d : Document} {table : Toml.Table} {path origin text : String} {s s' : σ}

/-- The values that a document holds. -/
def values (d : Document) : List Value :=
  FieldDef.allValues d.fields

theorem render?_eq_none : d.render? = none ↔ .void ∈ d.values := by
  simp [render?, toToml?, FieldDef.allToToml?_eq_none, values]

/-- What is written for a document is read as that document. -/
theorem ofToml?_of_toToml? (h : d.toToml? = some table) : Document.ofToml? table = some d := by
  obtain ⟨defs, hdefs, rfl⟩ := Option.map_eq_some_iff.1 h
  rw [Document.ofToml?, FieldDef.allOfToml?_of_allToToml? d.fields hdefs]
  rfl

theorem parse_of_render? (hvalid : d.validate = .ok ()) (hrender : d.render? = some text)
    (hcodec : ∀ table, d.toToml? = some table → Toml.parse (Toml.render table) = some table) :
    parse origin text = .ok d := by
  obtain ⟨table, htable, rfl⟩ := Option.map_eq_some_iff.1 hrender
  have hread : Toml.parse (Toml.render table) >>= Document.ofToml? = some d := by
    rw [hcodec table htable]
    exact ofToml?_of_toToml? htable
  rw [parse, hread]
  simp only [hvalid]
  rfl

theorem save_eq_ok (hrender : d.render? = some text) (hwrite : Storage.write path text s = .ok () s') :
    save path d s = .ok () s' := by
  simp only [save, hrender, EStateM.adaptExcept, hwrite]

theorem load_eq_ok (hholds : Storage.holds s path = true) (hread : Storage.read s path = .ok text)
    (hparse : parse path text = .ok d) : load s path = .ok d := by
  rw [load, if_pos hholds, hread]
  change ofText path text = .ok d
  rw [ofText, hparse]
  rfl

/-- Saving fails to write a document only if it holds a void value, and the storage is then as it was. -/
theorem save_eq_unwritable : save path d s = .error (.unwritableDocument path) s' ↔ .void ∈ d.values ∧ s' = s := by
  rw [← render?_eq_none, save]
  cases d.render? with
  | none =>
    constructor
    · intro h
      cases h
      exact ⟨rfl, rfl⟩
    · rintro ⟨-, rfl⟩
      rfl
  | some text =>
    simp only [EStateM.adaptExcept]
    cases Storage.write path text s <;> simp

/-- A field that holds a number. -/
def stocked : Document where
  fields := [{ key := "a", value := some (.int 2) }]

/-- What is written for the field. -/
def stockedTable : Toml.Table :=
  [("fields", .array [.table [("key", .text "a"), ("value", .integer 2)]])]

/-- A field that holds a void value. -/
def voided : Document where
  fields := [{ key := "a", value := some .void }]

end Document

end LiveForm
