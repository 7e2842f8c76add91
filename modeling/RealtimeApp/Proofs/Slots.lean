import RealtimeApp.Grammar.Slot
import RealtimeApp.Proofs.FieldReading

/-!
# Slots

A group with fixed keys is read into one slot for each key.  The state is made from the fields so
far: a slot holds what the first field of its key gives (`Slot.find`), and as the keys of accepted
fields are distinct, this is what the only one gives (`Slot.find_eq_some_iff`).
-/

namespace RealtimeApp

open Written

namespace Grammar

open Rule

/-- One of the keys of a kind of fields, with the values that fields of this key give. -/
structure Slot {F : Type} (key : F → Bytes) (α : Type) where
  name : Bytes
  make : α → F
  get? : F → Option α
  get?_eq_some : ∀ {field value}, get? field = some value ↔ field = make value
  key_eq_name : ∀ {field}, key field = name ↔ (get? field).isSome = true

namespace Slot

variable {F α σ : Type} {key : F → Bytes} (slot : Slot key α)

/-- What the first field of this key gives. -/
def find (fields : List F) : Option α := fields.findSome? slot.get?

theorem get?_make (value : α) : slot.get? (slot.make value) = some value :=
  slot.get?_eq_some.2 rfl

theorem key_make (value : α) : key (slot.make value) = slot.name := by
  rw [slot.key_eq_name, slot.get?_make]
  rfl

/-- A field of this key is made from a value. -/
theorem exists_eq_make {field : F} (h : key field = slot.name) :
    ∃ value, field = slot.make value := by
  obtain ⟨value, hvalue⟩ := Option.isSome_iff_exists.1 (slot.key_eq_name.1 h)
  exact ⟨value, slot.get?_eq_some.1 hvalue⟩

theorem find_eq_none_iff {fields : List F} :
    slot.find fields = none ↔ slot.name ∉ fields.map key := by
  rw [find, List.findSome?_eq_none_iff, List.mem_map]
  constructor
  · rintro h ⟨field, hfield, hkey⟩
    have hsome := slot.key_eq_name.1 hkey
    rw [h field hfield] at hsome
    cases hsome
  · intro h field hfield
    rw [← Option.not_isSome_iff_eq_none, ← slot.key_eq_name]
    exact fun hkey => h ⟨field, hfield, hkey⟩

theorem find_append (fields : List F) (field : F) :
    slot.find (fields ++ [field]) = (slot.find fields).or (slot.get? field) := by
  rw [find, List.findSome?_append]
  simp [find]

/-- The first field of a key fills its slot. -/
theorem find_append_self {fields : List F} (h : slot.find fields = none) (value : α) :
    slot.find (fields ++ [slot.make value]) = some value := by
  rw [find_append, h, slot.get?_make, Option.none_or]

/-- A field of another key changes nothing. -/
theorem find_append_other {β : Type} (other : Slot key β) (h : other.name ≠ slot.name)
    (fields : List F) (value : β) :
    slot.find (fields ++ [other.make value]) = slot.find fields := by
  have hnone : slot.get? (other.make value) = none := by
    rw [← Option.not_isSome_iff_eq_none, ← slot.key_eq_name, other.key_make]
    exact h
  rw [find_append, hnone, Option.or_none]

theorem find_eq_none_iff_forall {fields : List F} :
    slot.find fields = none ↔ ∀ value, slot.make value ∉ fields := by
  rw [find, List.findSome?_eq_none_iff]
  constructor
  · intro h value hvalue
    have hnone := h _ hvalue
    rw [slot.get?_make] at hnone
    cases hnone
  · intro h field hfield
    rw [Option.eq_none_iff_forall_ne_some]
    intro value hvalue
    rw [slot.get?_eq_some.1 hvalue] at hfield
    exact h value hfield

/-- Where keys are distinct, the first field of a key is the only one. -/
theorem find_eq_some_iff {fields : List F} (hdistinct : (fields.map key).Nodup) {value : α} :
    slot.find fields = some value ↔ slot.make value ∈ fields := by
  induction fields with
  | nil => simp [find]
  | cons field fields ih =>
      rw [List.map_cons, List.nodup_cons] at hdistinct
      have hfields := ih hdistinct.2
      rw [find] at hfields ⊢
      cases hget : slot.get? field with
      | none =>
          rw [List.findSome?_cons, hget]
          have hne : slot.make value ≠ field := by
            rintro rfl
            rw [slot.get?_make] at hget
            cases hget
          simpa [hne] using hfields
      | some first =>
          rw [List.findSome?_cons, hget]
          obtain rfl := slot.get?_eq_some.1 hget
          constructor
          · intro h
            cases h
            exact List.mem_cons_self
          · intro h
            rcases List.mem_cons.1 h with h | h
            · have hsame := congrArg slot.get? h
              rw [slot.get?_make, slot.get?_make] at hsame
              exact hsame.symm
            · have hmem : key (slot.make value) ∈ fields.map key := List.mem_map_of_mem h
              rw [slot.key_make, ← slot.key_make first] at hmem
              exact absurd hmem hdistinct.1

theorem getD_find_iff {fields : List F} (hdistinct : (fields.map key).Nodup)
    {default value : α} :
    value = (slot.find fields).getD default ↔ GivenOr fields slot.make default value := by
  rw [GivenOr, ← slot.find_eq_some_iff hdistinct, ← slot.find_eq_none_iff_forall]
  cases slot.find fields with
  | none => simp
  | some first => simp [eq_comm]

/-- Filling a slot reads the fields of its key, where there is none of them before. -/
theorem reads_fill {Value : F → List Token → Prop} {build : List F → σ} {name : Leaf}
    {before : List F} {rule : Rule α} {set : α → σ} (hname : name.lexeme = slot.name)
    (hrule : rule.Reads fun value => Value (slot.make value))
    (hset : slot.find before = none → ∀ value, set value = build (before ++ [slot.make value])) :
    Reads (fill name (slot.find before) rule >>= fun value => Pure.pure (set value))
      (Fields.Extends key Value build name before) := by
  cases hfind : slot.find before with
  | some first =>
      -- the key is refused, and it is not new
      intro next run rest _
      constructor
      · intro h
        cases h
      · rintro ⟨field, hkey, hnew, -, -⟩
        rw [hname, ← slot.find_eq_none_iff, hfind] at hnew
        cases hnew
  | none =>
      refine Reads.congr ((hrule.within (.entry name.lexeme)).map set) ?_
      intro next run
      constructor
      · rintro ⟨value, hvalue, rfl⟩
        refine ⟨slot.make value, by rw [slot.key_make, hname], ?_, hvalue, hset hfind value⟩
        rw [hname, ← slot.find_eq_none_iff]
        exact hfind
      · rintro ⟨field, hkey, -, hvalue, rfl⟩
        rw [hname, slot.key_eq_name, Option.isSome_iff_exists] at hkey
        obtain ⟨value, hvalue'⟩ := hkey
        obtain rfl := slot.get?_eq_some.1 hvalue'
        exact ⟨value, hvalue, hset hfind value⟩

end Slot

/-- A key that no field has is never read. -/
theorem reads_unknown {F σ : Type} {key : F → Bytes} {Value : F → List Token → Prop}
    {build : List F → σ} {name : Leaf} {before : List F}
    (hname : ∀ field, key field ≠ name.lexeme) :
    Reads (unknown name) (Fields.Extends key Value build name before) := by
  intro next run rest _
  constructor
  · intro h
    cases h
  · rintro ⟨field, hkey, -⟩
    exact absurd hkey (hname field)

/-! ## All slots of a group -/

/-- A slot, and the rule for the values that fill it. -/
structure Reader {F : Type} (key : F → Bytes) where
  {α : Type}
  slot : Slot key α
  rule : Rule α

/-- The rule for the value under a name, behind the fields before it, fills the slot of that name
or refuses a name that no slot has. -/
inductive VisitsSlot {F σ : Type} {key : F → Bytes} (readers : List (Reader key))
    (build : List F → σ) (name : Leaf) (before : List F) : Rule σ → Prop
  | fills (reader : Reader key) {set : reader.α → σ} :
      reader ∈ readers → name.lexeme = reader.slot.name →
      (reader.slot.find before = none →
        ∀ value, set value = build (before ++ [reader.slot.make value])) →
      VisitsSlot readers build name before
        (fill name (reader.slot.find before) reader.rule >>= fun value => Pure.pure (set value))
  | unknown :
      (∀ reader ∈ readers, reader.slot.name ≠ name.lexeme) →
      VisitsSlot readers build name before (Grammar.unknown name)

/-- A rule that fills slots reads the fields whose values the rules of the slots read. -/
theorem VisitsSlot.reads {F σ : Type} {key : F → Bytes} {readers : List (Reader key)}
    {build : List F → σ} {name : Leaf} {before : List F} {visited : Rule σ}
    {Value : F → List Token → Prop} (h : VisitsSlot readers build name before visited)
    (hreads : ∀ reader ∈ readers, reader.rule.Reads fun value => Value (reader.slot.make value))
    (hkeys : ∀ field, ∃ reader ∈ readers, reader.slot.name = key field) :
    visited.Reads (Fields.Extends key Value build name before) := by
  cases h with
  | fills reader hreader hname hset => exact Slot.reads_fill _ hname (hreads _ hreader) hset
  | unknown hname =>
      apply reads_unknown
      intro field hkey
      obtain ⟨reader, hreader, hfield⟩ := hkeys field
      exact hname reader hreader (hfield.trans hkey)

end Grammar
end RealtimeApp
