import RealtimeApp.Bytes

/-!
# Maps from names

A map from names holds each name once, in the order of the names' bytes.
-/

namespace RealtimeApp

/-- Values under distinct names, in the order of the names. -/
structure NameMap (α : Type) where
  entries : List (Bytes × α)
  sorted : entries.Pairwise fun a b => a.1 < b.1

/-- A set of names, in their order. -/
abbrev NameSet := NameMap Unit

namespace NameMap

variable {α : Type}

/-- The map without names. -/
def empty : NameMap α := ⟨[], .nil⟩

instance : Inhabited (NameMap α) := ⟨empty⟩

/-- How many names a map has. -/
def size (map : NameMap α) : Nat := map.entries.length

/-- The names of a map, in their order. -/
def names (map : NameMap α) : List Bytes := map.entries.map Prod.fst

/-- Is the name in the map? -/
def contains (map : NameMap α) (name : Bytes) : Bool := map.entries.any (·.1 == name)

/-- The value under a name. -/
def get? (map : NameMap α) (name : Bytes) : Option α :=
  (map.entries.find? (·.1 == name)).map Prod.snd

/-- An entry put into its place in a list of entries, unless its name is there already. -/
def insertEntry (name : Bytes) (value : α) : List (Bytes × α) → List (Bytes × α)
  | [] => [(name, value)]
  | entry :: rest =>
    if name < entry.1 then (name, value) :: entry :: rest
    else if entry.1 < name then entry :: insertEntry name value rest
    else entry :: rest

theorem mem_insertEntry {name : Bytes} {value : α} {entries : List (Bytes × α)}
    {entry : Bytes × α} (h : entry ∈ insertEntry name value entries) :
    entry = (name, value) ∨ entry ∈ entries := by
  induction entries with
  | nil =>
    rw [insertEntry, List.mem_singleton] at h
    exact .inl h
  | cons first rest ih =>
    rw [insertEntry] at h
    split at h
    · exact (List.mem_cons.1 h).imp_right id
    · split at h
      · rcases List.mem_cons.1 h with rfl | h
        · exact .inr List.mem_cons_self
        · exact (ih h).imp_right (List.mem_cons_of_mem _)
      · exact .inr h

theorem sorted_insertEntry (name : Bytes) (value : α) {entries : List (Bytes × α)}
    (h : entries.Pairwise fun a b => a.1 < b.1) :
    (insertEntry name value entries).Pairwise fun a b => a.1 < b.1 := by
  induction entries with
  | nil => exact List.pairwise_singleton _ _
  | cons first rest ih =>
    obtain ⟨hfirst, hrest⟩ := List.pairwise_cons.1 h
    rw [insertEntry]
    split
    · rename_i hlt
      refine List.pairwise_cons.2 ⟨fun entry hentry => ?_, h⟩
      rcases List.mem_cons.1 hentry with rfl | hentry
      · exact hlt
      · exact List.lt_trans hlt (hfirst entry hentry)
    · split
      · rename_i hlt
        refine List.pairwise_cons.2 ⟨fun entry hentry => ?_, ih hrest⟩
        rcases mem_insertEntry hentry with rfl | hentry
        · exact hlt
        · exact hfirst entry hentry
      · exact h

/-- A map with one more entry, unless the name is there already. -/
def insert (map : NameMap α) (name : Bytes) (value : α) : NameMap α :=
  ⟨insertEntry name value map.entries, sorted_insertEntry name value map.sorted⟩

end NameMap

end RealtimeApp
