import RealtimeApp.NameMap

/-!
# Maps from names and listed entries

A map is known by its entries (`NameMap.ext_of_mem`), and inserting entries with distinct names
one after another gives the map of exactly these entries (`NameMap.lists_ofEntries`).
-/

namespace RealtimeApp

/-! ## Distinct keys -/

section Keys

variable {F β : Type} {key : F → β} {before after : List F} {entry : F}

/-- One more key stays distinct from the others when it is new. -/
theorem nodup_map_append_singleton (h : (before.map key).Nodup)
    (hnew : key entry ∉ before.map key) : ((before ++ [entry]).map key).Nodup := by
  rw [List.map_append, List.nodup_append]
  refine ⟨h, List.pairwise_singleton _ _, ?_⟩
  intro a ha b hb hab
  rw [List.map_singleton, List.mem_singleton] at hb
  rw [hab, hb] at ha
  exact hnew ha

theorem not_mem_map_of_nodup (h : ((before ++ entry :: after).map key).Nodup) :
    key entry ∉ before.map key := by
  rw [List.map_append, List.nodup_append] at h
  intro hmem
  exact h.2.2 _ hmem (key entry) (by simp) rfl

theorem nodup_map_of_append (h : ((before ++ after).map key).Nodup) : (before.map key).Nodup := by
  rw [List.map_append, List.nodup_append] at h
  exact h.1

end Keys

namespace NameMap

variable {α : Type}

/-- The map holds the listed entries, which have distinct names. -/
structure Lists (map : NameMap α) (listed : List (Bytes × α)) : Prop where
  distinct : (listed.map Prod.fst).Nodup
  mem : ∀ entry, entry ∈ map.entries ↔ entry ∈ listed

theorem ne_of_lt {a b : Bytes} (h : a < b) : a ≠ b := by
  rintro rfl
  exact List.lt_irrefl a h

theorem mem_insertEntry_of_mem {name : Bytes} {value : α} {entries : List (Bytes × α)}
    {entry : Bytes × α} (h : entry ∈ entries) : entry ∈ insertEntry name value entries := by
  induction entries with
  | nil => cases h
  | cons first rest ih =>
      rw [insertEntry]
      split
      · exact List.mem_cons_of_mem _ h
      · split
        · rcases List.mem_cons.1 h with rfl | h
          · exact List.mem_cons_self
          · exact List.mem_cons_of_mem _ (ih h)
        · exact h

theorem mem_insertEntry_self {name : Bytes} (value : α) {entries : List (Bytes × α)}
    (h : name ∉ entries.map Prod.fst) : (name, value) ∈ insertEntry name value entries := by
  induction entries with
  | nil => exact List.mem_cons_self
  | cons first rest ih =>
      rw [List.map_cons, List.mem_cons, not_or] at h
      rw [insertEntry]
      split
      · exact List.mem_cons_self
      · split
        · exact List.mem_cons_of_mem _ (ih h.2)
        · rename_i hnot hnot'
          exact absurd (List.le_antisymm hnot' hnot) h.1

theorem contains_eq_false_iff {map : NameMap α} {name : Bytes} :
    map.contains name = false ↔ name ∉ map.names := by
  rw [contains, names, List.any_eq_false, List.mem_map]
  constructor
  · rintro h ⟨entry, hentry, rfl⟩
    exact h entry hentry (by simp)
  · intro h entry hentry heq
    exact h ⟨entry, hentry, by simpa using heq⟩

theorem mem_entries_insert {map : NameMap α} {name : Bytes} {value : α}
    (h : name ∉ map.names) (entry : Bytes × α) :
    entry ∈ (map.insert name value).entries ↔ entry ∈ map.entries ∨ entry = (name, value) := by
  constructor
  · intro hentry
    exact (mem_insertEntry hentry).symm
  · rintro (hentry | rfl)
    · exact mem_insertEntry_of_mem hentry
    · exact mem_insertEntry_self value h

theorem lists_empty : Lists (empty : NameMap α) [] := ⟨List.nodup_nil, fun _ => Iff.rfl⟩

theorem Lists.mem_names {map : NameMap α} {listed : List (Bytes × α)} (h : map.Lists listed)
    {name : Bytes} : name ∈ map.names ↔ name ∈ listed.map Prod.fst := by
  simp only [names, List.mem_map, h.mem]

theorem Lists.contains_eq_false_iff {map : NameMap α} {listed : List (Bytes × α)}
    (h : map.Lists listed) {name : Bytes} :
    map.contains name = false ↔ name ∉ listed.map Prod.fst := by
  rw [← h.mem_names, NameMap.contains_eq_false_iff]

theorem Lists.insert {map : NameMap α} {listed : List (Bytes × α)} (h : map.Lists listed)
    {name : Bytes} (value : α) (hname : name ∉ listed.map Prod.fst) :
    (map.insert name value).Lists (listed ++ [(name, value)]) := by
  constructor
  · exact nodup_map_append_singleton h.distinct hname
  · intro entry
    rw [mem_entries_insert (fun hmem => hname (h.mem_names.1 hmem)), h.mem, List.mem_append,
      List.mem_singleton]

/-- Maps with the same entries are equal. -/
theorem ext_of_mem {first second : NameMap α}
    (h : ∀ entry, entry ∈ first.entries ↔ entry ∈ second.entries) : first = second := by
  obtain ⟨entries, hsorted⟩ := first
  obtain ⟨others, hsorted'⟩ := second
  have hnodup : ∀ {entries : List (Bytes × α)}, entries.Pairwise (fun a b => a.1 < b.1) →
      entries.Nodup := by
    intro entries hsorted
    exact hsorted.imp fun hlt heq => ne_of_lt hlt (congrArg Prod.fst heq)
  have hperm : entries.Perm others :=
    (List.perm_ext_iff_of_nodup (hnodup hsorted) (hnodup hsorted')).2 h
  have hequal : entries = others := by
    refine hperm.eq_of_pairwise ?_ hsorted hsorted'
    intro a b _ _ hab hba
    exact absurd (List.lt_trans hab hba) (List.lt_irrefl a.1)
  subst hequal
  rfl

/-- The listed entries determine the map. -/
theorem Lists.unique {first second : NameMap α} {listed : List (Bytes × α)}
    (h : first.Lists listed) (h' : second.Lists listed) : first = second := by
  apply ext_of_mem
  intro entry
  rw [h.mem, h'.mem]

/-- The order in which entries are listed does not matter. -/
theorem Lists.perm {map : NameMap α} {listed listed' : List (Bytes × α)} (h : map.Lists listed)
    (hperm : listed.Perm listed') : map.Lists listed' := by
  constructor
  · exact (hperm.map Prod.fst).nodup_iff.1 h.distinct
  · intro entry
    rw [h.mem, hperm.mem_iff]

/-- The entries inserted one after another. -/
def ofEntries (entries : List (Bytes × α)) : NameMap α :=
  entries.foldl (fun map entry => map.insert entry.1 entry.2) empty

theorem ofEntries_append (entries : List (Bytes × α)) (entry : Bytes × α) :
    ofEntries (entries ++ [entry]) = (ofEntries entries).insert entry.1 entry.2 := by
  rw [ofEntries, List.foldl_append]
  rfl

/-- Entries with distinct names, inserted one after another, are the entries of the map. -/
theorem lists_ofEntries_append {before entries : List (Bytes × α)}
    (hbefore : (ofEntries before).Lists before)
    (h : ((before ++ entries).map Prod.fst).Nodup) :
    (ofEntries (before ++ entries)).Lists (before ++ entries) := by
  induction entries generalizing before with
  | nil => simpa using hbefore
  | cons entry entries ih =>
      have hsplit : before ++ entry :: entries = (before ++ [entry]) ++ entries := by simp
      have hname := not_mem_map_of_nodup h
      rw [hsplit] at h ⊢
      refine ih ?_ h
      rw [ofEntries_append]
      exact hbefore.insert entry.2 hname

theorem lists_ofEntries {entries : List (Bytes × α)} (h : (entries.map Prod.fst).Nodup) :
    (ofEntries entries).Lists entries := by
  have hnone : (ofEntries ([] : List (Bytes × α))).Lists [] := lists_empty
  exact lists_ofEntries_append hnone h

end NameMap
end RealtimeApp
