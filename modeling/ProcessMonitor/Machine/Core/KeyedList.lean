import Mathlib.Data.Finmap

/-! # Lists of values with a key

A list whose values have distinct keys is a finite map: the first value with a key is the only one. Adding a
value with a new key in front, exchanging a value for one with the same key, and taking a value out are then
insertion, insertion, and erasure of the map, whatever place of the list they happen at.
-/

namespace ProcessMonitor.Machine.KeyedList

variable {κ α : Type*} (key : α → κ)

def Distinct (values : List α) : Prop := (values.map key).Nodup

theorem distinct_nil : Distinct key [] := List.nodup_nil

def entry (value : α) : Sigma fun _ : κ => α := ⟨key value, value⟩

/-- The map from the keys to the values. -/
def table (values : List α) (distinct : Distinct key values) : Finmap fun _ : κ => α where
  entries := (values.map (entry key) : List (Sigma fun _ : κ => α))
  nodupKeys := by
    rw [Multiset.coe_nodupKeys, List.NodupKeys, List.keys, List.map_map]
    exact distinct

variable {key} {values before after : List α} {old new : α} {k : κ}

theorem entries_table (distinct : Distinct key values) :
    (table key values distinct).entries.map Sigma.snd = (values : Multiset α) := by
  rw [table, Multiset.map_coe, List.map_map]
  exact congrArg _ (List.map_id values)

theorem card_keys_table (distinct : Distinct key values) : (table key values distinct).keys.card = values.length := by
  rw [Finmap.keys, Finset.card_mk, Multiset.keys, Multiset.card_map, table, Multiset.coe_card, List.length_map]

/-- No other value has the key of one in the list. -/
theorem Distinct.ne_of_mem (distinct : Distinct key (before ++ old :: after)) {other : α}
    (member : other ∈ before ++ after) : key other ≠ key old := by
  intro same
  rw [Distinct, List.map_append, List.map_cons] at distinct
  have outside := (List.nodup_middle.mp distinct).notMem
  rw [← List.map_append] at outside
  exact outside (List.mem_map.mpr ⟨other, member, same⟩)

theorem Distinct.cons (distinct : Distinct key values) (absent : ∀ value ∈ values, key value ≠ key new) :
    Distinct key (new :: values) := by
  refine List.nodup_cons.mpr ⟨fun member => ?_, distinct⟩
  obtain ⟨value, inside, same⟩ := List.mem_map.mp member
  exact absent value inside same

theorem Distinct.replace (distinct : Distinct key (before ++ old :: after)) (same : key new = key old) :
    Distinct key (before ++ new :: after) := by
  rw [Distinct, List.map_append, List.map_cons, same, ← List.map_cons, ← List.map_append]
  exact distinct

theorem Distinct.remove (distinct : Distinct key (before ++ old :: after)) : Distinct key (before ++ after) :=
  distinct.sublist ((List.sublist_append_right [old] after).append_left before |>.map key)

variable [DecidableEq κ]

theorem lookup_table (distinct : Distinct key values) (k : κ) :
    (table key values distinct).lookup k = values.find? fun value => key value = k := by
  change List.dlookup k (values.map (entry key)) = _
  clear distinct
  induction values with
  | nil => rfl
  | cons first rest ih =>
    rw [List.map_cons, entry]
    by_cases here : key first = k
    · subst here
      rw [List.dlookup_cons_eq, List.find?_cons_of_pos (by simp)]
    · rw [List.dlookup_cons_ne _ _ (Ne.symm here), List.find?_cons_of_neg (by simpa using here)]
      exact ih

theorem mem_table_iff (distinct : Distinct key values) :
    k ∈ table key values distinct ↔ ∃ value ∈ values, key value = k := by
  rw [← Finmap.lookup_isSome, lookup_table, List.find?_isSome]
  simp

theorem table_nil : table key [] (distinct_nil key) = ∅ := by
  apply Finmap.ext_lookup
  intro k
  rw [lookup_table, Finmap.lookup_empty, List.find?_nil]

/-- A value with a new key in front is inserted. -/
theorem table_cons (distinct : Distinct key values) (absent : ∀ value ∈ values, key value ≠ key new) :
    table key (new :: values) (distinct.cons absent) = (table key values distinct).insert (key new) new := by
  apply Finmap.ext_lookup
  intro k
  rw [lookup_table]
  by_cases here : key new = k
  · subst here
    rw [Finmap.lookup_insert, List.find?_cons_of_pos (by simp)]
  · rw [Finmap.lookup_insert_of_ne _ (Ne.symm here), lookup_table, List.find?_cons_of_neg (by simpa using here)]

/-- Looking for another key passes over a value. -/
private theorem find?_middle (other : key old ≠ k) :
    (before ++ old :: after).find? (fun value => key value = k) =
      (before ++ after).find? fun value => key value = k := by
  rw [List.find?_append, List.find?_append, List.find?_cons_of_neg (by simpa using other)]

/-- A value is found under its key. -/
private theorem find?_key (distinct : Distinct key (before ++ old :: after)) :
    (before ++ old :: after).find? (fun value => key value = key old) = some old := by
  have none : before.find? (fun value => key value = key old) = none := by
    rw [List.find?_eq_none]
    intro value member
    simpa using distinct.ne_of_mem (List.mem_append_left after member)
  rw [List.find?_append, none, List.find?_cons_of_pos (by simp)]
  rfl

theorem lookup_table_self (distinct : Distinct key (before ++ old :: after)) :
    (table key (before ++ old :: after) distinct).lookup (key old) = some old :=
  (lookup_table distinct (key old)).trans (find?_key distinct)

/-- A value exchanged for one with the same key is inserted in its place. -/
theorem table_replace (distinct : Distinct key (before ++ old :: after)) (same : key new = key old) :
    table key (before ++ new :: after) (distinct.replace same) =
      (table key (before ++ old :: after) distinct).insert (key new) new := by
  apply Finmap.ext_lookup
  intro k
  rw [lookup_table]
  by_cases here : key new = k
  · subst here
    rw [Finmap.lookup_insert, find?_key (distinct.replace same)]
  · rw [Finmap.lookup_insert_of_ne _ (Ne.symm here), lookup_table, find?_middle here, find?_middle (same ▸ here)]

/-- A value taken out is erased. -/
theorem table_remove (distinct : Distinct key (before ++ old :: after)) :
    table key (before ++ after) distinct.remove =
      (table key (before ++ old :: after) distinct).erase (key old) := by
  apply Finmap.ext_lookup
  intro k
  rw [lookup_table]
  by_cases here : k = key old
  · subst here
    rw [Finmap.lookup_erase, List.find?_eq_none]
    intro value member
    simpa using distinct.ne_of_mem member
  · rw [Finmap.lookup_erase_ne here, lookup_table, find?_middle (Ne.symm here)]

/-- Erasing a key that no value has changes nothing. -/
theorem table_erase (distinct : Distinct key values) (absent : ∀ value ∈ values, key value ≠ k) :
    (table key values distinct).erase k = table key values distinct := by
  apply Finmap.ext_lookup
  intro other
  by_cases here : other = k
  · subst here
    rw [Finmap.lookup_erase, lookup_table, eq_comm, List.find?_eq_none]
    intro value member
    simpa using absent value member
  · rw [Finmap.lookup_erase_ne here]

end ProcessMonitor.Machine.KeyedList
