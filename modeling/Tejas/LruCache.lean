import Mathlib.Data.List.Nodup

/-!
# A table that forgets its eldest entry

A `LinkedHashMap` in access order with a bound on its size. The entries stand in the order of
their last use, the eldest first. Looking for a key does not count as a use of it.
-/

namespace Tejas.LruCache

variable {κ β γ : Type} [DecidableEq κ]

/-- The keys differ, and there are at most `cacheSize` of them. -/
@[ext]
structure Table (κ β : Type) (cacheSize : ℕ) where
  entries : List (κ × β)
  nodup : (entries.map Prod.fst).Nodup
  bounded : entries.length ≤ cacheSize

namespace Table

variable {cacheSize : ℕ} {t : Table κ β cacheSize} {k : κ} {v : β}

def empty : Table κ β cacheSize := ⟨[], List.nodup_nil, Nat.zero_le _⟩

def find? (t : Table κ β cacheSize) (k : κ) : Option β := t.entries.lookup k

def containsKey (t : Table κ β cacheSize) (k : κ) : Bool := (t.find? k).isSome

/-- The entries of the other keys. -/
def others (t : Table κ β cacheSize) (k : κ) : List (κ × β) :=
  t.entries.filter (fun entry => entry.1 ≠ k)

theorem others_nodup (t : Table κ β cacheSize) (k : κ) (v : β) :
    ((t.others k ++ [(k, v)]).map Prod.fst).Nodup := by
  rw [List.map_append, List.nodup_append]
  refine ⟨t.nodup.sublist (List.filter_sublist.map _), List.nodup_singleton _, ?_⟩
  intro k₁ hk₁ k₂ hk₂ heq
  obtain ⟨entry, hentry, rfl⟩ := List.mem_map.mp hk₁
  have hne := of_decide_eq_true (List.mem_filter.mp hentry).2
  exact hne (heq.trans (List.mem_singleton.mp hk₂))

theorem find?_mem (h : t.find? k = some v) : (k, v) ∈ t.entries := by
  have hlookup : ∀ entries : List (κ × β), entries.lookup k = some v → (k, v) ∈ entries := by
    intro entries
    induction entries with
    | nil => exact fun h => by cases h
    | cons entry rest ih =>
      intro h
      rw [List.lookup_cons] at h
      split at h
      case h_1 heq =>
        cases h
        rw [eq_of_beq heq]
        exact List.mem_cons_self
      case h_2 => exact List.mem_cons_of_mem _ (ih h)
  exact hlookup t.entries h

theorem length_others (h : t.find? k = some v) : (t.others k).length < t.entries.length := by
  refine List.length_filter_lt_length_iff_exists.mpr ⟨(k, v), find?_mem h, by simp⟩

/-- `get` of a key that is there makes its entry the youngest. -/
def touch (t : Table κ β cacheSize) (k : κ) : Table κ β cacheSize :=
  match h : t.find? k with
  | none => t
  | some v => ⟨t.others k ++ [(k, v)], t.others_nodup k v, by
      rw [List.length_append]
      exact Nat.le_trans (length_others h) t.bounded⟩

/-- `put` of a key that is not there, and `removeEldestEntry`. -/
def put (t : Table κ β cacheSize) (k : κ) (v : β) : Table κ β cacheSize :=
  if h : (t.others k).length < cacheSize then
    ⟨t.others k ++ [(k, v)], t.others_nodup k v, by rw [List.length_append]; exact h⟩
  else
    ⟨(t.others k ++ [(k, v)]).tail,
      (t.others_nodup k v).sublist ((List.tail_sublist _).map _), by
      rw [List.length_tail, List.length_append]
      exact Nat.le_trans (List.length_filter_le _ _) t.bounded⟩

/-- The table with other values for the same keys. -/
def mapValues (f : β → γ) (t : Table κ β cacheSize) : Table κ γ cacheSize where
  entries := t.entries.map (fun entry => (entry.1, f entry.2))
  nodup := by
    rw [List.map_map]
    exact t.nodup
  bounded := by
    rw [List.length_map]
    exact t.bounded

variable (f : β → γ)

omit [DecidableEq κ] in
theorem entries_mapValues (t : Table κ β cacheSize) :
    (t.mapValues f).entries = t.entries.map (fun entry => (entry.1, f entry.2)) := rfl

theorem find?_mapValues (t : Table κ β cacheSize) (k : κ) :
    (t.mapValues f).find? k = (t.find? k).map f := by
  have hlookup : ∀ entries : List (κ × β),
      (entries.map (fun entry => (entry.1, f entry.2))).lookup k =
        (entries.lookup k).map f := by
    intro entries
    induction entries with
    | nil => rfl
    | cons entry rest ih =>
      rw [List.map_cons, List.lookup_cons, List.lookup_cons]
      split
      · rfl
      · exact ih
  exact hlookup t.entries

theorem others_mapValues (t : Table κ β cacheSize) (k : κ) :
    (t.mapValues f).others k = (t.others k).map (fun entry => (entry.1, f entry.2)) := by
  rw [others, others, mapValues, List.filter_map]
  rfl

theorem touch_eq_of_some (h : t.find? k = some v) :
    (t.touch k).entries = t.others k ++ [(k, v)] := by
  rw [touch]
  split
  case h_1 hnone =>
    rw [h] at hnone
    cases hnone
  case h_2 v' hsome =>
    rw [h] at hsome
    cases hsome
    rfl

theorem touch_eq_of_none (h : t.find? k = none) : t.touch k = t := by
  rw [touch]
  split
  case h_1 => rfl
  case h_2 v' hsome =>
    rw [h] at hsome
    cases hsome

/-- Using an entry does not look at the values. -/
theorem touch_mapValues (t : Table κ β cacheSize) (k : κ) :
    (t.mapValues f).touch k = (t.touch k).mapValues f := by
  cases h : t.find? k with
  | none =>
    have hmap : (t.mapValues f).find? k = none := by rw [find?_mapValues, h, Option.map_none]
    rw [touch_eq_of_none h, touch_eq_of_none hmap]
  | some v =>
    have hmap : (t.mapValues f).find? k = some (f v) := by
      rw [find?_mapValues, h, Option.map_some]
    refine Table.ext ?_
    rw [touch_eq_of_some hmap, others_mapValues, entries_mapValues, touch_eq_of_some h,
      List.map_append]
    rfl

theorem entries_put (t : Table κ β cacheSize) (k : κ) (v : β) : (t.put k v).entries =
    if (t.others k).length < cacheSize then t.others k ++ [(k, v)]
    else (t.others k ++ [(k, v)]).tail := by
  rw [put]
  split <;> rfl

theorem put_mapValues (t : Table κ β cacheSize) (k : κ) (v : β) :
    (t.mapValues f).put k (f v) = (t.put k v).mapValues f := by
  refine Table.ext ?_
  rw [entries_put, others_mapValues, List.length_map, entries_mapValues, entries_put]
  split
  · rw [List.map_append]
    rfl
  · rw [List.map_tail, List.map_append]
    rfl

/-! ## Entries -/

theorem mem_touch {entry : κ × β} (h : entry ∈ (t.touch k).entries) : entry ∈ t.entries := by
  cases hfind : t.find? k with
  | none =>
    rw [touch_eq_of_none hfind] at h
    exact h
  | some v =>
    rw [touch_eq_of_some hfind] at h
    obtain h | h := List.mem_append.mp h
    · exact (List.mem_filter.mp h).1
    · rw [List.mem_singleton.mp h]
      exact find?_mem hfind

theorem mem_put {entry : κ × β} (h : entry ∈ (t.put k v).entries) :
    entry = (k, v) ∨ entry ∈ t.entries := by
  have hall : entry ∈ t.others k ++ [(k, v)] := by
    rw [entries_put] at h
    split at h
    · exact h
    · exact List.mem_of_mem_tail h
  obtain h | h := List.mem_append.mp hall
  · exact Or.inr (List.mem_filter.mp h).1
  · exact Or.inl (List.mem_singleton.mp h)

end Table

end Tejas.LruCache
