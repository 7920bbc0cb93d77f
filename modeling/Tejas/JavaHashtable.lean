import Mathlib.Data.List.Basic
import Mathlib.Data.Int.Notation

/-!
# Hash tables with the two membership tests of `java.util.Hashtable`

A table is its list of entries, one for each key. `containsKey` looks for a key.
`contains` looks for a value with `equals`, and an object of one class never
equals an object of another.
-/

namespace Tejas.JavaHashtable

/-- The boxed objects that are compared with `equals`. -/
inductive JavaObject where
  | long (value : ℤ)
  | integer (value : ℤ)
  | arrayList (elements : List ℤ)
  deriving DecidableEq, Repr

structure Hashtable (κ ν : Type) where
  entries : List (κ × ν)
  deriving DecidableEq, Repr

namespace Hashtable

variable {κ ν : Type} [DecidableEq κ]

def empty : Hashtable κ ν := ⟨[]⟩

def get (t : Hashtable κ ν) (key : κ) : Option ν :=
  (t.entries.find? (fun e => e.1 = key)).map Prod.snd

def remove (t : Hashtable κ ν) (key : κ) : Hashtable κ ν :=
  ⟨t.entries.filter (fun e => e.1 ≠ key)⟩

def put (t : Hashtable κ ν) (key : κ) (value : ν) : Hashtable κ ν :=
  ⟨(key, value) :: (t.remove key).entries⟩

def containsKey (t : Hashtable κ ν) (key : κ) : Bool := (t.get key).isSome

/-- Some value of the table equals the object. -/
def contains (box : ν → JavaObject) (t : Hashtable κ ν) (value : JavaObject) : Bool :=
  t.entries.any (fun e => box e.2 = value)

@[simp] theorem get_empty (key : κ) : (empty : Hashtable κ ν).get key = none := rfl

@[simp] theorem get_put_same (t : Hashtable κ ν) (key : κ) (value : ν) :
    (t.put key value).get key = some value := by
  simp [put, get]

@[simp] theorem get_remove_same (t : Hashtable κ ν) (key : κ) : (t.remove key).get key = none := by
  simp [remove, get, List.find?_filter]

theorem get_remove_of_ne (t : Hashtable κ ν) {key other : κ} (h : other ≠ key) :
    (t.remove key).get other = t.get other := by
  have hpred : (fun e : κ × ν => decide (e.1 ≠ key) && decide (e.1 = other)) =
      fun e => decide (e.1 = other) := by
    funext e
    by_cases he : e.1 = other
    · simp [he, h]
    · simp [he]
  simp only [remove, get, List.find?_filter]
  congr 2
  funext e
  simpa using congrFun hpred e

theorem get_put_of_ne (t : Hashtable κ ν) {key other : κ} (h : other ≠ key) (value : ν) :
    (t.put key value).get other = t.get other := by
  rw [← get_remove_of_ne t h]
  simp [put, get, h.symm]

theorem mem_entries_remove {t : Hashtable κ ν} {key : κ} {e : κ × ν} :
    e ∈ (t.remove key).entries ↔ e ∈ t.entries ∧ e.1 ≠ key := by
  simp [remove]

theorem mem_entries_put {t : Hashtable κ ν} {key : κ} {value : ν} {e : κ × ν} :
    e ∈ (t.put key value).entries ↔ e = (key, value) ∨ e ∈ t.entries ∧ e.1 ≠ key := by
  rw [put, List.mem_cons, mem_entries_remove]

theorem nodup_keys_remove {t : Hashtable κ ν} (h : (t.entries.map Prod.fst).Nodup) (key : κ) :
    ((t.remove key).entries.map Prod.fst).Nodup :=
  List.Nodup.sublist (List.Sublist.map _ List.filter_sublist) h

theorem nodup_keys_put {t : Hashtable κ ν} (h : (t.entries.map Prod.fst).Nodup) (key : κ)
    (value : ν) : ((t.put key value).entries.map Prod.fst).Nodup := by
  rw [put, List.map_cons, List.nodup_cons]
  refine ⟨?_, nodup_keys_remove h key⟩
  intro hmem
  obtain ⟨e, he, hkey⟩ := List.mem_map.mp hmem
  exact (mem_entries_remove.mp he).2 hkey

theorem mem_of_get_eq_some {t : Hashtable κ ν} {key : κ} {value : ν}
    (h : t.get key = some value) : (key, value) ∈ t.entries := by
  obtain ⟨e, hfound, rfl⟩ := Option.map_eq_some_iff.mp h
  have hkey : e.1 = key := by simpa using List.find?_some hfound
  subst hkey
  exact List.mem_of_find?_eq_some hfound

omit [DecidableEq κ] in
/-- Values of one class never contain an object of another. -/
theorem contains_eq_false (box : ν → JavaObject) (t : Hashtable κ ν) {value : JavaObject}
    (h : ∀ v, box v ≠ value) : contains box t value = false := by
  simp [contains, h]

end Hashtable

end Tejas.JavaHashtable
