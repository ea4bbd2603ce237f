import Mathlib

/-! Go maps: association lists without duplicate keys, with lookup, assignment and deletion. -/

namespace Mts.Lib
open List

abbrev GoMap (κ ν : Type) := AList fun _ : κ => ν

namespace GoMap
variable {κ ν : Type} [DecidableEq κ] {k : κ} {m m' : GoMap κ ν} {v : ν}

def get? (m : GoMap κ ν) (k : κ) : Option ν := m.lookup k

def set (m : GoMap κ ν) (k : κ) (v : ν) : GoMap κ ν := m.insert k v

/-- `len(m)`. -/
def size (m : GoMap κ ν) : Nat := m.entries.length

def values (m : GoMap κ ν) : List ν := m.entries.map Sigma.snd

@[simp] theorem get?_empty (k : κ) : get? (∅ : GoMap κ ν) k = none := AList.lookup_empty k

theorem get?_set (m : GoMap κ ν) (k : κ) (v : ν) (k' : κ) :
    (m.set k v).get? k' = if k' = k then some v else m.get? k' := by
  split
  · next h =>
    subst h
    exact AList.lookup_insert m
  · next h => exact AList.lookup_insert_ne h

@[simp] theorem get?_set_self (m : GoMap κ ν) (k : κ) (v : ν) : (m.set k v).get? k = some v := by
  rw [get?_set, if_pos rfl]

theorem get?_set_ne (m : GoMap κ ν) (v : ν) (h : k' ≠ k) : (m.set k v).get? k' = m.get? k' := by
  rw [get?_set, if_neg h]

def delete (m : GoMap κ ν) (k : κ) : GoMap κ ν := m.erase k

theorem get?_delete (m : GoMap κ ν) (k k' : κ) : (m.delete k).get? k' = if k' = k then none else m.get? k' := by
  split
  · next h =>
    subst h
    exact AList.lookup_erase k' m
  · next h => exact AList.lookup_erase_ne h

theorem get?_set_eq_some (h : ∀ {v'}, m.get? k = some v' → v' = v) :
    (m.set k v).get? k' = some v' ↔ k' = k ∧ v' = v ∨ m.get? k' = some v' := by
  rw [get?_set]
  split
  · next heq =>
    subst heq
    constructor
    · intro hv
      exact .inl ⟨rfl, (Option.some.inj hv).symm⟩
    · rintro (⟨-, rfl⟩ | hv)
      · rfl
      · rw [h hv]
  · next hne => simp [hne]

theorem mem_values : v ∈ m.values ↔ ∃ k, m.get? k = some v := by
  rw [values, mem_map]
  constructor
  · rintro ⟨⟨k, v⟩, hmem, rfl⟩
    exact ⟨k, AList.mem_lookup_iff.mpr hmem⟩
  · rintro ⟨k, hk⟩
    exact ⟨⟨k, v⟩, AList.mem_lookup_iff.mp hk, rfl⟩

omit [DecidableEq κ] in
theorem size_eq_length_values (m : GoMap κ ν) : m.size = m.values.length := (length_map _).symm

theorem values_set_of_none (h : m.get? k = none) (v : ν) : (m.set k v).values = v :: m.values := by
  rw [values, set, AList.entries_insert_of_notMem (AList.lookup_eq_none.mp h)]
  rfl

theorem size_set_of_none (h : m.get? k = none) (v : ν) : (m.set k v).size = m.size + 1 := by
  rw [size_eq_length_values, values_set_of_none h, length_cons, size_eq_length_values]

theorem nodup_map_values {α : Type} {f : ν → α}
    (h : ∀ k k' v v', m.get? k = some v → m.get? k' = some v' → f v = f v' → k = k') :
    (m.values.map f).Nodup := by
  rw [values, map_map]
  refine List.Nodup.map_on (fun x hx y hy hxy => ?_) m.nodupKeys.nodup
  obtain ⟨k, v⟩ := x
  obtain ⟨k', v'⟩ := y
  have hk := AList.mem_lookup_iff.mpr hx
  have hk' := AList.mem_lookup_iff.mpr hy
  obtain rfl := h k k' v v' hk hk' hxy
  rw [Option.some.inj (hk.symm.trans hk')]

theorem size_le_of_extends (h : ∀ k v, m.get? k = some v → m'.get? k = some v) : m.size ≤ m'.size := by
  have hsub : m.entries ⊆ m'.entries := by
    rintro ⟨k, v⟩ hkv
    exact AList.mem_lookup_iff.mp (h k v (AList.mem_lookup_iff.mpr hkv))
  exact (subperm_of_subset m.nodupKeys.nodup hsub).length_le

theorem size_lt_of_extends (h : ∀ k v, m.get? k = some v → m'.get? k = some v) (hnew : m.get? k = none)
    (hv : m'.get? k = some v) : m.size < m'.size := by
  have hset : (m.set k v).size ≤ m'.size := by
    refine size_le_of_extends fun k' v' hk' => ?_
    rw [get?_set] at hk'
    split at hk'
    · next heq =>
      cases hk'
      rwa [heq]
    · exact h k' v' hk'
  rwa [size_set_of_none hnew] at hset

section
variable {α : Type} [DecidableEq α] {f : ν → α} {labels : List α}
  (hinj : ∀ k k' v v', m.get? k = some v → m.get? k' = some v' → f v = f v' → k = k')
  (hlabel : ∀ k v, m.get? k = some v → f v ∈ labels)
include hinj hlabel

/-- A map whose values carry different labels from a list has fewer entries than the list, as long as one of
the labels is missing. -/
theorem size_lt_of_new {a : α} (ha : a ∈ labels) (hnew : ∀ k v, m.get? k = some v → f v ≠ a) :
    m.size < labels.dedup.length := by
  have hnodup : (a :: m.values.map f).Nodup := by
    refine nodup_cons.mpr ⟨fun hmem => ?_, nodup_map_values hinj⟩
    obtain ⟨v, hv, heq⟩ := mem_map.mp hmem
    obtain ⟨k, hk⟩ := mem_values.mp hv
    exact hnew k v hk heq
  have hsub : a :: m.values.map f ⊆ labels.dedup := by
    intro b hb
    rw [mem_dedup]
    rcases mem_cons.mp hb with rfl | hb
    · exact ha
    · obtain ⟨v, hv, rfl⟩ := mem_map.mp hb
      obtain ⟨k, hk⟩ := mem_values.mp hv
      exact hlabel k v hk
  have hle := (subperm_of_subset hnodup hsub).length_le
  rwa [length_cons, length_map, ← size_eq_length_values] at hle

/-- A map whose values carry different labels from a list: its encoding is as long as the labels allow. -/
theorem length_flatMap_values_le {β : Type} {l : List ν} {bytes : ν → List β} {size : α → Nat}
    (hl : l.Perm m.values) (h : ∀ v, (bytes v).length ≤ n * size (f v)) :
    (l.flatMap bytes).length ≤ n * (labels.dedup.map size).sum := by
  have hsub : m.values.map f ⊆ labels.dedup := by
    intro a ha
    obtain ⟨v, hv, rfl⟩ := mem_map.mp ha
    obtain ⟨k, hk⟩ := mem_values.mp hv
    exact mem_dedup.mpr (hlabel k v hk)
  obtain ⟨part, hperm, hpart⟩ := subperm_of_subset (nodup_map_values hinj) hsub
  calc (l.flatMap bytes).length
      = (l.map fun v => (bytes v).length).sum := length_flatMap
    _ = (m.values.map fun v => (bytes v).length).sum := (hl.map _).sum_eq
    _ ≤ (m.values.map fun v => n * size (f v)).sum := sum_le_sum fun v _ => h v
    _ = n * ((m.values.map f).map size).sum := by rw [sum_map_mul_left, map_map]; rfl
    _ = n * (part.map size).sum := by rw [(hperm.map size).sum_eq]
    _ ≤ n * (labels.dedup.map size).sum :=
      Nat.mul_le_mul_left n ((hpart.map size).sum_le_sum fun _ _ => Nat.zero_le _)

end

end GoMap
end Mts.Lib
