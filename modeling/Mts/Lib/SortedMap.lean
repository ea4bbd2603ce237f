import Mathlib

/-! Maps as lists of entries in the order of their keys. The order is canonical, so maps with the same values are
equal. -/

namespace Mts.Lib
open List

section Keys
variable {α κ : Type*} {key : α → κ}

instance (priority := low) leTotal [LE κ] [Std.Total (α := κ) (· ≤ ·)] : Std.Total fun a b => key a ≤ key b :=
  ⟨fun _ _ => Std.le_total⟩

instance (priority := low) leTrans [LE κ] [IsTrans κ (· ≤ ·)] : IsTrans α fun a b => key a ≤ key b :=
  ⟨fun _ _ _ => Std.le_trans⟩

variable [LT κ]

instance (priority := low) ltTrans [IsTrans κ (· < ·)] : IsTrans α fun a b => key a < key b :=
  ⟨fun _ _ _ => Std.lt_trans⟩

variable [Std.Irrefl (α := κ) (· < ·)]

instance (priority := low) ltIrrefl : Std.Irrefl fun a b => key a < key b := ⟨fun _ => Std.lt_irrefl⟩

instance (priority := low) ltAntisymm [Trans (α := κ) (· < ·) (· < ·) (· < ·)] :
    Std.Antisymm fun a b => key a < key b := ⟨fun _ _ hab hba => absurd (Std.lt_trans hab hba) Std.lt_irrefl⟩

end Keys

structure SortedMap (κ ν : Type) [LT κ] where
  entries : List (κ × ν)
  sorted : entries.Pairwise fun a b => a.1 < b.1
  deriving DecidableEq

namespace SortedMap
variable {κ ν : Type} [LT κ] {k : κ} {v : ν}

def empty : SortedMap κ ν := ⟨[], List.Pairwise.nil⟩

def filter (m : SortedMap κ ν) (p : κ × ν → Bool) : SortedMap κ ν := ⟨m.entries.filter p, m.sorted.filter p⟩

def isEmpty (m : SortedMap κ ν) : Bool := m.entries.isEmpty

variable [DecidableEq κ]

def find? (m : SortedMap κ ν) (k : κ) : Option ν := (m.entries.find? fun e => e.1 = k).map Prod.snd

/-- `delete(m, k)`. -/
def erase (m : SortedMap κ ν) (k : κ) : SortedMap κ ν := m.filter fun e => e.1 ≠ k

@[simp] theorem find?_empty (k : κ) : (empty : SortedMap κ ν).find? k = none := rfl

section Entries
variable [DecidableLT κ]

/-- `m[k] = v` on the entries. -/
def setEntry (k : κ) (v : ν) : List (κ × ν) → List (κ × ν)
  | [] => [(k, v)]
  | e :: es =>
    if e.1 < k then e :: setEntry k v es
    else if e.1 = k then (k, v) :: es
    else (k, v) :: e :: es

theorem mem_of_mem_setEntry (h : x ∈ setEntry k v es) : x = (k, v) ∨ x ∈ es := by
  induction es with
  | nil => exact .inl (mem_singleton.mp h)
  | cons e es ih =>
    rw [setEntry] at h
    split_ifs at h <;> grind

end Entries

section Order
variable [Std.Irrefl (fun a b : κ => a < b)] {m : SortedMap κ ν} {k' : κ}

theorem find?_eq_some_iff : m.find? k = some v ↔ (k, v) ∈ m.entries := by
  obtain ⟨entries, sorted⟩ := m
  unfold find?
  induction entries with
  | nil => simp
  | cons e es ih =>
    obtain ⟨he, hes⟩ := pairwise_cons.mp sorted
    by_cases hkey : e.1 = k
    · rw [find?_cons_of_pos (by simpa using hkey), Option.map_some, Option.some.injEq, mem_cons]
      constructor
      · intro hv
        exact .inl (by rw [← hkey, ← hv])
      · rintro (h | h)
        · rw [← h]
        · exact absurd (he _ h) (hkey ▸ Std.lt_irrefl)
    · rw [find?_cons_of_neg (by simpa using hkey), ih hes, mem_cons]
      refine ⟨Or.inr, fun h => h.resolve_left fun heq => hkey (by rw [← heq])⟩

theorem find?_filter : (m.filter p).find? k = (m.find? k).filter fun v => p (k, v) := by
  apply Option.ext
  intro v
  rw [Option.filter_eq_some_iff, find?_eq_some_iff, find?_eq_some_iff]
  exact mem_filter

theorem find?_erase : (m.erase k).find? k' = if k' = k then none else m.find? k' := by
  rw [erase, find?_filter]
  split
  · next h => simp [h]
  · next h =>
    have hkeep : (fun v : ν => decide ((k', v).1 ≠ k)) = fun _ => true := by
      funext v
      simp [h]
    rw [hkeep]
    cases m.find? k' <;> rfl

theorem of_find?_erase (h : (m.erase k).find? k' = some v) : k' ≠ k ∧ m.find? k' = some v := by
  rw [find?_erase] at h
  split at h <;> simp_all

theorem find?_isSome_of_mem (h : e ∈ m.entries) : (m.find? e.1).isSome :=
  Option.isSome_iff_exists.mpr ⟨e.2, find?_eq_some_iff.mpr h⟩

variable [Trans (fun a b : κ => a < b) (fun a b : κ => a < b) (fun a b : κ => a < b)]

theorem ext_find? (h : ∀ k, m.find? k = m'.find? k) : m = m' := by
  have hmem : ∀ x, x ∈ m.entries ↔ x ∈ m'.entries := by
    rintro ⟨k, v⟩
    rw [← find?_eq_some_iff, ← find?_eq_some_iff, h]
  have hentries := List.Pairwise.eq_of_mem_iff m.sorted m'.sorted hmem
  obtain ⟨entries', sorted'⟩ := m'
  subst hentries
  rfl

variable [DecidableLT κ] [Std.Trichotomous (fun a b : κ => a < b)]

omit [Std.Irrefl (fun a b : κ => a < b)] in
theorem setEntry_sorted (h : es.Pairwise (·.1 < ·.1)) : (setEntry k v es).Pairwise (·.1 < ·.1) := by
  induction es with
  | nil => exact pairwise_singleton _ _
  | cons e es ih =>
    obtain ⟨he, hes⟩ := pairwise_cons.mp h
    rw [setEntry]
    split_ifs with hlt heq
    · refine pairwise_cons.mpr ⟨fun x hx => ?_, ih hes⟩
      rcases mem_of_mem_setEntry hx with rfl | hx
      · exact hlt
      · exact he x hx
    · exact pairwise_cons.mpr ⟨fun x hx => heq ▸ he x hx, hes⟩
    · have hkey : k < e.1 := by
        by_contra hnot
        exact heq (Std.Trichotomous.trichotomous _ _ hlt hnot)
      refine pairwise_cons.mpr ⟨fun x hx => ?_, h⟩
      rcases mem_cons.mp hx with rfl | hx
      · exact hkey
      · exact Std.lt_trans hkey (he x hx)

/-- `m[k] = v`. -/
def set (m : SortedMap κ ν) (k : κ) (v : ν) : SortedMap κ ν := ⟨setEntry k v m.entries, setEntry_sorted m.sorted⟩

theorem find?_set (m : SortedMap κ ν) (k : κ) (v : ν) (k' : κ) :
    (m.set k v).find? k' = if k' = k then some v else m.find? k' := by
  obtain ⟨es, sorted⟩ := m
  unfold set find?
  dsimp only
  clear sorted
  induction es with
  | nil =>
    by_cases h : k = k'
    · simp [setEntry, h]
    · simp [setEntry, h, Ne.symm h]
  | cons e es ih =>
    by_cases hlt : e.1 < k
    · rw [setEntry, if_pos hlt]
      by_cases he : e.1 = k'
      · have hne : k' ≠ k := fun h => Std.lt_irrefl (he.trans h ▸ hlt)
        rw [if_neg hne, find?_cons_of_pos (by simpa using he), find?_cons_of_pos (by simpa using he)]
      · rw [find?_cons_of_neg (by simpa using he), find?_cons_of_neg (by simpa using he), ih]
    · rw [setEntry, if_neg hlt]
      by_cases h : k = k'
      · subst h
        split <;> simp
      · rw [if_neg (Ne.symm h)]
        split
        · next heq =>
          rw [find?_cons_of_neg (by simpa using h), find?_cons_of_neg (by simpa [heq] using h)]
        · rw [find?_cons_of_neg (by simpa using h)]

@[simp] theorem find?_set_self (m : SortedMap κ ν) (k : κ) (v : ν) : (m.set k v).find? k = some v := by
  rw [find?_set, if_pos rfl]

theorem of_find?_set (h : (m.set k v).find? k' = some w) : k' = k ∧ v = w ∨ m.find? k' = some w := by
  rw [find?_set] at h
  split at h <;> simp_all

theorem isEmpty_set (m : SortedMap κ ν) (k : κ) (v : ν) : (m.set k v).isEmpty = false := by
  by_contra h
  have hnil : (m.set k v).entries = [] := by simpa [isEmpty] using h
  have hmem := find?_eq_some_iff.mp (find?_set_self m k v)
  rw [hnil] at hmem
  simp at hmem

theorem isSome_find?_set (h : (m.find? k').isSome) (k : κ) (v : ν) : ((m.set k v).find? k').isSome := by
  rw [find?_set]
  split
  · rfl
  · exact h

theorem find?_set_of_ne (m : SortedMap κ ν) (v : ν) (h : k' ≠ k) : (m.set k v).find? k' = m.find? k' := by
  rw [find?_set, if_neg h]

/-- `m[k] = v` where there is a value. -/
def setIfSome (m : SortedMap κ ν) (k : κ) (v? : Option ν) : SortedMap κ ν :=
  match v? with
  | some v => m.set k v
  | none => m

section Fold
variable {β : Type} {key : β → κ} {val : β → Option ν} {m : SortedMap κ ν} {items : List β}

theorem find?_foldl_of_notMem (h : k ∉ items.map key) :
    (items.foldl (fun m b => m.setIfSome (key b) (val b)) m).find? k = m.find? k := by
  induction items generalizing m with
  | nil => rfl
  | cons b items ih =>
    rw [map_cons, mem_cons, not_or] at h
    rw [foldl_cons, ih h.2]
    cases hv : val b with
    | none => rfl
    | some v => exact find?_set_of_ne m v h.1

theorem find?_foldl_of_mem (hnodup : (items.map key).Nodup) (hb : b ∈ items) (hm : m.find? (key b) = none) :
    (items.foldl (fun m b => m.setIfSome (key b) (val b)) m).find? (key b) = val b := by
  induction items generalizing m with
  | nil => simp at hb
  | cons c items ih =>
    rw [map_cons, nodup_cons] at hnodup
    rw [foldl_cons]
    rcases mem_cons.mp hb with rfl | hb
    · rw [find?_foldl_of_notMem hnodup.1]
      cases hv : val b with
      | none => exact hm
      | some v => exact find?_set_self m _ v
    · have hne : key b ≠ key c := fun heq => hnodup.1 (heq ▸ mem_map_of_mem hb)
      refine ih hnodup.2 hb ?_
      cases hv : val c with
      | none => exact hm
      | some v => exact (find?_set_of_ne m v hne).trans hm

end Fold

omit [DecidableEq κ] [DecidableLT κ] [Std.Trichotomous (fun a b : κ => a < b)]
  [Trans (fun a b : κ => a < b) (fun a b : κ => a < b) (fun a b : κ => a < b)] in
theorem nodup_keys (m : SortedMap κ ν) : (m.entries.map Prod.fst).Nodup := by
  refine pairwise_map.mpr (m.sorted.imp ?_)
  intro a b hlt heq
  rw [heq] at hlt
  exact Std.lt_irrefl hlt

theorem foldl_set_entries (m : SortedMap κ ν) : m.entries.foldl (fun m e => m.set e.1 e.2) empty = m := by
  apply ext_find?
  intro k
  change (m.entries.foldl (fun m e => m.setIfSome e.1 (some e.2)) empty).find? k = _
  cases h : m.find? k with
  | some v => exact find?_foldl_of_mem m.nodup_keys (find?_eq_some_iff.mp h) rfl
  | none =>
    refine find?_foldl_of_notMem fun hmem => ?_
    obtain ⟨e, he, rfl⟩ := mem_map.mp hmem
    have hsome := find?_isSome_of_mem he
    rw [h] at hsome
    simp at hsome

end Order
end SortedMap
end Mts.Lib
