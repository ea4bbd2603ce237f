import Mts.Lib.GoMap

/-! Grouping by a key in the order of first appearance, with the positions of the groups in a map. -/

namespace Mts.Lib
open List
variable {κ α : Type} [DecidableEq κ] {position : Nat} {k : κ}

def addAt (groups : List (κ × List α)) (position : Nat) (a : α) : List (κ × List α) :=
  groups.modify position fun g => (g.1, g.2 ++ [a])

/-- An item is added to the group of its key, a new one at the end where there is none. -/
def place (positions : GoMap κ Nat) (groups : List (κ × List α)) (k : κ) (a : α) : GoMap κ Nat × List (κ × List α) :=
  match positions.get? k with
  | some position => (positions, addAt groups position a)
  | none => (positions.set k groups.length, addAt (groups ++ [(k, [])]) groups.length a)

structure Groups (key : α → κ) (positions : GoMap κ Nat) (groups : List (κ × List α)) (items : List α) : Prop where
  nodup : (groups.map Prod.fst).Nodup
  positions : ∀ {k j}, positions.get? k = some j ↔ (groups.map Prod.fst)[j]? = some k
  filled : ∀ g ∈ groups, g.2 = items.filter fun a => key a = g.1
  covers : ∀ a ∈ items, key a ∈ groups.map Prod.fst

variable {key : α → κ} {positions : GoMap κ Nat} {groups : List (κ × List α)} {items : List α}

theorem Groups.empty : Groups key ∅ ([] : List (κ × List α)) [] where
  nodup := nodup_nil
  positions := by simp
  filled _ h := absurd h not_mem_nil
  covers _ h := absurd h not_mem_nil

theorem addAt_eq_map (hnodup : (groups.map Prod.fst).Nodup) (hk : (groups.map Prod.fst)[position]? = some k)
    (a : α) : addAt groups position a = groups.map fun g => if g.1 = k then (g.1, g.2 ++ [a]) else g := by
  refine ext_getElem? fun j => ?_
  rw [addAt, getElem?_modify, getElem?_map]
  cases hj : groups[j]? with
  | none => rfl
  | some g =>
    have hkey : (groups.map Prod.fst)[j]? = some g.1 := by rw [getElem?_map, hj]; rfl
    by_cases hposition : position = j
    · subst hposition
      have : g.1 = k := Option.some.inj (hkey.symm.trans hk)
      simp [this]
    · have : g.1 ≠ k := by
        rintro rfl
        obtain ⟨_, hleft⟩ := List.getElem?_eq_some_iff.mp hk
        obtain ⟨_, hright⟩ := List.getElem?_eq_some_iff.mp hkey
        exact hposition (hnodup.getElem_inj_iff.mp (hleft.trans hright.symm))
      simp [hposition, this]

namespace Groups

variable {a : α} {g : κ × List α}

section
variable (h : Groups key positions groups items)
include h

theorem notMem (hk : positions.get? k = none) : k ∉ groups.map Prod.fst := by
  intro hmem
  obtain ⟨j, hj⟩ := mem_iff_getElem?.mp hmem
  rw [h.positions.mpr hj] at hk
  cases hk

theorem extend (hk : positions.get? k = none) :
    Groups key (positions.set k groups.length) (groups ++ [(k, [])]) items where
  nodup := by
    rw [map_append, nodup_append]
    refine ⟨h.nodup, nodup_singleton _, ?_⟩
    rintro k' hk' _ hmem rfl
    obtain rfl : k' = k := mem_singleton.mp hmem
    exact h.notMem hk hk'
  positions {k' j} := by
    rw [GoMap.get?_set, map_append, map_singleton, getElem?_append, length_map]
    have hlt : positions.get? k' = some j → j < groups.length := fun hj => by
      simpa using (List.getElem?_eq_some_iff.mp (h.positions.mp hj)).1
    by_cases hk' : k' = k
    · subst hk'
      have hnot : (groups.map Prod.fst)[j]? ≠ some k' := fun hj => h.notMem hk (mem_of_getElem? hj)
      rw [if_pos rfl]
      split
      · next hj => simp only [hnot, iff_false, Option.some.injEq]; omega
      · next hj =>
        rw [getElem?_singleton]
        split
        · next hzero => simp only [Option.some.injEq, iff_true]; omega
        · next hzero => simp only [reduceCtorEq, iff_false, Option.some.injEq]; omega
    · rw [if_neg hk']
      split
      · exact h.positions
      · next hj =>
        constructor
        · exact fun hget => absurd (hlt hget) hj
        · intro hget
          exact absurd (mem_singleton.mp (mem_of_getElem? hget)) hk'
  filled g hg := by
    rcases mem_append.mp hg with hg | hg
    · exact h.filled g hg
    · obtain rfl := mem_singleton.mp hg
      refine (filter_eq_nil_iff.mpr fun a ha hdecide => h.notMem hk ?_).symm
      have hkey : key a = k := of_decide_eq_true hdecide
      exact hkey ▸ h.covers a ha
  covers a ha := by
    rw [map_append]
    exact mem_append_left _ (h.covers a ha)

theorem add (hk : positions.get? (key a) = some position) :
    Groups key positions (addAt groups position a) (items ++ [a]) := by
  have hkeys := h.positions.mp hk
  have hfst : (addAt groups position a).map Prod.fst = groups.map Prod.fst := by
    rw [addAt_eq_map h.nodup hkeys, map_map]
    refine map_congr_left fun g _ => ?_
    rw [Function.comp_apply]
    split <;> rfl
  refine ⟨hfst ▸ h.nodup, hfst ▸ h.positions, fun g hg => ?_, fun b hb => ?_⟩
  · rw [addAt_eq_map h.nodup hkeys] at hg
    obtain ⟨g, hmem, rfl⟩ := mem_map.mp hg
    have hfilled := h.filled g hmem
    split
    · next hkey => simp [filter_append, ← hkey, hfilled]
    · next hkey => simp [filter_append, Ne.symm hkey, ← hfilled]
  · rw [hfst]
    rcases mem_append.mp hb with hb | hb
    · exact h.covers b hb
    · rw [mem_singleton.mp hb]
      exact mem_of_getElem? hkeys

theorem place (hkey : key a = k) :
    Groups key (Lib.place positions groups k a).1 (Lib.place positions groups k a).2 (items ++ [a]) := by
  subst hkey
  rw [Lib.place]
  split
  · next position hk => exact h.add hk
  · next hk => exact (h.extend hk).add (GoMap.get?_set_self _ _ _)

theorem sublist (hg : g ∈ groups) : g.2.Sublist items := by
  rw [h.filled g hg]
  exact filter_sublist

theorem key_eq (hg : g ∈ groups) (ha : a ∈ g.2) : key a = g.1 := by
  rw [h.filled g hg] at ha
  exact of_decide_eq_true (mem_filter.mp ha).2

end

end Groups

theorem perm_flatMap_filter {keys : List κ} (hnodup : keys.Nodup) (hcovers : ∀ a ∈ items, key a ∈ keys) :
    (keys.flatMap fun k => items.filter fun a => key a = k).Perm items := by
  induction keys generalizing items with
  | nil =>
    rw [eq_nil_iff_forall_not_mem.mpr fun a ha => not_mem_nil (hcovers a ha)]
    exact List.Perm.nil
  | cons k keys ih =>
    obtain ⟨hk, hnodup⟩ := nodup_cons.mp hnodup
    -- what is left after the first key is grouped by the others
    have hrest : (keys.flatMap fun k' => items.filter fun a => key a = k') =
        keys.flatMap fun k' => (items.filter fun a => !decide (key a = k)).filter fun a => key a = k' := by
      refine flatMap_congr fun k' hk' => ?_
      rw [filter_filter]
      refine filter_congr fun a _ => ?_
      have : k' ≠ k := fun heq => hk (heq ▸ hk')
      by_cases ha : key a = k'
      · simp [ha, this]
      · simp [ha]
    rw [flatMap_cons, hrest]
    refine ((ih hnodup fun a ha => ?_).append_left _).trans (filter_append_perm _ items)
    obtain ⟨ha, hkey⟩ := mem_filter.mp ha
    have hne : key a ≠ k := by simpa using hkey
    exact (mem_cons.mp (hcovers a ha)).resolve_left hne

theorem Groups.perm (h : Groups key positions groups items) : (groups.flatMap Prod.snd).Perm items := by
  have hgroups : groups.flatMap Prod.snd =
      (groups.map Prod.fst).flatMap fun k => items.filter fun a => key a = k := by
    rw [flatMap_map]
    exact flatMap_congr h.filled
  rw [hgroups]
  exact perm_flatMap_filter h.nodup h.covers

end Mts.Lib
