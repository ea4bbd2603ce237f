import Mathlib

/-! The first items of a list in the order of a key, selected by a heap of bounded size whose root is the last of the
items that it holds. -/

namespace Mts.Lib
open List
variable {α κ : Type} [LinearOrder κ] {key : α → κ}

/-- A heap on a list, with `Holds` for its order; `fix` restores it after a change of the root. -/
structure HeapOps (less : α → α → Bool) where
  push : List α → α → List α
  fix : List α → List α
  Holds : List α → Prop
  nil : Holds []
  holds_push : ∀ {h}, Holds h → ∀ a, Holds (push h a)
  perm_push : ∀ h a, (push h a).Perm (a :: h)
  holds_fix : ∀ {root rest}, Holds (root :: rest) → ∀ a, Holds (fix (a :: rest))
  perm_fix : ∀ h, (fix h).Perm h
  le_root : ∀ {root rest}, Holds (root :: rest) → ∀ a ∈ rest, less a root = false

section
variable {less : α → α → Bool} (before : α → α → Bool) {capacity : Nat}

def keepFirst (heap : HeapOps less) (capacity : Nat) (h : List α) (a : α) : List α :=
  if h.length < capacity then heap.push h a
  else
    match h with
    | [] => []
    | root :: rest => if before a root then heap.fix (a :: rest) else root :: rest

def sortBy (l : List α) : List α := l.insertionSort fun a b => before b a = false

theorem perm_sortBy (l : List α) : (sortBy before l).Perm l := perm_insertionSort _ _

variable {before} (hbefore : ∀ a b, before a b = true ↔ key a < key b) {items : List α}
include hbefore

theorem sorted_sortBy (items : List α) : (sortBy before items).Pairwise fun a b => before b a = false := by
  have hle : ∀ a b, before b a = false ↔ key a ≤ key b := fun a b => by
    rw [← Bool.not_eq_true, hbefore, not_lt]
  have : Std.Total fun a b => before b a = false := ⟨fun a b => by simpa only [hle] using le_total _ _⟩
  have : IsTrans α fun a b => before b a = false := ⟨fun a b c => by simpa only [hle] using le_trans⟩
  exact pairwise_insertionSort (fun a b => before b a = false) items

def HeapOps.sorted : HeapOps before where
  push h a := sortBy before (a :: h)
  fix := sortBy before
  Holds h := h.Pairwise fun a b => before b a = false
  nil := .nil
  holds_push _ _ := sorted_sortBy hbefore _
  perm_push _ _ := perm_sortBy before _
  holds_fix _ _ := sorted_sortBy hbefore _
  perm_fix := perm_sortBy before
  le_root h _ ha := rel_of_pairwise_cons h ha

theorem pairwise_sortBy (hitems : (items.map key).Nodup) : (sortBy before items).Pairwise fun a b => key a < key b := by
  have hnodup := pairwise_map.mp (((perm_sortBy before items).map key).nodup_iff.mpr hitems)
  refine ((sorted_sortBy hbefore items).and hnodup).imp fun {a b} h => lt_of_le_of_ne (not_lt.mp fun hlt => ?_) h.2
  exact Bool.false_ne_true (h.1.symm.trans ((hbefore b a).mpr hlt))

theorem eq_sortBy (hitems : (items.map key).Nodup) (hl : l.Pairwise fun a b => key a < key b)
    (hperm : l.Perm items) : l = sortBy before items :=
  List.Perm.eq_of_pairwise (fun _ _ _ _ hab hba => absurd hba hab.not_gt) hl (pairwise_sortBy hbefore hitems)
    (hperm.trans (perm_sortBy before items).symm)

theorem filter_sortBy (hitems : (items.map key).Nodup) (p : α → Bool) :
    (sortBy before items).filter p = sortBy before (items.filter p) :=
  eq_sortBy hbefore (hitems.sublist (filter_sublist.map key)) ((pairwise_sortBy hbefore hitems).filter p)
    ((perm_sortBy before items).filter p)

omit hbefore in
/-- `kept` has the first items, and the others come after them. -/
structure FirstOf (key : α → κ) (capacity : Nat) (items kept : List α) : Prop where
  rest : ∃ rest, items.Perm (kept ++ rest) ∧ (∀ a ∈ kept, ∀ b ∈ rest, key a < key b) ∧
    (kept.length < capacity → rest = [])
  length : kept.length ≤ capacity

theorem sortBy_firstOf (hitems : (items.map key).Nodup) (h : FirstOf key capacity items kept) :
    sortBy before kept = (sortBy before items).take capacity := by
  obtain ⟨rest, hperm, hless, hfull⟩ := h.rest
  have hnodup := (hperm.map key).nodup_iff.mp hitems
  rw [map_append] at hnodup
  have hsplit : sortBy before kept ++ sortBy before rest = sortBy before items := by
    refine eq_sortBy hbefore hitems (pairwise_append.mpr ⟨?_, ?_, fun a ha b hb => ?_⟩) ?_
    · exact pairwise_sortBy hbefore hnodup.of_append_left
    · exact pairwise_sortBy hbefore hnodup.of_append_right
    · exact hless a ((perm_sortBy before kept).mem_iff.mp ha) b ((perm_sortBy before rest).mem_iff.mp hb)
    · exact ((perm_sortBy before kept).append (perm_sortBy before rest)).trans hperm.symm
  have hlength := (perm_sortBy before kept).length_eq
  rw [← hsplit]
  rcases Nat.lt_or_ge kept.length capacity with hlt | hge
  · rw [hfull hlt, take_of_length_le (by simp [sortBy]; omega)]
    simp [sortBy]
  · rw [take_left' (by have := h.length; omega)]

variable (hless : ∀ a b, less a b = true ↔ key b < key a) {heap : HeapOps less}
include hless

theorem FirstOf.keepFirst (hcapacity : 1 ≤ capacity)
    (hitems : ((items ++ [a]).map key).Nodup) (hholds : heap.Holds h) (hfirst : FirstOf key capacity items h) :
    heap.Holds (Lib.keepFirst before heap capacity h a) ∧
      FirstOf key capacity (items ++ [a]) (Lib.keepFirst before heap capacity h a) := by
  obtain ⟨rest, hperm, hrest, hfull⟩ := hfirst.rest
  have hadd : (items ++ [a]).Perm (a :: (h ++ rest)) := (perm_append_singleton a items).trans (hperm.cons a)
  unfold Lib.keepFirst
  split
  · next hlt =>
    refine ⟨heap.holds_push hholds a, ⟨[], ?_, by simp, fun _ => rfl⟩, ?_⟩
    · rw [append_nil]
      rw [hfull hlt, append_nil] at hadd
      exact hadd.trans (heap.perm_push h a).symm
    · rw [(heap.perm_push h a).length_eq, length_cons]
      omega
  · next hge =>
    cases h with
    | nil => simp at hge; omega
    | cons root tail =>
      have hroot : ∀ b ∈ tail, key b ≤ key root := fun b hb => by
        rw [← not_lt, ← hless, heap.le_root hholds b hb]
        exact Bool.false_ne_true
      have hnodup := (hadd.map key).nodup_iff.mp hitems
      simp only [cons_append, map_cons, nodup_cons, mem_cons, map_append, mem_append, mem_map, not_or] at hnodup
      obtain ⟨⟨hne, -, -⟩, ⟨hunique, -⟩, -⟩ := hnodup
      have htail : ∀ b ∈ tail, key b < key root := fun b hb =>
        lt_of_le_of_ne (hroot b hb) fun heq => hunique ⟨b, hb, heq⟩
      dsimp only
      split
      · next hbef =>
        have hlt := (hbefore a root).mp hbef
        have hfix := heap.perm_fix (a :: tail)
        refine ⟨heap.holds_fix hholds a, ⟨root :: rest, ?_, fun b hb c hc => ?_, fun hshort => ?_⟩, ?_⟩
        · exact (hadd.trans (perm_middle.symm.cons a)).trans (hfix.symm.append_right _)
        · have hb : key b < key root := by
            rcases mem_cons.mp (hfix.mem_iff.mp hb) with rfl | hb
            · exact hlt
            · exact htail b hb
          rcases mem_cons.mp hc with rfl | hc
          · exact hb
          · exact hb.trans (hrest root mem_cons_self c hc)
        · rw [hfix.length_eq] at hshort
          exact absurd hshort hge
        · rw [hfix.length_eq]
          exact hfirst.length
      · next hbef =>
        have hlt : key root < key a := lt_of_le_of_ne (not_lt.mp fun h => hbef ((hbefore a root).mpr h)) (Ne.symm hne)
        refine ⟨hholds, ⟨a :: rest, ?_, fun b hb c hc => ?_, fun hshort => absurd hshort hge⟩, hfirst.length⟩
        · exact hadd.trans perm_middle.symm
        · rcases mem_cons.mp hc with rfl | hc
          · rcases mem_cons.mp hb with rfl | hb
            · exact hlt
            · exact (htail b hb).trans hlt
          · exact hrest b hb c hc

/-- Any heap keeps the first items of the sorted list. -/
theorem sortBy_foldl_keepFirst (hcapacity : 1 ≤ capacity) (hitems : (items.map key).Nodup) :
    sortBy before (items.foldl (keepFirst before heap capacity) []) = (sortBy before items).take capacity := by
  suffices h : heap.Holds (items.foldl (keepFirst before heap capacity) []) ∧
      FirstOf key capacity items (items.foldl (keepFirst before heap capacity) []) from
    sortBy_firstOf hbefore hitems h.2
  induction items using List.reverseRecOn with
  | nil => exact ⟨heap.nil, ⟨[], by simp⟩, by simp⟩
  | append_singleton items a ih =>
    rw [foldl_append, foldl_cons, foldl_nil]
    have hprior := ih (hitems.sublist ((sublist_append_left items [a]).map key))
    exact FirstOf.keepFirst hbefore hless hcapacity hitems hprior.1 hprior.2

end
end Mts.Lib
