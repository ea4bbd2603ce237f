import Mts.Lib.Exec
import Mts.Lib.GoMap
import Mts.Lib.SortedMap

/-! A loop that keeps one accumulator per key: each item goes to the accumulator of its key, the first one of a
key opens it. At the end the accumulator of a key has taken in the items of that key, in their order. -/

namespace Mts.Lib
open List
variable {α κ σ ε : Type} [DecidableEq κ] (key : α → κ) (new : α → σ) (add : σ → α → Except ε σ)
  {f : σ → α → Except ε σ} {items : List α} {s : σ} {m : GoMap κ σ}

def feed (m : GoMap κ σ) (a : α) : Except ε (GoMap κ σ) := do
  let s ← add ((m.get? (key a)).getD (new a)) a
  .ok (m.set (key a) s)

inductive Fed (items : List α) (k : κ) : Option σ → Prop
  | unused (hnone : items.filter (fun a => key a = k) = []) : Fed items k none
  | used (first : α) (rest : List α) (s : σ) (hitems : items.filter (fun a => key a = k) = first :: rest)
      (hfold : (first :: rest).foldlM add (new first) = .ok s) : Fed items k (some s)

variable {key new add}

theorem foldlM_concat_ok (h : (items ++ [a]).foldlM f s = .ok u) : ∃ t, items.foldlM f s = .ok t ∧ f t a = .ok u := by
  rw [foldlM_append] at h
  obtain ⟨t, ht, h⟩ := except_bind_ok h
  refine ⟨t, ht, ?_⟩
  obtain ⟨v, hv, h⟩ := except_bind_ok h
  cases h
  exact hv

theorem foldlM_concat (ht : items.foldlM f s = .ok t) (hu : f t a = .ok u) : (items ++ [a]).foldlM f s = .ok u := by
  rw [foldlM_append, ht]
  change List.foldlM f t [a] = _
  rw [foldlM_cons, hu]
  rfl

theorem foldlM_flatMap {β : Type} {f : σ → β → Except ε σ} (g : α → List β) (items : List α) (s : σ) :
    (items.flatMap g).foldlM f s = items.foldlM (fun s a => (g a).foldlM f s) s := by
  induction items generalizing s with
  | nil => rfl
  | cons a items ih =>
    rw [flatMap_cons, foldlM_append, foldlM_cons]
    cases (g a).foldlM f s with
    | error e => rfl
    | ok t => exact ih t

theorem foldlM_wrap {ρ : Type} {f : ρ → α → Except ε ρ} {g : σ → α → Except ε σ} (wrap : σ → ρ)
    (h : ∀ s a, f (wrap s) a = (g s a).map wrap) (items : List α) (s : σ) :
    items.foldlM f (wrap s) = (items.foldlM g s).map wrap := by
  induction items generalizing s with
  | nil => rfl
  | cons a items ih =>
    rw [foldlM_cons, foldlM_cons, h]
    cases g s a with
    | error e => rfl
    | ok t => exact ih t

theorem except_map_ok {f : α → σ} {x : Except ε α} (h : x.map f = .ok b) : ∃ a, x = .ok a ∧ b = f a := by
  cases x with
  | error e => simp [Except.map] at h
  | ok a => exact ⟨a, rfl, (Except.ok.inj h).symm⟩

theorem fed_of_foldlM (h : items.foldlM (feed key new add) ∅ = .ok m) (k : κ) :
    Fed key new add items k (m.get? k) := by
  induction items using List.reverseRecOn generalizing m with
  | nil =>
    obtain rfl : ∅ = m := by simpa [pure, Except.pure] using h
    exact .unused rfl
  | append_singleton items a ih =>
    obtain ⟨m', hm', hfeed⟩ := foldlM_concat_ok h
    obtain ⟨s, hs, hset⟩ := except_bind_ok hfeed
    cases hset
    have hold := ih hm'
    rw [GoMap.get?_set]
    by_cases hk : k = key a
    · subst hk
      rw [if_pos rfl]
      have hlast : [a].filter (fun b => key b = key a) = [a] := by simp
      generalize hget : m'.get? (key a) = got at hs hold
      cases hold with
      | unused hnone =>
        refine .used a [] s ?_ ?_
        · rw [filter_append, hnone, hlast, nil_append]
        · rw [foldlM_cons]
          rw [Option.getD_none] at hs
          rw [hs]
          rfl
      | used first rest t hitems hfold =>
        refine .used first (rest ++ [a]) s ?_ ?_
        · rw [filter_append, hitems, hlast, cons_append]
        · exact foldlM_concat hfold hs
    · rw [if_neg hk]
      have hlast : [a].filter (fun b => key b = k) = [] := by simp [Ne.symm hk]
      have hsame : (items ++ [a]).filter (fun b => key b = k) = items.filter fun b => key b = k := by
        rw [filter_append, hlast, append_nil]
      generalize m'.get? k = got at hold
      cases hold with
      | unused hnone => exact .unused (hsame.trans hnone)
      | used first rest t hitems hfold => exact .used first rest t (hsame.trans hitems) hfold

variable (key new add) in
/-- The loop succeeds when the items of each key can be taken in. -/
theorem exists_foldlM_feed (items : List α)
    (h : ∀ k first rest, items.filter (fun a => key a = k) = first :: rest →
      ∃ s, (first :: rest).foldlM add (new first) = .ok s) :
    ∃ m, items.foldlM (feed key new add) ∅ = .ok m := by
  induction items using List.reverseRecOn with
  | nil => exact ⟨∅, rfl⟩
  | append_singleton items a ih =>
    obtain ⟨m, hm⟩ := ih fun k first rest hitems => by
      -- what succeeds on all items of a key has succeeded on the first ones
      obtain ⟨s, hs⟩ := h k first (rest ++ [a].filter fun b => key b = k) (by
        rw [filter_append, hitems, cons_append])
      rw [← cons_append, foldlM_append] at hs
      obtain ⟨t, ht, -⟩ := except_bind_ok hs
      exact ⟨t, ht⟩
    have hfed := fed_of_foldlM hm (key a)
    have hlast : [a].filter (fun b => key b = key a) = [a] := by simp
    obtain ⟨s, hs⟩ : ∃ s, add ((m.get? (key a)).getD (new a)) a = .ok s := by
      generalize m.get? (key a) = got at hfed
      cases hfed with
      | unused hnone =>
        obtain ⟨s, hs⟩ := h (key a) a [] (by rw [filter_append, hnone, hlast, nil_append])
        obtain ⟨t, ht, -⟩ := except_bind_ok hs
        exact ⟨t, ht⟩
      | used first rest t hitems hfold =>
        obtain ⟨s, hs⟩ := h (key a) first (rest ++ [a]) (by
          rw [filter_append, hitems, hlast, cons_append])
        rw [← cons_append] at hs
        obtain ⟨u, hu, hadd⟩ := foldlM_concat_ok hs
        obtain rfl := Except.ok.inj (hfold.symm.trans hu)
        exact ⟨s, hadd⟩
    refine ⟨m.set (key a) s, foldlM_concat hm ?_⟩
    rw [feed, hs]
    rfl

theorem Fed.isSome_iff (h : Fed key new add items k got) : got.isSome = true ↔ ∃ a ∈ items, key a = k := by
  cases h with
  | unused hnone =>
    refine ⟨fun h => absurd h (by simp), fun ⟨a, ha, hk⟩ => ?_⟩
    exact absurd (decide_eq_true hk) (filter_eq_nil_iff.mp hnone a ha)
  | used first rest s hitems hfold =>
    refine ⟨fun _ => ⟨first, ?_⟩, fun _ => rfl⟩
    have hmem : first ∈ items.filter fun a => key a = k := by
      rw [hitems]
      exact mem_cons_self
    exact ⟨mem_of_mem_filter hmem, of_decide_eq_true (mem_filter.mp hmem).2⟩

section Entries
variable [LE κ] [DecidableLE κ]

def sortedEntries (m : GoMap κ σ) : List (κ × σ) :=
  (m.entries.map fun e => (e.1, e.2)).insertionSort fun a b => a.1 ≤ b.1

theorem mem_sortedEntries : (k, s) ∈ sortedEntries m ↔ m.get? k = some s := by
  rw [sortedEntries, mem_insertionSort, mem_map]
  constructor
  · rintro ⟨⟨k', s'⟩, hmem, heq⟩
    cases heq
    exact AList.mem_lookup_iff.mpr hmem
  · intro h
    exact ⟨⟨k, s⟩, AList.mem_lookup_iff.mp h, rfl⟩

omit [DecidableEq κ] in
theorem nodup_sortedEntries (m : GoMap κ σ) : ((sortedEntries m).map Prod.fst).Nodup := by
  have hperm := (perm_insertionSort (fun a b => a.1 ≤ b.1) (m.entries.map fun e => (e.1, e.2))).map
    Prod.fst
  refine hperm.nodup_iff.mpr ?_
  rw [map_map]
  exact m.nodupKeys

variable [Std.Total (α := κ) (· ≤ ·)] [IsTrans κ (· ≤ ·)]

omit [DecidableEq κ] in
theorem pairwise_sortedEntries (m : GoMap κ σ) : (sortedEntries m).Pairwise (·.1 ≤ ·.1) := pairwise_insertionSort _ _

end Entries

end Mts.Lib
