import Mathlib

/-! Maximal runs of neighbours with one key. In a list that is sorted by the key, different runs have
different keys. -/

namespace Mts.Lib
open List
variable {α κ : Type} [DecidableEq κ] (key : α → κ) {l : List α}

def runsBy : List α → List (List α)
  | [] => []
  | a :: l =>
    match runsBy l with
    | (b :: run) :: runs => if key a = key b then (a :: b :: run) :: runs else [a] :: (b :: run) :: runs
    | runs => [a] :: runs

omit [DecidableEq κ] in
theorem takeWhile_eq_filter (h : l.Pairwise fun a b => P b = true → P a = true) :
    l.takeWhile P = l.filter P ∧ l.dropWhile P = l.filter fun a => !P a := by
  induction l with
  | nil => exact ⟨rfl, rfl⟩
  | cons a l ih =>
    obtain ⟨ha, hl⟩ := pairwise_cons.mp h
    cases hP : P a with
    | true => simp [hP, ih hl]
    | false =>
      have hnone : ∀ b ∈ l, P b = false := by
        intro b hb
        cases hb' : P b with
        | false => rfl
        | true => exact absurd (ha b hb hb') (by simp [hP])
      have hrest : l.filter P = [] := filter_eq_nil_iff.mpr fun b hb => by simp [hnone b hb]
      have hall : l.filter (fun a => !P a) = l := filter_eq_self.mpr fun b hb => by simp [hnone b hb]
      simp [hP, hrest, hall]

omit [DecidableEq κ] in
theorem while_congr (h : ∀ a ∈ l, p a = q a) : l.takeWhile p = l.takeWhile q ∧ l.dropWhile p = l.dropWhile q := by
  induction l with
  | nil => exact ⟨rfl, rfl⟩
  | cons a l ih =>
    obtain ⟨ha, hl⟩ := forall_mem_cons.mp h
    simp [takeWhile_cons, dropWhile_cons, ha, ih hl]

theorem runsBy_cons (a : α) (l : List α) : runsBy key (a :: l) =
    (a :: l.takeWhile fun b => key b = key a) :: runsBy key (l.dropWhile fun b => key b = key a) := by
  induction l generalizing a with
  | nil => rfl
  | cons b l ih =>
    rw [runsBy, ih b]
    dsimp only
    split
    · next h => simp [h]
    · next h => simp [Ne.symm h, ih b]

/-- The runs with their keys. -/
def keyedRuns : List α → List (κ × List α)
  | [] => []
  | a :: l => (key a, a :: l.takeWhile fun b => key b = key a) :: keyedRuns (l.dropWhile fun b => key b = key a)
termination_by l => l.length
decreasing_by exact Nat.lt_succ_of_le (dropWhile_sublist _).length_le

theorem runsBy_eq (l : List α) : runsBy key l = (keyedRuns key l).map Prod.snd := by
  fun_induction keyedRuns key l with
  | case1 => rfl
  | case2 a l ih => rw [runsBy_cons, ih, map_cons]

theorem flatMap_keyedRuns (l : List α) : (keyedRuns key l).flatMap Prod.snd = l := by
  fun_induction keyedRuns key l with
  | case1 => rfl
  | case2 a l ih => rw [flatMap_cons, ih, cons_append, takeWhile_append_dropWhile]

theorem flatten_runsBy (l : List α) : (runsBy key l).flatten = l := by
  rw [runsBy_eq, ← flatMap_def, flatMap_keyedRuns]

theorem mem_keyedRuns (h : g ∈ keyedRuns key l) : g.2 ≠ [] ∧ ∀ a ∈ g.2, key a = g.1 := by
  fun_induction keyedRuns key l with
  | case1 => cases h
  | case2 a l ih =>
    rcases mem_cons.mp h with rfl | h
    · refine ⟨cons_ne_nil _ _, fun b hb => ?_⟩
      rcases mem_cons.mp hb with rfl | hb
      · rfl
      · simpa using mem_takeWhile_imp hb
    · exact ih h

theorem runsBy_key (h : run ∈ runsBy key l) : ∃ a rest, run = a :: rest ∧ ∀ b ∈ run, key b = key a := by
  rw [runsBy_eq] at h
  obtain ⟨g, hg, rfl⟩ := mem_map.mp h
  obtain ⟨hne, hkey⟩ := mem_keyedRuns key hg
  obtain ⟨a, rest, hcons⟩ := exists_cons_of_ne_nil hne
  refine ⟨a, rest, hcons, fun b hb => ?_⟩
  rw [hkey b hb, hkey a (hcons ▸ mem_cons_self)]

section Sorted
variable {key} {le : κ → κ → Prop} (hanti : ∀ x y, le x y → le y x → x = y) {l run : List α}
  (h : l.Pairwise fun a b => le (key a) (key b))
include hanti h

/-- Runs have different keys, and the run of a key holds all elements with it. -/
theorem keyedRuns_spec : ((keyedRuns key l).Pairwise fun g g' => le g.1 g'.1 ∧ g.1 ≠ g'.1) ∧
    ∀ g ∈ keyedRuns key l, g.2 = l.filter fun b => key b = g.1 := by
  fun_induction keyedRuns key l with
  | case1 => simp
  | case2 c l ih =>
    obtain ⟨hc, hl⟩ := pairwise_cons.mp h
    have hsplit : (l.takeWhile fun b => key b = key c) = (l.filter fun b => key b = key c) ∧
        (l.dropWhile fun b => key b = key c) = l.filter fun b => !decide (key b = key c) := by
      refine takeWhile_eq_filter (hl.imp_of_mem fun {b d} hb _ hbd hd => ?_)
      rw [decide_eq_true_eq] at hd ⊢
      exact hanti _ _ (hd ▸ hbd) (hc b hb)
    obtain ⟨hpairwise, hfilter⟩ := ih (hl.sublist (dropWhile_sublist _))
    -- a later run is one of elements with another key
    have hrest : ∀ g ∈ keyedRuns key (l.dropWhile fun b => key b = key c), le (key c) g.1 ∧ key c ≠ g.1 := by
      intro g hg
      obtain ⟨hne, hkey⟩ := mem_keyedRuns key hg
      obtain ⟨a, ha⟩ := exists_mem_of_ne_nil _ hne
      have hmem := mem_flatMap.mpr ⟨g, hg, ha⟩
      rw [flatMap_keyedRuns, hsplit.2, mem_filter] at hmem
      rw [← hkey a ha]
      exact ⟨hc a hmem.1, fun heq => by simp [heq] at hmem⟩
    refine ⟨pairwise_cons.mpr ⟨hrest, hpairwise⟩, fun g hg => ?_⟩
    rcases mem_cons.mp hg with rfl | hg
    · rw [filter_cons_of_pos (by simp), hsplit.1]
    · rw [hfilter g hg, filter_cons_of_neg (by simpa using (hrest g hg).2), hsplit.2, filter_filter]
      refine filter_congr fun b _ => ?_
      by_cases hb : key b = g.1 <;> simp [hb, Ne.symm (hrest g hg).2]

theorem mem_of_mem_runsBy (hrun : run ∈ runsBy key l) (ha : a ∈ run) (hb : b ∈ l) (hkey : key a = key b) :
    b ∈ run := by
  rw [runsBy_eq] at hrun
  obtain ⟨g, hg, rfl⟩ := mem_map.mp hrun
  rw [(keyedRuns_spec hanti h).2 g hg]
  exact mem_filter.mpr ⟨hb, by rw [← hkey, (mem_keyedRuns key hg).2 a ha]; simp⟩

theorem runsBy_distinct : (runsBy key l).Pairwise fun r r' => ∀ a ∈ r, ∀ b ∈ r', key a ≠ key b := by
  rw [runsBy_eq]
  refine pairwise_map.mpr ((keyedRuns_spec hanti h).1.imp_of_mem fun {g g'} hg hg' hne a ha b hb => ?_)
  rw [(mem_keyedRuns key hg).2 a ha, (mem_keyedRuns key hg').2 b hb]
  exact hne.2

end Sorted

theorem runsBy_of_const (h : ∀ a ∈ l, ∀ b ∈ l, key a = key b) (hne : l ≠ []) : runsBy key l = [l] := by
  induction l with
  | nil => exact absurd rfl hne
  | cons a l ih =>
    cases l with
    | nil => rfl
    | cons b l =>
      have hrest := ih (fun c hc d hd => h c (mem_cons_of_mem _ hc) d (mem_cons_of_mem _ hd)) (by simp)
      rw [runsBy, hrest]
      exact if_pos (h a mem_cons_self b (mem_cons_of_mem _ mem_cons_self))

omit [DecidableEq κ] in
theorem filter_eq_singleton (hl : l.Nodup) (ha : a ∈ l)
    (hp : p a = true) (hone : ∀ b ∈ l, p b = true → b = a) : l.filter p = [a] := by
  refine perm_singleton.mp ((perm_ext_iff_of_nodup (hl.filter p) (nodup_singleton a)).mpr ?_)
  intro b
  rw [mem_filter, mem_singleton]
  constructor
  · rintro ⟨hb, hpb⟩
    exact hone b hb hpb
  · rintro rfl
    exact ⟨ha, hp⟩

end Mts.Lib
