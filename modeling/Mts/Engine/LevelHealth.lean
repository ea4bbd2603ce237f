import Mts.Engine.Planner

/-! The health of a compaction level, `engine/read_amplification.go`. The parts of a level are rectangles of series
and times; they are sorted by their lower corner, and each is compared with the one before it. -/

namespace Mts.Engine
open Lib Sstable List

variable {p q : PartMeta}

structure LevelHealth (F : Type) where
  level : Int
  partCount : Nat
  bytes : Int64
  overlapCount : Nat
  score : F

/-- `sorted` is the slice as `sort.Slice` leaves it. -/
def computeSingleLevelHealth (F : Type) [ScoreArith F] (level : Int) (sorted : List PartMeta) : LevelHealth F :=
  let overlapCount := overlapsWithNext sorted
  { level := level
    partCount := sorted.length
    bytes := sorted.foldl (fun bytes p => bytes + Int64.ofNat p.blockCount) 0
    overlapCount := overlapCount
    score :=
      if sorted.isEmpty then ScoreArith.ofInt 0
      else ScoreArith.div (ScoreArith.ofInt (sorted.length + overlapCount)) (ScoreArith.ofInt sorted.length) }

def lowerCorner (p : PartMeta) : ℕ ×ₗ ℤ := toLex (p.minSeriesID.toNat, p.minTime.toInt)

/-- An order that `sort.Slice` may leave; it is not stable. -/
structure SortedByCorner (parts sorted : List PartMeta) : Prop where
  perm : sorted.Perm parts
  sorted : sorted.Pairwise fun p q => lowerCorner p ≤ lowerCorner q

@[mk_iff] structure Ranged (p : PartMeta) : Prop where
  data : partHasHealthRange p = true
  series : p.minSeriesID ≤ p.maxSeriesID
  times : p.minTime ≤ p.maxTime

def SharesRange (p q : PartMeta) : Prop :=
  (∃ id, (p.minSeriesID ≤ id ∧ id ≤ p.maxSeriesID) ∧ q.minSeriesID ≤ id ∧ id ≤ q.maxSeriesID) ∧
    ∃ t, (p.minTime ≤ t ∧ t ≤ p.maxTime) ∧ q.minTime ≤ t ∧ t ≤ q.maxTime

def HasOverlap (parts : List PartMeta) : Prop := ∃ p q rest, parts.Perm (p :: q :: rest) ∧ SharesRange p q

/-- Two overlapping parts have no corner of another part between theirs. -/
def HasNeighbourOverlap (parts : List PartMeta) : Prop :=
  ∃ p q rest, parts.Perm (p :: q :: rest) ∧ SharesRange p q ∧ lowerCorner p ≤ lowerCorner q ∧
    ∀ r ∈ rest, ¬ (lowerCorner p < lowerCorner r ∧ lowerCorner r < lowerCorner q)

theorem lowerCorner_le_iff : lowerCorner p ≤ lowerCorner q ↔
    p.minSeriesID < q.minSeriesID ∨ p.minSeriesID = q.minSeriesID ∧ p.minTime ≤ q.minTime := by
  rw [lowerCorner, lowerCorner, Prod.Lex.toLex_le_toLex, UInt64.lt_iff_toNat_lt, ← UInt64.toNat_inj,
    Int64.le_iff_toInt_le]

theorem sortedByCorner_insertionSort (parts : List PartMeta) : SortedByCorner parts
    (parts.insertionSort fun a b => a.minSeriesID < b.minSeriesID ∨
      a.minSeriesID = b.minSeriesID ∧ a.minTime ≤ b.minTime) := by
  let le : PartMeta → PartMeta → Prop := fun a b => a.minSeriesID < b.minSeriesID ∨
    a.minSeriesID = b.minSeriesID ∧ a.minTime ≤ b.minTime
  have : Std.Total le := ⟨fun a b => by
    simp only [le, ← lowerCorner_le_iff]
    exact le_total _ _⟩
  have : IsTrans PartMeta le := ⟨fun a b c => by
    simp only [le, ← lowerCorner_le_iff]
    exact le_trans⟩
  refine ⟨perm_insertionSort _ _, ?_⟩
  exact (pairwise_insertionSort le parts).imp fun h => lowerCorner_le_iff.mpr h

theorem exists_common_iff {α : Type} [LE α] [Std.IsLinearOrder α] {a b c d : α} (hab : a ≤ b) (hcd : c ≤ d) :
    (∃ x, (a ≤ x ∧ x ≤ b) ∧ c ≤ x ∧ x ≤ d) ↔ c ≤ b ∧ a ≤ d := by
  constructor
  · rintro ⟨x, ⟨hax, hxb⟩, hcx, hxd⟩
    exact ⟨Std.le_trans hcx hxb, Std.le_trans hax hxd⟩
  · rintro ⟨hcb, had⟩
    -- the larger lower end is common to both
    rcases Std.le_total (b := c) with hac | hca
    · exact ⟨c, ⟨hac, hcb⟩, Std.le_refl c, hcd⟩
    · exact ⟨a, ⟨Std.le_refl a, hab⟩, hca, had⟩

theorem partsOverlap_iff (hp : Ranged p) (hq : Ranged q) : partsOverlap p q = true ↔ SharesRange p q := by
  rw [SharesRange, exists_common_iff hp.series hq.series, exists_common_iff hp.times hq.times]
  simp [partsOverlap, hp.data, hq.data]

theorem sharesRange_of_corner_eq (hp : Ranged p) (hq : Ranged q) (h : lowerCorner p = lowerCorner q) :
    SharesRange p q := by
  obtain ⟨hseries, htimes⟩ := Prod.mk.inj (toLex.injective h)
  have hseries := UInt64.toNat_inj.mp hseries
  have htimes := Int64.toInt_inj.mp htimes
  rw [SharesRange, exists_common_iff hp.series hq.series, exists_common_iff hp.times hq.times]
  refine ⟨⟨?_, ?_⟩, ?_, ?_⟩
  · exact hseries ▸ hp.series
  · exact hseries ▸ hq.series
  · exact htimes ▸ hp.times
  · exact htimes ▸ hq.times

theorem overlapsWithNext_eq_zero_iff :
    overlapsWithNext parts = 0 ↔ parts.IsChain fun p q => partsOverlap p q = false := by
  fun_induction overlapsWithNext parts with
  | case1 p q rest ih =>
    rw [Nat.add_eq_zero_iff, ih, isChain_cons_cons]
    cases partsOverlap p q <;> simp
  | case2 parts h =>
    refine iff_of_true rfl ?_
    match parts, h with
    | [], _ => exact .nil
    | [p], _ => exact .singleton p
    | p :: q :: rest, h => exact absurd rfl (h p q rest)

section
variable {parts sorted : List PartMeta}

section
variable (h : SortedByCorner parts sorted) (hranged : ∀ p ∈ parts, Ranged p)
include h hranged

theorem SortedByCorner.strict (hnone : overlapsWithNext sorted = 0) :
    sorted.Pairwise fun p q => lowerCorner p < lowerCorner q := by
  rw [← isChain_iff_pairwise, isChain_iff_forall_rel_of_append_cons_cons]
  intro p q before after hsplit
  have hapart : partsOverlap p q = false :=
    isChain_iff_forall_rel_of_append_cons_cons.mp (overlapsWithNext_eq_zero_iff.mp hnone) hsplit
  have hle : lowerCorner p ≤ lowerCorner q := isChain_iff_forall_rel_of_append_cons_cons.mp h.sorted.isChain hsplit
  refine lt_of_le_of_ne hle fun heq => ?_
  have hp := hranged p (h.perm.mem_iff.mp (by simp [hsplit]))
  have hq := hranged q (h.perm.mem_iff.mp (by simp [hsplit]))
  rw [(partsOverlap_iff hp hq).mpr (sharesRange_of_corner_eq hp hq heq)] at hapart
  cases hapart

theorem SortedByCorner.hasNeighbourOverlap (hsome : 0 < overlapsWithNext sorted) : HasNeighbourOverlap parts := by
  have hchain := mt overlapsWithNext_eq_zero_iff.mpr hsome.ne'
  rw [isChain_iff_forall_rel_of_append_cons_cons] at hchain
  push Not at hchain
  obtain ⟨p, q, before, after, rfl, hover⟩ := hchain
  have hover : partsOverlap p q = true := by simpa using hover
  have hp := hranged p (h.perm.mem_iff.mp (by simp))
  have hq := hranged q (h.perm.mem_iff.mp (by simp))
  have hperm : parts.Perm (p :: q :: (before ++ after)) := h.perm.symm.trans (perm_middle.trans (perm_middle.cons p))
  have hsorted := h.sorted
  rw [pairwise_append, pairwise_cons, pairwise_cons] at hsorted
  obtain ⟨-, ⟨hpq, hafter, -⟩, hbefore⟩ := hsorted
  refine ⟨p, q, before ++ after, hperm, (partsOverlap_iff hp hq).mp hover, hpq q (by simp), ?_⟩
  rintro r hr ⟨hpr, hrq⟩
  rcases mem_append.mp hr with hr | hr
  · exact not_le_of_gt hpr (hbefore r hr p (by simp))
  · exact not_le_of_gt hrq (hafter r hr)

theorem SortedByCorner.overlaps_of_neighbours (hneighbours : HasNeighbourOverlap parts) :
    0 < overlapsWithNext sorted := by
  obtain ⟨p, q, rest, hperm, hshares, hle, hbetween⟩ := hneighbours
  by_contra hzero
  have hnone : overlapsWithNext sorted = 0 := by omega
  have hstrict := h.strict hranged hnone
  have hsorted := h.perm.trans hperm
  have hmem : ∀ r, r ∈ sorted ↔ r = p ∨ r = q ∨ r ∈ rest := fun r => by simp [hsorted.mem_iff]
  -- the corners of `p` and `q` differ, so `q` comes after `p`
  have hne : lowerCorner p ≠ lowerCorner q := by
    have hall := (hstrict.imp fun h => h.ne).perm hsorted fun h => h.symm
    exact (pairwise_cons.mp hall).1 q (by simp)
  have hlt : lowerCorner p < lowerCorner q := lt_of_le_of_ne hle hne
  obtain ⟨before, after, rfl⟩ := append_of_mem ((hmem p).mpr (.inl rfl))
  obtain ⟨-, hafter, hbefore⟩ := pairwise_append.mp hstrict
  obtain ⟨hpafter, hafter⟩ := pairwise_cons.mp hafter
  have hq : q ∈ after := by
    rcases mem_append.mp ((hmem q).mpr (.inr (.inl rfl))) with hq | hq
    · exact absurd (hbefore q hq p (by simp)) (not_lt_of_gt hlt)
    · exact (mem_cons.mp hq).resolve_left fun heq => hne (by rw [heq])
  obtain ⟨r, after, rfl⟩ := exists_cons_of_ne_nil (ne_nil_of_mem hq)
  have hapart : partsOverlap p r = false :=
    isChain_iff_forall_rel_of_append_cons_cons.mp (overlapsWithNext_eq_zero_iff.mp hnone) rfl
  have hpr := hpafter r (by simp)
  rcases mem_cons.mp hq with rfl | hq
  · have hp := hranged p (hperm.mem_iff.mpr (by simp))
    have hq := hranged q (hperm.mem_iff.mpr (by simp))
    rw [(partsOverlap_iff hp hq).mpr hshares] at hapart
    cases hapart
  · -- the next part lies between them
    have hrq := (pairwise_cons.mp hafter).1 q hq
    rcases (hmem r).mp (by simp) with rfl | rfl | hr
    · exact lt_irrefl _ hpr
    · exact lt_irrefl _ hrq
    · exact hbetween r hr ⟨hpr, hrq⟩

end

/-- The trigger of a compaction and the level's health see an overlap in the same levels. -/
theorem levelOverlapCount_pos_iff (F : Type) [ScoreArith F] (level : Int) (hranged : ∀ p ∈ parts, Ranged p)
    (h : SortedByCorner parts sorted) :
    0 < levelOverlapCount parts ↔ 0 < (computeSingleLevelHealth F level sorted).overlapCount := by
  have hsort := sortedByCorner_insertionSort parts
  exact ⟨fun hpos => h.overlaps_of_neighbours hranged (hsort.hasNeighbourOverlap hranged hpos),
    fun hpos => hsort.overlaps_of_neighbours hranged (h.hasNeighbourOverlap hranged hpos)⟩

/-- The overlap count tells whether two parts overlap exactly if, where some do, two of them are neighbours in the
order of their corners. -/
theorem overlapCount_complete_iff (F : Type) [ScoreArith F] (level : Int) (hranged : ∀ p ∈ parts, Ranged p)
    (h : SortedByCorner parts sorted) :
    (0 < (computeSingleLevelHealth F level sorted).overlapCount ↔ HasOverlap parts) ↔
      (HasOverlap parts → HasNeighbourOverlap parts) := by
  have hcount : 0 < (computeSingleLevelHealth F level sorted).overlapCount ↔ HasNeighbourOverlap parts :=
    ⟨h.hasNeighbourOverlap hranged, h.overlaps_of_neighbours hranged⟩
  rw [hcount]
  refine ⟨fun hiff => hiff.mpr, fun himp => ⟨fun hneighbours => ?_, himp⟩⟩
  obtain ⟨p, q, rest, hperm, hshares, -⟩ := hneighbours
  exact ⟨p, q, rest, hperm, hshares⟩

end

def rectanglePart (minSeriesID maxSeriesID : UInt64) (minTime maxTime : Int64) : PartMeta :=
  ⟨[], 1, minTime, maxTime, minSeriesID, maxSeriesID, 1, 1, 1, 1, []⟩

instance (p : PartMeta) : Decidable (Ranged p) := decidable_of_iff _ (ranged_iff p).symm

def hiddenOverlap : List PartMeta := [rectanglePart 1 3 0 10, rectanglePart 2 2 20 30, rectanglePart 3 3 5 6]

theorem hiddenOverlap_not_counted :
    (∀ p ∈ hiddenOverlap, Ranged p) ∧ SortedByCorner hiddenOverlap hiddenOverlap ∧ HasOverlap hiddenOverlap ∧
      (computeSingleLevelHealth ℚ 1 hiddenOverlap).overlapCount = 0 := by
  refine ⟨by decide, ⟨List.Perm.refl _, by decide⟩, ?_, by decide⟩
  refine ⟨rectanglePart 1 3 0 10, rectanglePart 3 3 5 6, [rectanglePart 2 2 20 30], by decide, ?_⟩
  exact ⟨⟨3, by decide⟩, ⟨5, by decide⟩⟩

theorem seenOverlap_complete_iff :
    (0 < (computeSingleLevelHealth ℚ 1 [rectanglePart 1 3 0 10, rectanglePart 3 3 5 6]).overlapCount ↔
      HasOverlap [rectanglePart 1 3 0 10, rectanglePart 3 3 5 6]) ↔
      (HasOverlap [rectanglePart 1 3 0 10, rectanglePart 3 3 5 6] →
        HasNeighbourOverlap [rectanglePart 1 3 0 10, rectanglePart 3 3 5 6]) :=
  overlapCount_complete_iff ℚ 1 (by decide) ⟨List.Perm.refl _, by decide⟩

theorem hiddenOverlap_untriggered :
    0 < levelOverlapCount hiddenOverlap ↔ 0 < (computeSingleLevelHealth ℚ 1 hiddenOverlap).overlapCount :=
  levelOverlapCount_pos_iff ℚ 1 (by decide) ⟨.refl _, by decide⟩

end Mts.Engine
