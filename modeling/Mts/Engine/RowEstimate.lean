import Mts.Lib.Int64
import Mts.Sstable.Part

/-! The row estimate of a query, `engine/shard.go`: the rows of a part in proportion to the share of its time range
that the query window covers, in `int64` arithmetic. -/

namespace Mts.Engine
open Lib Sstable

variable {span overlap : Nat}

def partTimeOverlaps (minTime maxTime start stop : Int64) : Bool := maxTime ≥ start && minTime ≤ stop

def proportionalPartRows (m : PartMeta) (start stop : Int64) : Int64 :=
  let rows := Int64.ofNat m.rowsCount
  if rows ≤ 0 then 0
  else
    let partSpan := m.maxTime - m.minTime
    if partSpan ≤ 0 then rows
    else
      let overlapStart := if start > m.minTime then start else m.minTime
      let overlapEnd := if stop < m.maxTime then stop else m.maxTime
      if overlapEnd < overlapStart then 0
      else
        let overlap := overlapEnd - overlapStart
        if overlap ≥ partSpan then rows
        else
          let scaled := rows * overlap / partSpan
          if scaled ≤ 0 then 1 else scaled

/-- `estimateQueryPartStats` with the number of samples of the MemTable. -/
def estimateQueryPartStats (parts : List PartMeta) (memSamples : Nat) (start stop : Int64) : Nat × Nat × Int64 :=
  let matched := parts.filter fun m => partTimeOverlaps m.minTime m.maxTime start stop
  (parts.length, matched.length,
    (matched.map fun m => proportionalPartRows m start stop).sum + Int64.ofNat memSamples)

structure EstimatesRows (m : PartMeta) : Prop where
  nonneg : ∀ start stop, 0 ≤ (proportionalPartRows m start stop).toInt
  le_rows : ∀ start stop, (proportionalPartRows m start stop).toInt ≤ m.rowsCount
  covered : ∀ start stop, start ≤ m.minTime → m.maxTime ≤ stop →
    (proportionalPartRows m start stop).toInt = m.rowsCount
  monotone : ∀ start stop start' stop', start' ≤ start → stop ≤ stop' →
    proportionalPartRows m start stop ≤ proportionalPartRows m start' stop'

def exactPartRows (rows span overlap : Nat) : Nat :=
  if span ≤ overlap then rows else max 1 (rows * overlap / span)

section
variable {rows span overlap overlap' : Nat}

theorem exactPartRows_le (hrows : 0 < rows) : exactPartRows rows span overlap ≤ rows := by
  rw [exactPartRows]
  split
  · exact le_rfl
  · next hlt =>
    refine max_le hrows ?_
    calc rows * overlap / span ≤ rows * span / span := Nat.div_le_div_right (Nat.mul_le_mul_left _ (by omega))
      _ = rows := Nat.mul_div_cancel _ (by omega)

theorem exactPartRows_mono (hrows : 0 < rows) (h : overlap ≤ overlap') :
    exactPartRows rows span overlap ≤ exactPartRows rows span overlap' := by
  by_cases hspan : span ≤ overlap'
  · rw [exactPartRows.eq_def rows span overlap', if_pos hspan]
    exact exactPartRows_le hrows
  · rw [exactPartRows, exactPartRows, if_neg hspan, if_neg (by omega)]
    exact max_le_max le_rfl (Nat.div_le_div_right (Nat.mul_le_mul_left _ h))

end

/-- The length of the part's time range and of what a window shares with it, in integers. -/
def partSpan (m : PartMeta) : Int := m.maxTime.toInt - m.minTime.toInt

def windowOverlap (m : PartMeta) (start stop : Int64) : Int :=
  min stop.toInt m.maxTime.toInt - max start.toInt m.minTime.toInt

/-- The proportion as the code computes it for a window that does not cover the part. -/
def scaledRows (rows span overlap : Nat) : Int := max 1 ((((rows * overlap : Nat) : Int).bmod (2 ^ 64)).tdiv span)

theorem scaledRows_of_fits (h : rows * overlap < 2 ^ 63) :
    scaledRows rows span overlap = (max 1 (rows * overlap / span) : Nat) := by
  unfold scaledRows
  generalize rows * overlap = n at h ⊢
  have hsmall : (n : Int).bmod (2 ^ 64) = n := Int.bmod_eq_of_le (by omega) (by omega)
  rw [hsmall, ← Int.ofNat_tdiv]
  omega

theorem scaledRows_of_wraps (hlow : 2 ^ 63 ≤ rows * overlap) (hhigh : rows * overlap < 2 ^ 64) :
    scaledRows rows span overlap = 1 := by
  unfold scaledRows
  generalize rows * overlap = n at hlow hhigh ⊢
  have hwrap : (n : Int).bmod (2 ^ 64) = -(2 ^ 64 - (n : Int)) := by
    rw [Int.bmod_def, Int.emod_eq_of_lt (by omega) (by omega), if_neg (by omega)]
    omega
  have hnonneg : 0 ≤ (2 ^ 64 - (n : Int)).tdiv span := Int.tdiv_nonneg (by omega) (Int.natCast_nonneg span)
  rw [hwrap, Int.neg_tdiv]
  exact max_eq_left (by omega)

section
variable {m : PartMeta} {start stop : Int64}

theorem toInt_rowsCount (hrows : m.rowsCount < 2 ^ 63) : (Int64.ofNat m.rowsCount).toInt = m.rowsCount :=
  Int64.toInt_ofNat_of_lt hrows

theorem proportionalPartRows_zero (hrows : m.rowsCount = 0) : proportionalPartRows m start stop = 0 := by
  simp [proportionalPartRows, hrows]

section
variable (hpos : 0 < m.rowsCount) (hrows : m.rowsCount < 2 ^ 63)
include hpos hrows

theorem rows_pos : ¬ Int64.ofNat m.rowsCount ≤ 0 := by
  rw [Int64.le_iff_toInt_le, toInt_rowsCount hrows]
  exact not_le_of_gt (Int.natCast_pos.mpr hpos)

theorem proportionalPartRows_of_no_span (hspan : partSpan m = 0 ∨ 2 ^ 63 ≤ partSpan m) :
    (proportionalPartRows m start stop).toInt = m.rowsCount := by
  have hmin := Int64.le_toInt m.minTime
  have hmax := Int64.toInt_lt m.maxTime
  have hle : m.maxTime - m.minTime ≤ 0 := by
    rw [Int64.le_iff_toInt_le, Int64.toInt_sub, Int.bmod_def]
    rcases hspan with hspan | hspan
    · rw [partSpan] at hspan
      rw [hspan]
      decide
    · rw [partSpan] at hspan
      change _ ≤ (0 : Int)
      omega
  rw [proportionalPartRows]
  simp [if_neg (rows_pos hpos hrows), if_pos hle, toInt_rowsCount hrows]

theorem proportionalPartRows_of_span (hspan : 0 < partSpan m) (hfits : partSpan m < 2 ^ 63) :
    (proportionalPartRows m start stop).toInt =
      if windowOverlap m start stop < 0 then 0
      else if partSpan m ≤ windowOverlap m start stop then (m.rowsCount : Int)
      else scaledRows m.rowsCount (partSpan m).toNat (windowOverlap m start stop).toNat := by
  have hspanInt : (m.maxTime - m.minTime).toInt = partSpan m :=
    toInt_sub_of_fits (by rw [partSpan] at hspan; omega) hfits
  have hstart : (if start > m.minTime then start else m.minTime).toInt = max start.toInt m.minTime.toInt := by
    split
    · next h => exact (max_eq_left h.toInt_lt.le).symm
    · next h => exact (max_eq_right (Int64.not_lt.mp h).toInt_le).symm
  have hstop : (if stop < m.maxTime then stop else m.maxTime).toInt = min stop.toInt m.maxTime.toInt := by
    split
    · next h => exact (min_eq_left h.toInt_lt.le).symm
    · next h => exact (min_eq_right (Int64.not_lt.mp h).toInt_le).symm
  have hnospan : ¬ m.maxTime - m.minTime ≤ 0 := by
    rw [Int64.le_iff_toInt_le, hspanInt]
    exact not_le_of_gt hspan
  unfold proportionalPartRows
  dsimp only
  rw [if_neg (rows_pos hpos hrows), if_neg hnospan]
  generalize hs : (if start > m.minTime then start else m.minTime) = overlapStart at hstart ⊢
  generalize he : (if stop < m.maxTime then stop else m.maxTime) = overlapEnd at hstop ⊢
  have hoverlap : windowOverlap m start stop = overlapEnd.toInt - overlapStart.toInt := by
    rw [hstart, hstop, windowOverlap]
  rw [hoverlap]
  by_cases hdisjoint : overlapEnd < overlapStart
  · rw [if_pos hdisjoint, if_pos (by have := hdisjoint.toInt_lt; omega)]
    rfl
  · have hle := (Int64.not_lt.mp hdisjoint).toInt_le
    have hsub : (overlapEnd - overlapStart).toInt = overlapEnd.toInt - overlapStart.toInt := by
      rw [partSpan] at hfits
      exact toInt_sub_of_fits (by omega) (by omega)
    have hinside : ¬ overlapEnd.toInt - overlapStart.toInt < 0 := by omega
    rw [if_neg hdisjoint, if_neg hinside]
    by_cases hcovers : overlapEnd - overlapStart ≥ m.maxTime - m.minTime
    · have hcoversInt : partSpan m ≤ overlapEnd.toInt - overlapStart.toInt := by
        rw [← hspanInt, ← hsub]
        exact hcovers.toInt_le
      rw [if_pos hcovers, if_pos hcoversInt, toInt_rowsCount hrows]
    · have hlt : overlapEnd.toInt - overlapStart.toInt < partSpan m := by
        rw [← hspanInt, ← hsub]
        exact (Int64.not_le.mp hcovers).toInt_lt
      rw [if_neg hcovers, if_neg (not_le_of_gt hlt)]
      have hscaled : (Int64.ofNat m.rowsCount * (overlapEnd - overlapStart) / (m.maxTime - m.minTime)).toInt =
          (((m.rowsCount * (overlapEnd.toInt - overlapStart.toInt).toNat : Nat) : Int).bmod (2 ^ 64)).tdiv
            (partSpan m).toNat := by
        have hproduct : (Int64.ofNat m.rowsCount * (overlapEnd - overlapStart)).toInt =
            ((m.rowsCount * (overlapEnd.toInt - overlapStart.toInt).toNat : Nat) : Int).bmod (2 ^ 64) := by
          rw [Int64.toInt_mul, hsub, toInt_rowsCount hrows, Int.natCast_mul, Int.toNat_of_nonneg (by omega)]
        rw [toInt_div_of_pos (by omega), hproduct, hspanInt, Int.toNat_of_nonneg hspan.le]
      unfold scaledRows
      rw [← hscaled]
      split
      · next h =>
        have h := h.toInt_le
        exact (max_eq_left (h.trans (by decide))).symm
      · next h =>
        have h := (Int64.not_le.mp h).toInt_lt
        exact (max_eq_right h).symm

theorem proportionalPartRows_exact (hspan : 0 < partSpan m) (hfits : partSpan m < 2 ^ 63)
    (hproduct : m.rowsCount ≤ 2 ∨ m.rowsCount * ((partSpan m).toNat - 1) < 2 ^ 63) :
    (proportionalPartRows m start stop).toInt =
      if windowOverlap m start stop < 0 then 0
      else (exactPartRows m.rowsCount (partSpan m).toNat (windowOverlap m start stop).toNat : Int) := by
  rw [proportionalPartRows_of_span hpos hrows hspan hfits]
  split
  · rfl
  · next hinside =>
    rw [exactPartRows]
    by_cases hcovers : partSpan m ≤ windowOverlap m start stop
    · rw [if_pos hcovers, if_pos (Int.toNat_le_toNat hcovers)]
    · rw [if_neg hcovers, if_neg (by omega)]
      have hoverlap : (windowOverlap m start stop).toNat ≤ (partSpan m).toNat - 1 := by omega
      have hoverlapFits : (windowOverlap m start stop).toNat < 2 ^ 63 := by omega
      have hdivisor : 0 < (partSpan m).toNat := by omega
      generalize (windowOverlap m start stop).toNat = overlap at hoverlap hoverlapFits ⊢
      generalize (partSpan m).toNat = span at hoverlap hproduct hdivisor ⊢
      by_cases hsmall : m.rowsCount * overlap < 2 ^ 63
      · exact scaledRows_of_fits hsmall
      · have htwo : m.rowsCount ≤ 2 := hproduct.resolve_right fun h =>
          hsmall (lt_of_le_of_lt (Nat.mul_le_mul_left _ hoverlap) h)
        have hle : m.rowsCount * overlap ≤ 2 * overlap := Nat.mul_le_mul_right _ htwo
        rw [scaledRows_of_wraps (by omega) (by omega)]
        have hquotient : m.rowsCount * overlap / span ≤ 1 := by
          rw [Nat.div_le_iff_le_mul hdivisor]
          omega
        omega

end

theorem windowOverlap_mono (hstart : start' ≤ start) (hstop : stop ≤ stop') :
    windowOverlap m start stop ≤ windowOverlap m start' stop' := by
  have := hstart.toInt_le
  have := hstop.toInt_le
  unfold windowOverlap
  omega

theorem estimatesRows_of_constant (h : ∀ start stop, (proportionalPartRows m start stop).toInt = m.rowsCount) :
    EstimatesRows m where
  nonneg start stop := by rw [h]; exact Int.natCast_nonneg _
  le_rows start stop := (h start stop).le
  covered start stop _ _ := h start stop
  monotone start stop start' stop' _ _ := by rw [Int64.le_iff_toInt_le, h, h]

theorem estimatesRows_of_exact (hpos : 0 < m.rowsCount) (hrows : m.rowsCount < 2 ^ 63)
    (hspan : 0 < partSpan m) (hfits : partSpan m < 2 ^ 63)
    (hproduct : m.rowsCount ≤ 2 ∨ m.rowsCount * ((partSpan m).toNat - 1) < 2 ^ 63) : EstimatesRows m where
  nonneg start stop := by
    rw [proportionalPartRows_exact hpos hrows hspan hfits hproduct]
    split
    · exact le_rfl
    · exact Int.natCast_nonneg _
  le_rows start stop := by
    rw [proportionalPartRows_exact hpos hrows hspan hfits hproduct]
    split
    · exact Int.natCast_nonneg _
    · exact Int.ofNat_le.mpr (exactPartRows_le hpos)
  covered start stop hstart hstop := by
    have hstart := hstart.toInt_le
    have hstop := hstop.toInt_le
    have hcovers : windowOverlap m start stop = partSpan m := by
      unfold windowOverlap partSpan
      omega
    rw [proportionalPartRows_exact hpos hrows hspan hfits hproduct, hcovers, if_neg (by omega), exactPartRows,
      if_pos le_rfl]
  monotone start stop start' stop' hstart hstop := by
    have hoverlap := windowOverlap_mono (m := m) hstart hstop
    rw [Int64.le_iff_toInt_le, proportionalPartRows_exact hpos hrows hspan hfits hproduct,
      proportionalPartRows_exact hpos hrows hspan hfits hproduct]
    by_cases hdisjoint : windowOverlap m start stop < 0
    · rw [if_pos hdisjoint]
      split
      · exact le_rfl
      · exact Int.natCast_nonneg _
    · rw [if_neg hdisjoint, if_neg (by omega)]
      exact Int.ofNat_le.mpr (exactPartRows_mono hpos (Int.toNat_le_toNat hoverlap))

end

def rowsPart (rows : Nat) (maxTime : Int64) : PartMeta := ⟨[], 0, 0, maxTime, 1, 1, rows, 1, 1, 1, []⟩

section
variable {rows overlap : Nat}

theorem partSpan_rowsPart (hspan : span < 2 ^ 63) : partSpan (rowsPart rows (Int64.ofNat span)) = span := by
  change (Int64.ofNat span).toInt - (0 : Int64).toInt = span
  rw [Int64.toInt_ofNat_of_lt hspan]
  exact Int.sub_zero _

theorem windowOverlap_rowsPart (hspan : span < 2 ^ 63) (hle : overlap ≤ span) :
    windowOverlap (rowsPart rows (Int64.ofNat span)) 0 (Int64.ofNat overlap) = overlap := by
  change min (Int64.ofNat overlap).toInt (Int64.ofNat span).toInt - max (0 : Int) (0 : Int) = overlap
  rw [Int64.toInt_ofNat_of_lt hspan, Int64.toInt_ofNat_of_lt (lt_of_le_of_lt hle hspan)]
  omega

theorem proportionalPartRows_rowsPart (hpos : 0 < rows) (hrows : rows < 2 ^ 63) (hspan : span < 2 ^ 63)
    (hlt : overlap < span) :
    (proportionalPartRows (rowsPart rows (Int64.ofNat span)) 0 (Int64.ofNat overlap)).toInt =
      scaledRows rows span overlap := by
  have hpartSpan : partSpan (rowsPart rows (Int64.ofNat span)) = span := partSpan_rowsPart hspan
  rw [proportionalPartRows_of_span hpos hrows (by omega) (by omega), windowOverlap_rowsPart hspan hlt.le, hpartSpan,
    if_neg (by omega), if_neg (by omega)]
  rfl

theorem exists_not_estimatesRows (hrows : rows < 2 ^ 63) (hspan : span < 2 ^ 63) (hthree : 3 ≤ rows)
    (hlarge : 2 ^ 63 ≤ rows * (span - 1)) :
    ∃ m : PartMeta, m.minTime ≤ m.maxTime ∧ m.rowsCount = rows ∧ partSpan m ≤ span ∧ ¬ EstimatesRows m := by
  -- `overlap + 1` is the shortest overlap whose product is too large
  obtain ⟨overlap, hlow, hhigh⟩ : ∃ overlap, rows * overlap < 2 ^ 63 ∧ 2 ^ 63 ≤ rows * (overlap + 1) := by
    refine ⟨(2 ^ 63 - 1) / rows, ?_, ?_⟩
    · have := Nat.mul_div_le (2 ^ 63 - 1) rows
      omega
    · have := Nat.lt_mul_div_succ (2 ^ 63 - 1) (show 0 < rows by omega)
      omega
  have hlt : overlap < span - 1 := by
    by_contra hge
    have := Nat.mul_le_mul_left rows (Nat.not_lt.mp hge)
    omega
  have hpos : 0 < overlap := by
    rcases Nat.eq_zero_or_pos overlap with rfl | hpos
    · omega
    · exact hpos
  have hmul : rows * (overlap + 1) = rows * overlap + rows := Nat.mul_succ rows overlap
  have hwide : overlap + 2 < 2 ^ 63 := by omega
  have htwo : 2 ≤ rows * overlap / (overlap + 2) := by
    rw [Nat.le_div_iff_mul_le (by omega)]
    by_cases hfew : overlap < 4
    · have hone : rows * 1 ≤ rows * overlap := Nat.mul_le_mul_left rows hpos
      omega
    · have hthree : 3 * overlap ≤ rows * overlap := Nat.mul_le_mul_right overlap hthree
      omega
  refine ⟨rowsPart rows (Int64.ofNat (overlap + 2)), ?_, rfl, ?_, fun h => ?_⟩
  · rw [Int64.le_iff_toInt_le]
    change (0 : Int) ≤ (Int64.ofNat (overlap + 2)).toInt
    rw [Int64.toInt_ofNat_of_lt hwide]
    omega
  · rw [partSpan_rowsPart hwide]
    omega
  · have hstop : Int64.ofNat overlap ≤ Int64.ofNat (overlap + 1) := by
      rw [Int64.le_iff_toInt_le, Int64.toInt_ofNat_of_lt (by omega), Int64.toInt_ofNat_of_lt (by omega)]
      omega
    have hmono := h.monotone 0 (Int64.ofNat overlap) 0 (Int64.ofNat (overlap + 1)) (Int64.le_refl 0) hstop
    rw [Int64.le_iff_toInt_le, proportionalPartRows_rowsPart (by omega) hrows hwide (by omega),
      proportionalPartRows_rowsPart (by omega) hrows hwide (by omega), scaledRows_of_fits hlow,
      scaledRows_of_wraps hhigh (by omega)] at hmono
    omega

end

/-- All parts of at most `rows` rows whose time range is at most `span` long, or too long for an `int64`, have
bounded and monotone estimates exactly if there are two rows at most or their product with the longest partial
overlap is an `int64`. -/
theorem estimatesRows_iff {rows span : Nat} (hrows : rows < 2 ^ 63) (hspan : span < 2 ^ 63) :
    (∀ m : PartMeta, m.minTime ≤ m.maxTime → m.rowsCount ≤ rows → (partSpan m ≤ span ∨ 2 ^ 63 ≤ partSpan m) →
      EstimatesRows m) ↔ rows ≤ 2 ∨ rows * (span - 1) < 2 ^ 63 := by
  constructor
  · intro hall
    by_contra hcond
    push Not at hcond
    obtain ⟨m, hle, hcount, hshort, hnot⟩ := exists_not_estimatesRows hrows hspan hcond.1 hcond.2
    exact hnot (hall m hle hcount.le (.inl hshort))
  · intro hproduct m hle hcount hshort
    have hle := hle.toInt_le
    have hnonneg : 0 ≤ partSpan m := by
      unfold partSpan
      omega
    rcases Nat.eq_zero_or_pos m.rowsCount with hzero | hpos
    · refine estimatesRows_of_constant fun start stop => ?_
      rw [proportionalPartRows_zero hzero, hzero]
      rfl
    · have hcountFits : m.rowsCount < 2 ^ 63 := by omega
      by_cases hno : partSpan m = 0 ∨ 2 ^ 63 ≤ partSpan m
      · exact estimatesRows_of_constant fun start stop => proportionalPartRows_of_no_span hpos hcountFits hno
      · push Not at hno
        refine estimatesRows_of_exact hpos hcountFits (lt_of_le_of_ne hnonneg hno.1.symm) hno.2 ?_
        refine hproduct.imp (fun h => hcount.trans h) fun h => lt_of_le_of_lt ?_ h
        exact Nat.mul_le_mul hcount (by omega)

/-- Ten million rows of one hour in nanoseconds. -/
theorem hour_estimate_decreases :
    (rowsPart 10000000 3600000000000).minTime ≤ (rowsPart 10000000 3600000000000).maxTime ∧
      proportionalPartRows (rowsPart 10000000 3600000000000) 0 900000000000 = 2500000 ∧
      proportionalPartRows (rowsPart 10000000 3600000000000) 0 1800000000000 = 1 := by
  decide

theorem estimatesRows_million_iff :
    (∀ m : PartMeta, m.minTime ≤ m.maxTime → m.rowsCount ≤ 1000000 →
      (partSpan m ≤ (3600000000000 : Nat) ∨ 2 ^ 63 ≤ partSpan m) → EstimatesRows m) ↔
        1000000 ≤ 2 ∨ 1000000 * (3600000000000 - 1) < 2 ^ 63 :=
  estimatesRows_iff (by decide) (by decide)

end Mts.Engine
