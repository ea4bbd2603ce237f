import Mts.Engine.Flush
import Mts.Engine.Routing
import Mts.Lib.Int64

/-! The time range of a shard, `shardStart` and the end that `shardForStartLocked` gives a shard. A flush reads the
MemTable through this range. -/

namespace Mts.Engine
open Lib Model Sstable List

def routedOptions (opts : ShardOptions) (timestamp duration : Int64) : ShardOptions :=
  { opts with
    start := Routing.shardStart timestamp duration
    stop := Routing.shardStart timestamp duration + duration - 1 }

def alignedStart (timestamp duration : Int64) : Int := timestamp.toInt / duration.toInt * duration.toInt

structure ExactStart (timestamp duration : Int64) : Prop where
  multiple : duration.toInt ∣ (Routing.shardStart timestamp duration).toInt
  lower : (Routing.shardStart timestamp duration).toInt ≤ timestamp.toInt
  upper : timestamp.toInt ≤ (Routing.shardStart timestamp duration).toInt + duration.toInt - 1
  representable : (Routing.shardStart timestamp duration).toInt + duration.toInt - 1 < 2 ^ 63
  same : ∀ t : Int64, (Routing.shardStart timestamp duration).toInt ≤ t.toInt →
    t.toInt ≤ (Routing.shardStart timestamp duration).toInt + duration.toInt - 1 →
      Routing.shardStart t duration = Routing.shardStart timestamp duration
  inRange : ∀ opts v, v.sample.timestamp = timestamp → Shard.InRange (routedOptions opts timestamp duration) v
  kept : ∀ opts (s : Shard) v, s.mem.DistinctColumns → s.mem.Counted → Consistent s.memVersions →
    IsLatest s.memVersions v → v.sample.timestamp = timestamp →
      v ∈ Shard.partVersions (s.flushLocked (routedOptions opts timestamp duration)).1.parts

namespace Shard

theorem flushLocked_keeps {s : Shard} (hd : s.mem.DistinctColumns) (hcount : s.mem.Counted)
    (hc : Consistent s.memVersions) (hv : IsLatest s.memVersions v) (hr : InRange opts v) :
    v ∈ partVersions (s.flushLocked opts).1.parts := by
  have hquery : v ∈ Model.versions (s.mem.query (shardWindow opts)) := by
    rw [MemTable.mem_versions_query hd hc]
    exact ⟨by simp [shardWindow, ColumnQuery.wants], ColumnQuery.inWindow_iff.mpr hr, hv⟩
  have hruns : seriesRuns (s.mem.query (shardWindow opts)) ≠ [] := by
    intro hnil
    rw [← seriesRuns_flatten (s.mem.query _), hnil] at hquery
    simp at hquery
  obtain ⟨w, part, hw, hclose, hpart⟩ := writeSnapshotPart_runs opts s hruns
  have hne : s.mem.sampleCount ≠ 0 := by
    intro hzero
    have hnil : s.mem.versions = [] := length_eq_zero_iff.mp (hcount ▸ hzero)
    have hmem : v ∈ s.mem.versions := hv.1
    rw [hnil] at hmem
    exact not_mem_nil hmem
  have hflush : s.flushLocked opts = (s.flushed part, none) := by
    rw [flushLocked, if_neg hne, hpart]
  rw [hflush]
  refine ⟨part, mem_append_right _ (mem_singleton_self part), ?_⟩
  rw [PartWriter.close_ok hclose, foldlM_addSeries_ok hw, seriesRuns_flatten]
  exact .inr hquery

end Shard

section
variable {timestamp duration : Int64}

theorem toInt_shardStart (hd : 0 < duration) (hlow : -2 ^ 63 ≤ alignedStart timestamp duration) :
    (Routing.shardStart timestamp duration).toInt = alignedStart timestamp duration := by
  have hd : 0 < duration.toInt := hd.toInt_lt
  rw [Routing.shardStart]
  split
  · next ht => exact toInt_div_mul_of_nonneg hd ht.toInt_le
  · next ht => exact toInt_floor_of_neg hd (Int64.not_le.mp ht).toInt_lt hlow

theorem ediv_eq_of_interval {d x q : Int} (hd : 0 < d) (hlow : q * d ≤ x) (hhigh : x ≤ q * d + d - 1) : x / d = q := by
  refine Int.le_antisymm ?_ ?_
  · have hlt : x < (q + 1) * d := by
      rw [Int.add_mul, Int.one_mul]
      omega
    exact Int.le_of_lt_add_one (Int.ediv_lt_of_lt_mul hd hlt)
  · exact Int.le_ediv_of_mul_le hd hlow

variable (timestamp) in
theorem alignedStart_bounds (hd : 0 < duration) : alignedStart timestamp duration ≤ timestamp.toInt ∧
    timestamp.toInt < alignedStart timestamp duration + duration.toInt := by
  have hd : 0 < duration.toInt := hd.toInt_lt
  have hlt := Int.lt_ediv_add_one_mul_self timestamp.toInt hd
  rw [Int.add_mul, Int.one_mul] at hlt
  exact ⟨Int.ediv_mul_le _ (Int.ne_of_gt hd), hlt⟩

theorem alignedStart_eq {t : Int64} (hd : 0 < duration) (hlow : alignedStart timestamp duration ≤ t.toInt)
    (hhigh : t.toInt ≤ alignedStart timestamp duration + duration.toInt - 1) :
    alignedStart t duration = alignedStart timestamp duration := by
  rw [alignedStart, ediv_eq_of_interval hd.toInt_lt hlow hhigh, alignedStart]

theorem toInt_stop (hd : 0 < duration) (hfits : start.toInt + duration.toInt - 1 < 2 ^ 63) :
    (start + duration - 1).toInt = start.toInt + duration.toInt - 1 := by
  have hd : 0 < duration.toInt := hd.toInt_lt
  have hone : (1 : Int64).toInt = 1 := rfl
  have hstart := start.le_toInt
  have hduration := duration.toInt_lt
  have hpred : (duration - 1).toInt = duration.toInt - 1 := toInt_sub_of_fits (by omega) (by omega)
  have hassoc : start + duration - 1 = start + (duration - 1) := by
    rw [Int64.sub_eq_add_neg, Int64.add_assoc, ← Int64.sub_eq_add_neg]
  rw [hassoc, toInt_add_of_fits (by omega) (by omega), hpred]
  omega

/-- The start is exact exactly if the interval of the duration that the timestamp lies in is one of `int64`s. -/
theorem exactStart_iff (hd : 0 < duration) :
    ExactStart timestamp duration ↔
      -2 ^ 63 ≤ alignedStart timestamp duration ∧ alignedStart timestamp duration + duration.toInt - 1 < 2 ^ 63 := by
  have hdpos : 0 < duration.toInt := hd.toInt_lt
  constructor
  · intro h
    obtain ⟨q, hq⟩ := h.multiple
    have hquot : timestamp.toInt / duration.toInt = q := by
      refine ediv_eq_of_interval hdpos ?_ ?_
      · rw [Int.mul_comm, ← hq]
        exact h.lower
      · rw [Int.mul_comm, ← hq]
        exact h.upper
    have hstart : alignedStart timestamp duration = (Routing.shardStart timestamp duration).toInt := by
      rw [alignedStart, hquot, hq, Int.mul_comm]
    rw [hstart]
    exact ⟨Int64.le_toInt _, h.representable⟩
  · rintro ⟨hlow, hhigh⟩
    have hstart := toInt_shardStart hd hlow
    obtain ⟨hle, hlt⟩ := alignedStart_bounds timestamp hd
    have hrange : ∀ opts v, v.sample.timestamp = timestamp →
        Shard.InRange (routedOptions opts timestamp duration) v := by
      rintro opts v rfl
      constructor
      · rw [Int64.le_iff_toInt_le, routedOptions, hstart]
        exact hle
      · rw [Int64.le_iff_toInt_le, routedOptions, toInt_stop hd (hstart ▸ hhigh), hstart]
        omega
    refine ⟨?_, ?_, ?_, ?_, fun t htlow hthigh => ?_, hrange, fun opts s v hdist hcount hc hv ht => ?_⟩
    · rw [hstart]
      exact Int.dvd_mul_left _ _
    · rw [hstart]
      exact hle
    · rw [hstart]
      omega
    · rw [hstart]
      exact hhigh
    · have hsame := alignedStart_eq hd (hstart ▸ htlow) (hstart ▸ hthigh)
      apply Int64.toInt_inj.mp
      rw [toInt_shardStart hd (hsame ▸ hlow), hsame, hstart]
    · exact Shard.flushLocked_keeps hdist hcount hc hv (hrange opts v ht)

end

/-- Ten nanoseconds a shard: the start of the first shard and the end of the last are no `int64`s. -/
theorem shardStart_wraps :
    (0 : Int64) < 10 ∧ Routing.shardStart (-9223372036854775808) 10 = 9223372036854775806 ∧
      ¬ ExactStart (-9223372036854775808) 10 ∧
      Routing.shardStart 9223372036854775807 10 + 10 - 1 = -9223372036854775807 ∧
      ¬ ExactStart 9223372036854775807 10 := by
  refine ⟨by decide, by decide, fun h => ?_, by decide, fun h => ?_⟩
  · exact absurd h.lower (by decide)
  · exact absurd h.representable (by decide)

theorem exactStart_before_epoch :
    ExactStart (-1) 3600000000000 ↔ -2 ^ 63 ≤ alignedStart (-1) 3600000000000 ∧
      alignedStart (-1) 3600000000000 + (3600000000000 : Int64).toInt - 1 < 2 ^ 63 :=
  exactStart_iff (by decide)

end Mts.Engine
