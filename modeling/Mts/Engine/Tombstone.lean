import Mts.Engine.ColumnMerge

/-! Tombstones, `engine/tombstone.go`. A tombstone hides the samples of its series, fields and time
range that are not newer than it; an empty ID list stands for all IDs and sequence 0 for no bound. -/

namespace Mts.Engine
open Lib Model List

variable {v : Version} {tombstones : List Tombstone} {columns : List ColumnData}

/-- `idMatches` and `id32Matches`. -/
def idMatches {α : Type} [DecidableEq α] (filter : List α) (id : α) : Bool := filter.isEmpty || filter.contains id

def tombstoneWriteSeq (tombstone : Tombstone) : UInt64 :=
  if tombstone.writeSeq = 0 then ~~~0 else tombstone.writeSeq

def tombstoneMatches (seriesID : UInt64) (fieldID : UInt32) (sample : VersionedSample)
    (tombstone : Tombstone) : Bool :=
  if sample.timestamp < tombstone.startTime || sample.timestamp > tombstone.endTime then false
  else if sample.writeSeq > tombstoneWriteSeq tombstone then false
  else idMatches tombstone.seriesIDs seriesID && idMatches tombstone.fieldIDs fieldID

def sampleDeleted (column : ColumnData) (sample : VersionedSample) (tombstones : List Tombstone) :
    Bool := tombstones.any (tombstoneMatches column.seriesID column.fieldID sample)

def filterTombstonedSamples (column : ColumnData) (tombstones : List Tombstone) : Samples :=
  column.samples.filter fun s => !sampleDeleted column s tombstones

def applyTombstones (columns : List ColumnData) (tombstones : List Tombstone) : List ColumnData :=
  if columns.isEmpty || tombstones.isEmpty then columns
  else (columns.map fun c => { c with samples := filterTombstonedSamples c tombstones }).filter
    fun c => !c.samples.isEmpty

def Covered (tombstones : List Tombstone) (v : Version) : Prop :=
  ∃ t ∈ tombstones, tombstoneMatches v.seriesID v.fieldID v.sample t = true

instance (tombstones : List Tombstone) (v : Version) : Decidable (Covered tombstones v) :=
  inferInstanceAs (Decidable (∃ t ∈ tombstones, _))

@[simp] theorem not_covered_nil (v : Version) : ¬ Covered [] v := by simp [Covered]

theorem covered_append : Covered (a ++ b) v ↔ Covered a v ∨ Covered b v := by
  simp [Covered, or_and_right, exists_or]

theorem tombstoneMatches_iff : tombstoneMatches seriesID fieldID sample t = true ↔
      (t.startTime ≤ sample.timestamp ∧ sample.timestamp ≤ t.endTime) ∧
      sample.writeSeq ≤ tombstoneWriteSeq t ∧
      idMatches t.seriesIDs seriesID = true ∧ idMatches t.fieldIDs fieldID = true := by
  unfold tombstoneMatches
  split
  · grind
  · split
    · grind
    · simp only [Bool.and_eq_true]
      grind

theorem mem_filterTombstonedSamples :
    s ∈ filterTombstonedSamples c tombstones ↔
      s ∈ c.samples ∧ ¬ Covered tombstones ⟨c.seriesID, c.fieldID, s⟩ := by
  simp only [filterTombstonedSamples, sampleDeleted, mem_filter, Covered, Bool.not_eq_true',
    ← Bool.not_eq_true, any_eq_true]

theorem mem_versions_filterTombstoned :
    v ∈ versions (columns.map fun c => { c with samples := filterTombstonedSamples c tombstones }) ↔
      v ∈ versions columns ∧ ¬ Covered tombstones v := by
  obtain ⟨seriesID, fieldID, x⟩ := v
  simp only [mem_versions, mem_map, ColumnData.mem_versions]
  constructor
  · rintro ⟨_, ⟨c, hc, rfl⟩, hs, hf, hx⟩
    subst hs hf
    obtain ⟨hx, hcov⟩ := mem_filterTombstonedSamples.mp hx
    exact ⟨⟨c, hc, rfl, rfl, hx⟩, hcov⟩
  · rintro ⟨⟨c, hc, rfl, rfl, hx⟩, hcov⟩
    exact ⟨_, ⟨c, hc, rfl⟩, rfl, rfl, mem_filterTombstonedSamples.mpr ⟨hx, hcov⟩⟩

theorem mem_versions_applyTombstones : v ∈ versions (applyTombstones columns tombstones) ↔
      v ∈ versions columns ∧ ¬ Covered tombstones v := by
  unfold applyTombstones
  split
  · next h =>
    rcases Bool.or_eq_true_iff.mp h with h | h
    · simp [List.isEmpty_iff.mp h]
    · simp [List.isEmpty_iff.mp h]
  · rw [mem_versions_filter_nonempty, mem_versions_filterTombstoned]

end Mts.Engine
