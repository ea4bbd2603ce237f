import Mts.Engine.Shard

/-! The invariant of a shard and its directory, and what the operations of `engine/shard.go` do to
the visible versions: a write adds newest versions, a flush and a reopen change nothing. -/

namespace Mts.Engine
open Lib Model Sstable Wal List

namespace Shard

variable {runs : List (List ColumnData)} {part : Part}

def InRange (opts : ShardOptions) (v : Version) : Prop :=
  opts.start ≤ v.sample.timestamp ∧ v.sample.timestamp ≤ opts.stop

instance (opts : ShardOptions) (v : Version) : Decidable (InRange opts v) := inferInstanceAs (Decidable (_ ∧ _))

/-- The directory lists the parts of the shard, and its log replays the tombstones, the MemTable
and otherwise only versions that the shard has in parts as well, or newer ones. -/
structure Sound (opts : ShardOptions) (s : Shard) : Prop where
  distinct : s.mem.DistinctColumns
  counted : s.mem.Counted
  manifest : ∀ p, p ∈ s.manifest.parts ↔ p ∈ s.parts
  disk : ∀ p, p ∈ s.disk.manifest.parts ↔ p ∈ s.parts
  segments : SegmentsOrdered s.disk.segments
  tombstones : recordTombstones (replayRecords s.disk.segments) = s.tombstones
  logged : s.memVersions ⊆ walVersions s.disk
  stored : Dominates s.versions (walVersions s.disk)
  consistent : Consistent (s.versions ∪ walVersions s.disk)
  inRange : ∀ v ∈ s.versions ∪ walVersions s.disk, InRange opts v

variable {opts : ShardOptions} {s : Shard}

theorem Sound.consistent_versions (h : Sound opts s) : Consistent s.versions := h.consistent.mono Set.subset_union_left

theorem mem_pointVersions_append : pointVersions (a ++ b) = pointVersions a ∪ pointVersions b := by
  ext v
  simp only [pointVersions, mem_append, or_and_right, exists_or]
  rfl

theorem partVersions_openShard (d : Disk) : partVersions (openShard d).1.parts = partVersions d.manifest.parts :=
  partVersions_congr fun _ => mem_insertionSort _

theorem memVersions_applyBatch (points : List ResolvedPoint) (m : MemTable) :
    {v | v ∈ (m.applyBatch points).versions} = {v | v ∈ m.versions} ∪ pointVersions points := by
  ext v
  exact MemTable.mem_versions_applyBatch

theorem memVersions_openShard (d : Disk) : (openShard d).1.memVersions = walVersions d := by
  have hmem : (openShard d).1.mem = MemTable.empty.applyBatch (recordPoints (replayRecords d.segments)) := by
    simp [openShard]
  rw [memVersions, hmem, memVersions_applyBatch]
  simp [walVersions]

theorem versions_openShard (d : Disk) : (openShard d).1.versions = walVersions d ∪ partVersions d.manifest.parts := by
  rw [versions, memVersions_openShard, partVersions_openShard]

theorem tombstones_openShard (d : Disk) :
    (openShard d).1.tombstones = recordTombstones (replayRecords d.segments) := by
  simp [openShard]

theorem walVersions_openShard (d : Disk) : walVersions (openShard d).1.disk = walVersions d := by
  simp [openShard, walVersions]

theorem Sound.versions_openShard (h : Sound opts s) :
    (openShard s.disk).1.versions = s.versions ∪ walVersions s.disk := by
  rw [Shard.versions_openShard, partVersions_congr h.disk, versions]
  ext v
  have := @h.logged v
  simp only [Set.mem_union]
  tauto

theorem walVersions_eq (d : Disk) :
    walVersions d = {v | v ∈ (recordPoints (replayRecords d.segments)).flatMap ResolvedPoint.versions} := by
  ext v
  exact mem_flatMap.symm

def versionList (s : Shard) : List Version :=
  s.mem.versions ++ s.parts.flatMap Part.versions ++
    (recordPoints (replayRecords s.disk.segments)).flatMap ResolvedPoint.versions

theorem versions_union_wal (s : Shard) : s.versions ∪ walVersions s.disk = {v | v ∈ s.versionList} := by
  rw [versions_eq, walVersions_eq]
  ext v
  exact mem_append.symm

/-- Closing and reopening a shard changes nothing a reader sees. -/
theorem Sound.visible_openShard (h : Sound opts s) (v : Version) : (openShard s.disk).1.Visible v ↔ s.Visible v := by
  rw [Visible, h.versions_openShard, tombstones_openShard, h.tombstones, Visible]
  apply visible_iff_of_dominates Set.subset_union_left _ h.consistent
  exact Dominates.union (Dominates.of_subset subset_rfl) h.stored

theorem sound_openShard (hsegments : d.segments.Pairwise (·.number < ·.number))
    (hc : Consistent (walVersions d ∪ partVersions d.manifest.parts))
    (hr : ∀ v ∈ walVersions d ∪ partVersions d.manifest.parts, InRange opts v) :
    Sound opts (openShard d).1 := by
  have hunion : (openShard d).1.versions ∪ walVersions (openShard d).1.disk =
      walVersions d ∪ partVersions d.manifest.parts := by
    rw [walVersions_openShard, versions_openShard, Set.union_right_comm, Set.union_self]
  refine ⟨MemTable.distinctColumns_applyBatch MemTable.distinctColumns_empty _,
    MemTable.counted_applyBatch MemTable.counted_empty _, fun _ => Iff.rfl,
    fun p => (mem_insertionSort _).symm, segmentsOrdered_openLastSegment hsegments, rfl,
    ?_, ?_, hunion ▸ hc, hunion ▸ hr⟩
  · rw [walVersions_openShard, memVersions_openShard]
  · rw [walVersions_openShard, versions_openShard]
    exact Dominates.of_subset Set.subset_union_left

theorem Sound.openShard (h : Sound opts s) : Sound opts (openShard s.disk).1 := by
  have hunion : walVersions s.disk ∪ partVersions s.disk.manifest.parts =
      s.versions ∪ walVersions s.disk := by
    rw [← h.versions_openShard, Shard.versions_openShard]
  exact sound_openShard h.segments.2 (hunion ▸ h.consistent) (hunion ▸ h.inRange)

theorem walVersions_appendWal (d : Disk) (log : LogOptions) (r : Record) :
    walVersions (d.run [.appendWal log r]) = walVersions d ∪ pointVersions r.points := by
  simp [walVersions, Disk.run, FileOp.apply, recordPoints, mem_pointVersions_append]

theorem versions_applyBatch (opts : ShardOptions) (s : Shard) (points : List ResolvedPoint) :
    (s.applyBatch opts points).versions = s.versions ∪ pointVersions points := by
  rw [versions, memVersions, applyBatch, memVersions_applyBatch, Set.union_right_comm]
  rfl

theorem Sound.applyBatch (h : Sound opts s) (hc : Consistent (s.versions ∪ walVersions s.disk ∪ pointVersions points))
    (hr : ∀ v ∈ pointVersions points, InRange opts v) : Sound opts (s.applyBatch opts points) := by
  have hver := versions_applyBatch opts s points
  have hwal : walVersions (s.applyBatch opts points).disk = walVersions s.disk ∪ pointVersions points :=
    walVersions_appendWal ..
  have hunion : (s.applyBatch opts points).versions ∪ walVersions (s.applyBatch opts points).disk =
      s.versions ∪ walVersions s.disk ∪ pointVersions points := by
    rw [hver, hwal, ← Set.union_union_distrib_right]
  refine ⟨MemTable.distinctColumns_applyBatch h.distinct _, MemTable.counted_applyBatch h.counted _,
    h.manifest, h.disk, segmentsOrdered_appendRecord h.segments, ?_, ?_, ?_, hunion ▸ hc, ?_⟩
  · simp only [Shard.applyBatch, Disk.run, foldl_cons, foldl_nil, FileOp.apply,
      replayRecords_appendRecord, recordTombstones, flatMap_append]
    simpa [recordTombstones] using h.tombstones
  · rw [hwal, memVersions, Shard.applyBatch, memVersions_applyBatch]
    exact Set.union_subset_union_left _ h.logged
  · rw [hwal, hver]
    exact Dominates.union (h.stored.mono_left Set.subset_union_left) (Dominates.of_subset Set.subset_union_right)
  · rw [hunion]
    exact fun v hv => hv.elim (h.inRange v) (hr v)

theorem Sound.deleteRange (h : Sound opts s) (t : Tombstone) : Sound opts (s.deleteRange opts t) := by
  unfold Shard.deleteRange
  split
  · exact h
  · have hwal : walVersions (s.disk.run [.appendWal opts.wal ⟨[], [t]⟩]) = walVersions s.disk := by
      rw [walVersions_appendWal]
      simp [pointVersions]
    refine ⟨h.distinct, h.counted, h.manifest, h.disk, segmentsOrdered_appendRecord h.segments, ?_, ?_, ?_, ?_, ?_⟩
    · simp only [Disk.run, foldl_cons, foldl_nil, FileOp.apply,
        replayRecords_appendRecord, recordTombstones, flatMap_append]
      simpa [recordTombstones] using h.tombstones
    · exact hwal ▸ h.logged
    · exact hwal ▸ h.stored
    · exact hwal ▸ h.consistent
    · exact hwal ▸ h.inRange

theorem seriesRuns_eq (columns : List ColumnData) : seriesRuns columns = runsBy ColumnData.seriesID columns := by
  induction columns with
  | nil => rfl
  | cons c cs ih =>
    rw [seriesRuns, runsBy, ih]
    rcases runsBy ColumnData.seriesID cs with _ | ⟨_ | ⟨d, run⟩, runs⟩ <;> rfl

theorem seriesRuns_flatten (columns : List ColumnData) : (seriesRuns columns).flatten = columns := by
  rw [seriesRuns_eq, flatten_runsBy]

theorem seriesRuns_series (columns : List ColumnData) :
    ∀ run ∈ seriesRuns columns, ∃ c rest, run = c :: rest ∧ ∀ d ∈ run, d.seriesID = c.seriesID := by
  intro run hrun
  rw [seriesRuns_eq] at hrun
  exact runsBy_key ColumnData.seriesID hrun

theorem foldlM_addSeries_ok (h : runs.foldlM PartWriter.addSeries w = .ok w') :
    ∀ v, v ∈ w'.versions ↔ v ∈ w.versions ∨ v ∈ Model.versions runs.flatten := by
  induction runs generalizing w with
  | nil =>
    obtain rfl : w = w' := by simpa [pure, Except.pure] using h
    simp
  | cons run runs ih =>
    rw [foldlM_cons] at h
    cases hrun : w.addSeries run with
    | error e => rw [hrun] at h; exact absurd h (by simp [bind, Except.bind])
    | ok w₁ =>
      rw [hrun] at h
      intro v
      rw [ih h v, PartWriter.addSeries_ok hrun v, flatten_cons, versions_append, mem_append, or_assoc]

theorem foldlM_addSeries_exists (w : PartWriter)
    (hseries : ∀ run ∈ runs, ∃ c rest, run = c :: rest ∧ ∀ d ∈ run, d.seriesID = c.seriesID)
    (hne : ∀ c ∈ runs.flatten, c.samples ≠ []) :
    ∃ w', runs.foldlM PartWriter.addSeries w = .ok w' ∧ w.rows.length + runs.length = w'.rows.length := by
  induction runs generalizing w with
  | nil => exact ⟨w, rfl, rfl⟩
  | cons run runs ih =>
    obtain ⟨c, rest, rfl, hsame⟩ := hseries _ mem_cons_self
    obtain ⟨w₁, hadd, hrows⟩ := w.addSeries_exists fun d hd =>
      ⟨hsame d hd, hne d (mem_flatten.mpr ⟨_, mem_cons_self, hd⟩)⟩
    obtain ⟨w', hw', hlen⟩ := ih w₁ (fun run hrun => hseries run (mem_cons_of_mem _ hrun))
      fun d hd => hne d (by rw [flatten_cons]; exact mem_append_right _ hd)
    refine ⟨w', ?_, ?_⟩
    · rw [foldlM_cons, hadd]
      exact hw'
    · rw [length_cons]
      omega

theorem Sound.mem_versions_snapshot (h : Sound opts s) (v : Version) :
    v ∈ Model.versions (s.mem.query (shardWindow opts)) ↔ IsLatest s.memVersions v := by
  have hc : Consistent s.memVersions := h.consistent_versions.mono Set.subset_union_left
  rw [MemTable.mem_versions_query h.distinct hc]
  constructor
  · exact fun hv => hv.2.2
  · intro hv
    have hr := h.inRange v (.inl (.inl hv.1))
    exact ⟨by simp [shardWindow, ColumnQuery.wants], ColumnQuery.inWindow_iff.mpr hr, hv⟩

theorem query_samples_ne_nil (m : MemTable) (q : ColumnQuery) : ∀ c ∈ m.query q, c.samples ≠ [] :=
  fun _ hc => (MemTable.mem_query_iff.mp hc).2.1

theorem writeSnapshotPart_runs (opts : ShardOptions) (s : Shard)
    (hruns : seriesRuns (s.mem.query (shardWindow opts)) ≠ []) :
    ∃ w part, (seriesRuns (s.mem.query (shardWindow opts))).foldlM PartWriter.addSeries
        (newPartWriter (joinPath opts.dir s.nextPartID.1) 0 s.nextPartID.1) = .ok w ∧
      w.close = .ok part ∧ s.writeSnapshotPart opts = .ok (some part) := by
  obtain ⟨w, hw, hlen⟩ := foldlM_addSeries_exists
    (newPartWriter (joinPath opts.dir s.nextPartID.1) 0 s.nextPartID.1)
    (seriesRuns_series (s.mem.query (shardWindow opts)))
    (by rw [seriesRuns_flatten]; exact query_samples_ne_nil _ _)
  have hrows : w.rows ≠ [] := by
    intro hnil
    have := length_pos_iff.mpr hruns
    rw [hnil] at hlen
    simp only [length_nil] at hlen
    omega
  obtain ⟨part, hclose⟩ := PartWriter.close_exists hrows
  refine ⟨w, part, hw, hclose, ?_⟩
  unfold writeSnapshotPart
  split
  · next hnil => exact absurd hnil hruns
  · simp only [hw, bind, Except.bind, hclose]
    rfl

theorem Sound.writeSnapshotPart_eq (h : Sound opts s) (hne : s.mem.versions ≠ []) :
    ∃ part, s.writeSnapshotPart opts = .ok (some part) ∧
      ∀ v, v ∈ part.versions ↔ IsLatest s.memVersions v := by
  have hruns : seriesRuns (s.mem.query (shardWindow opts)) ≠ [] := by
    intro hnil
    obtain ⟨v, hv⟩ := exists_mem_of_ne_nil _ hne
    obtain ⟨m, hm, -⟩ := exists_isLatest s.finite_memVersions hv
    have hmem := (h.mem_versions_snapshot m).mpr hm
    rw [← seriesRuns_flatten (s.mem.query _), hnil] at hmem
    simp at hmem
  obtain ⟨w, part, hw, hclose, hpart⟩ := writeSnapshotPart_runs opts s hruns
  refine ⟨part, hpart, fun v => ?_⟩
  rw [PartWriter.close_ok hclose, foldlM_addSeries_ok hw v, seriesRuns_flatten, h.mem_versions_snapshot]
  simp [newPartWriter, PartWriter.versions, rowVersions]

theorem Sound.flushLocked_eq (h : Sound opts s) :
    (s.mem.versions = [] ∧ s.flushLocked opts = (s, none)) ∨
      ∃ part, (∀ v, v ∈ part.versions ↔ IsLatest s.memVersions v) ∧
        s.flushLocked opts = (s.flushed part, none) := by
  have hcount := h.counted
  by_cases hne : s.mem.versions = []
  · left
    refine ⟨hne, ?_⟩
    rw [flushLocked, if_pos (by rw [hcount, hne]; rfl)]
  · right
    obtain ⟨part, hpart, hver⟩ := h.writeSnapshotPart_eq hne
    refine ⟨part, hver, ?_⟩
    have hpos : s.mem.sampleCount ≠ 0 := by
      rw [hcount]
      exact (length_pos_iff.mpr hne).ne'
    rw [flushLocked, if_neg hpos, hpart]

theorem run_append (d : Disk) (a b : List FileOp) : d.run (a ++ b) = (d.run a).run b := foldl_append

theorem run_removeSegments (d : Disk) (numbers : List Nat) :
    d.run (numbers.map .removeSegment) =
      { d with segments := d.segments.filter fun s => s.number ∉ numbers } := by
  induction numbers generalizing d with
  | nil => simp [Disk.run]
  | cons n numbers ih =>
    have hstep : d.run ((n :: numbers).map .removeSegment) =
        (FileOp.apply d (.removeSegment n)).run (numbers.map .removeSegment) := rfl
    rw [hstep, ih]
    simp [FileOp.apply, filter_filter, Bool.and_comm]

def checkpointed (segments : List Segment) : List Nat :=
  (segments.filter fun s => s.number ≤ openNumber segments).map Segment.number

theorem checkpointOps_eq (segments : List Segment) : checkpointOps segments =
    .openSegment (openNumber segments + 1) :: (checkpointed segments).map .removeSegment := by
  rw [checkpointOps, checkpointed, map_map]
  rfl

theorem run_checkpointOps_take (d : Disk) (k : Nat) :
    d.run ((checkpointOps d.segments).take (k + 1)) =
      { d with
        segments := List.filter (fun s => s.number ∉ (checkpointed d.segments).take k)
          (d.segments ++ [⟨openNumber d.segments + 1, []⟩]) } := by
  rw [checkpointOps_eq, take_succ_cons, ← map_take]
  exact run_removeSegments _ _

theorem run_checkpointOps (d : Disk) (h : SegmentsOrdered d.segments) :
    d.run (checkpointOps d.segments) = { d with segments := [⟨openNumber d.segments + 1, []⟩] } := by
  have hall : d.run (checkpointOps d.segments) =
      d.run ((checkpointOps d.segments).take ((checkpointed d.segments).length + 1)) := by
    rw [take_of_length_le]
    rw [checkpointOps_eq, length_cons, length_map]
  rw [hall, run_checkpointOps_take, take_length, filter_append]
  congr 1
  have hold : d.segments.filter (fun s => s.number ∉ checkpointed d.segments) = [] := by
    rw [filter_eq_nil_iff]
    intro t ht
    have hle := number_le_openNumber h t ht
    have : t.number ∈ checkpointed d.segments := mem_map_of_mem (mem_filter.mpr ⟨ht, by simpa using hle⟩)
    simpa using this
  have hnew : openNumber d.segments + 1 ∉ checkpointed d.segments := by
    intro hmem
    obtain ⟨t, ht, heq⟩ := mem_map.mp hmem
    have := (mem_filter.mp ht).2
    simp only [decide_eq_true_eq] at this
    omega
  rw [hold, nil_append, filter_cons_of_pos (by simpa using hnew), filter_nil]

theorem flushed_disk (s : Shard) (part : Part) (h : SegmentsOrdered s.disk.segments) :
    (s.flushed part).disk.manifest.parts = s.manifest.parts ++ [part] ∧
      (s.flushed part).disk.segments =
        if s.tombstones.isEmpty then [⟨openNumber s.disk.segments + 1, []⟩] else s.disk.segments := by
  let d := s.disk.run [.writePart part, .writeManifest (s.nextManifest (s.manifest.parts ++ [part]))]
  simp only [flushed, flushOps, run_append]
  split
  · have hd : d.run (checkpointOps s.disk.segments) =
        { d with segments := [⟨openNumber s.disk.segments + 1, []⟩] } := run_checkpointOps d h
    rw [hd]
    exact ⟨rfl, rfl⟩
  · exact ⟨rfl, rfl⟩

section
variable (hpart : ∀ v, v ∈ part.versions ↔ IsLatest s.memVersions v)
include hpart

theorem versions_flushed : (s.flushed part).versions = {v | IsLatest s.memVersions v} ∪ partVersions s.parts := by
  have hone : partVersions [part] = {v | IsLatest s.memVersions v} := by
    ext v
    simp [partVersions, hpart]
  have hmem : (s.flushed part).memVersions = ∅ := by
    ext v
    simp [flushed, memVersions, MemTable.reset, MemTable.versions]
  rw [versions, hmem, Set.empty_union, Set.union_comm, ← hone, ← partVersions_append]
  rfl

theorem versions_flushed_subset : (s.flushed part).versions ⊆ s.versions := by
  rw [versions_flushed hpart]
  exact Set.union_subset_union_left _ fun v hv => hv.1

theorem dominates_flushed : Dominates (s.flushed part).versions s.versions := by
  rw [versions_flushed hpart]
  exact Dominates.union ((dominates_isLatest s.finite_memVersions).mono_left Set.subset_union_left)
    (Dominates.of_subset Set.subset_union_right)

end

theorem Sound.visible_flushed (h : Sound opts s) (hpart : ∀ v, v ∈ part.versions ↔ IsLatest s.memVersions v)
    (v : Version) : (s.flushed part).Visible v ↔ s.Visible v := by
  rw [Visible, Visible, Lib.Visible, Lib.Visible, versions_flushed hpart]
  exact and_congr_left fun _ => isLatest_union_isLatest s.finite_memVersions h.consistent_versions v

theorem walVersions_flushed_subset (h : Sound opts s) (part : Part) :
    walVersions (s.flushed part).disk ⊆ walVersions s.disk := by
  rw [walVersions, (flushed_disk s part h.segments).2]
  split
  · simp [replayRecords, recordPoints, pointVersions]
  · exact subset_rfl

theorem Sound.flushed (h : Sound opts s) (hpart : ∀ v, v ∈ part.versions ↔ IsLatest s.memVersions v) :
    Sound opts (s.flushed part) := by
  obtain ⟨hparts, hsegments⟩ := flushed_disk s part h.segments
  have hunion : (s.flushed part).versions ∪ walVersions (s.flushed part).disk ⊆
      s.versions ∪ walVersions s.disk :=
    Set.union_subset_union (versions_flushed_subset hpart) (walVersions_flushed_subset h part)
  have hlisted : ∀ p, p ∈ s.manifest.parts ++ [part] ↔ p ∈ s.parts ++ [part] := by
    intro p
    rw [mem_append, mem_append, h.manifest]
  refine ⟨List.Pairwise.nil, rfl, hlisted, ?_, ?_, ?_, ?_, ?_, h.consistent.mono hunion,
    fun v hv => h.inRange v (hunion hv)⟩
  · rw [hparts]
    exact hlisted
  · rw [hsegments]
    split
    · simp [SegmentsOrdered]
    · exact h.segments
  · rw [hsegments]
    split
    · next ht => exact (List.isEmpty_iff.mp ht).symm
    · exact h.tombstones
  · intro v hv
    simp [Shard.flushed, memVersions, MemTable.reset, MemTable.versions] at hv
  · have hdom := (dominates_flushed hpart).trans h.stored
    exact fun v hv => hdom v (walVersions_flushed_subset h part hv)

end Shard
end Mts.Engine
