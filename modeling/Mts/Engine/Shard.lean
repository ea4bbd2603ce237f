import Mts.Engine.MemTable
import Mts.Engine.Tombstone
import Mts.Engine.Planner
import Mts.Wal.Log

/-! A shard, `engine/shard.go`: the MemTable over the parts of the manifest, the tombstones, and the
directory that a reopened shard starts from. A manifest entry stands for the part directory it
names, which reads back what was written to it; part directories that no manifest lists are
`orphans`. File operations are explicit, so that a crash is a prefix of them. -/

namespace Mts.Engine
open Lib Model Sstable Wal List

structure ShardOptions where
  dir : GoString
  start : Int64
  stop : Int64
  wal : LogOptions
  memTableMaxSamples : Int
  /-- `ratio > 0` and the comparison of `DisorderRatio` with it, from the two counters. -/
  disorderReached : Nat → Nat → Bool
  memTableDisorderFlushMinSamples : Int
  compaction : CompactionOptions

structure Manifest where
  sequence : Nat
  parts : List Part

structure Disk where
  manifest : Manifest
  orphans : List Part
  segments : List Segment

inductive FileOp
  | writePart (part : Part)
  | writeManifest (manifest : Manifest)
  | removePart (part : PartMeta)
  | appendWal (opts : LogOptions) (r : Record)
  | openSegment (number : Nat)
  | removeSegment (number : Nat)

/-- A new manifest turns orphans into listed parts and the other way round. -/
def Disk.commit (d : Disk) (m : Manifest) : Disk :=
  { d with
    manifest := m
    orphans := (d.manifest.parts ++ d.orphans).filter fun p =>
      !(m.parts.map fun q => q.partMeta.id).contains p.partMeta.id }

def FileOp.apply (d : Disk) : FileOp → Disk
  | writePart part => { d with orphans := d.orphans ++ [part] }
  | writeManifest m => d.commit m
  | removePart part => { d with orphans := d.orphans.filter fun p => p.partMeta.id ≠ part.id }
  | appendWal opts r => { d with segments := appendRecord opts r d.segments }
  | openSegment number => { d with segments := d.segments ++ [⟨number, []⟩] }
  | removeSegment number => { d with segments := d.segments.filter fun s => s.number ≠ number }

def Disk.run (d : Disk) (ops : List FileOp) : Disk := ops.foldl FileOp.apply d

structure Shard where
  disk : Disk
  mem : MemTable
  parts : List Part
  manifest : Manifest
  tombstones : List Tombstone
  nextPart : Nat

def asciiBytes (s : String) : GoString := s.toList.map fun c => c.toNat.toUInt8

def decimal (n : Nat) : GoString := (Nat.toDigits 10 n).map fun c => c.toNat.toUInt8

/-- `fmt.Sprintf("sst-%06d", n)`. -/
def partID (n : Nat) : GoString := asciiBytes "sst-" ++ List.replicate (6 - (decimal n).length) 48 ++ decimal n

theorem toNat_digit_of_mem (h : c ∈ Nat.toDigits 10 n) :
    c.toNat.toUInt8.toNat = c.toNat ∧ 48 ≤ c.toNat ∧ c.toNat ≤ 57 := by
  have hdigit := Char.isDigit_iff_toNat.mp (Nat.isDigit_of_mem_toDigits (by decide) (by decide) h)
  change 48 ≤ c.toNat ∧ c.toNat ≤ 57 at hdigit
  rw [Nat.toUInt8, UInt8.toNat_ofNat', Nat.mod_eq_of_lt (by omega)]
  exact ⟨rfl, hdigit⟩

theorem foldl_decimal (n : Nat) : (decimal n).foldl (fun n b => 10 * n + (b.toNat - 48)) 0 = n := by
  rw [decimal, foldl_map]
  refine (foldl_ext _ _ 0 fun a c hc => ?_).trans (Nat.ofDigitChars_toDigits (by decide) (by decide))
  rw [(toNat_digit_of_mem hc).1]
  rfl

theorem decimal_injective : Function.Injective decimal := Function.LeftInverse.injective foldl_decimal

theorem foldl_partID (n : Nat) : ((partID n).drop 4).foldl (fun n b => 10 * n + (b.toNat - 48)) 0 = n := by
  have hzeros : ∀ k, (List.replicate k (48 : UInt8)).foldl (fun n b => 10 * n + (b.toNat - 48)) 0 = 0 := by
    intro k
    induction k with
    | zero => rfl
    | succ k ih => exact ih
  rw [show (partID n).drop 4 = List.replicate (6 - (decimal n).length) 48 ++ decimal n from rfl, foldl_append, hzeros,
    foldl_decimal]

theorem partID_injective : Function.Injective partID := by
  intro a b h
  rw [← foldl_partID a, h, foldl_partID]

/-- `fmt.Sscanf(id, "sst-%06d", &n)` on the names that `partID` makes, 0 where it fails. -/
def partNumber (id : GoString) : Nat :=
  if id.take 4 = asciiBytes "sst-" then
    (((id.drop 4).take 6).takeWhile fun b => 48 ≤ b && b ≤ 57).foldl
      (fun n b => 10 * n + (b.toNat - 48)) 0
  else 0

def isPartDirName (name : GoString) : Bool := name.take 4 = asciiBytes "sst-" && name.length = 10

def joinPath (dir name : GoString) : GoString := dir ++ 47 :: name

def normalizeManifest (m : Manifest) : Manifest :=
  { m with parts := m.parts.insertionSort fun a b =>
      a.partMeta.level < b.partMeta.level ∨
        a.partMeta.level = b.partMeta.level ∧ a.partMeta.id ≤ b.partMeta.id }

/-- The part counter after `openParts`. -/
def nextPartAfter (parts : List Part) : Nat :=
  parts.foldl (fun next p =>
    if partNumber p.partMeta.id ≥ next then partNumber p.partMeta.id + 1 else next) 0

def cleanupOrphanParts (orphans : List Part) : List Part := orphans.filter fun p => !isPartDirName p.partMeta.id

def recordPoints (records : List Record) : List ResolvedPoint := records.flatMap Record.points

def recordTombstones (records : List Record) : List Tombstone := records.flatMap Record.tombstones

def maxSeqOf (parts : List Part) (records : List Record) : UInt64 :=
  ((parts.map fun p => p.partMeta.maxWriteSeq) ++ (recordPoints records).map ResolvedPoint.writeSeq ++
    (recordTombstones records).map Tombstone.writeSeq).foldl (fun m s => if s > m then s else m) 0

def openShard (d : Disk) : Shard × UInt64 :=
  let m := normalizeManifest d.manifest
  let segments := openLastSegment d.segments
  let records := replayRecords segments
  ({ disk := ⟨d.manifest, cleanupOrphanParts d.orphans, segments⟩
     mem := MemTable.empty.applyBatch (recordPoints records)
     parts := m.parts
     manifest := m
     tombstones := recordTombstones records
     nextPart := nextPartAfter m.parts },
    maxSeqOf m.parts records)

/-- The file operations of `wal.Checkpoint`. -/
def checkpointOps (segments : List Segment) : List FileOp :=
  .openSegment (openNumber segments + 1) ::
    (segments.filter fun s => s.number ≤ openNumber segments).map fun s => .removeSegment s.number

namespace Shard
variable (opts : ShardOptions) {q : ColumnQuery}

def nextPartID (s : Shard) : GoString × Nat :=
  let n := if s.nextPart = 0 then 1 else s.nextPart
  (partID n, n + 1)

def seriesRuns : List ColumnData → List (List ColumnData)
  | [] => []
  | c :: cs =>
    match seriesRuns cs with
    | (d :: run) :: runs =>
      if c.seriesID = d.seriesID then (c :: d :: run) :: runs else [c] :: (d :: run) :: runs
    | runs => [c] :: runs

def shardWindow : ColumnQuery := ⟨[], [], opts.start, opts.stop⟩

/-- `writeSnapshotPart`; `none` stands for `errFlushSnapshotEmpty`. -/
def writeSnapshotPart (s : Shard) : Except WriteError (Option Part) :=
  match seriesRuns (s.mem.query (shardWindow opts)) with
  | [] => .ok none
  | runs => do
    let writer := newPartWriter (joinPath opts.dir s.nextPartID.1) 0 s.nextPartID.1
    let writer ← runs.foldlM PartWriter.addSeries writer
    return some (← writer.close)

def nextManifest (s : Shard) (parts : List Part) : Manifest := ⟨s.manifest.sequence + 1, parts⟩

/-- The file operations of a flush that writes `part`; a pending tombstone keeps the log. -/
def flushOps (s : Shard) (part : Part) : List FileOp :=
  [.writePart part, .writeManifest (s.nextManifest (s.manifest.parts ++ [part]))] ++
    if s.tombstones.isEmpty then checkpointOps s.disk.segments else []

def flushed (s : Shard) (part : Part) : Shard :=
  { s with
    disk := s.disk.run (s.flushOps part)
    mem := s.mem.reset
    parts := s.parts ++ [part]
    manifest := s.nextManifest (s.manifest.parts ++ [part])
    nextPart := s.nextPartID.2 }

def flushLocked (s : Shard) : Shard × Option WriteError :=
  if s.mem.sampleCount = 0 then (s, none)
  else
    match s.writeSnapshotPart opts with
    | .error e => ({ s with nextPart := s.nextPartID.2 }, some e)
    | .ok none => (s, none)
    | .ok (some part) => (s.flushed part, none)

def shouldFlushMemTable (s : Shard) : Bool :=
  if opts.memTableMaxSamples > 0 ∧ s.mem.sampleCount ≥ opts.memTableMaxSamples then true
  else
    let minSamples :=
      if opts.memTableDisorderFlushMinSamples ≤ 0 then 1024 else opts.memTableDisorderFlushMinSamples
    s.mem.appendedSamples ≥ minSamples && opts.disorderReached s.mem.outOfOrderSamples s.mem.appendedSamples

/-- The log append and the MemTable update of `WriteBatch`. -/
def applyBatch (s : Shard) (points : List ResolvedPoint) : Shard :=
  { s with
    disk := s.disk.run [.appendWal opts.wal ⟨points, []⟩]
    mem := s.mem.applyBatch points }

def deleteRange (s : Shard) (t : Tombstone) : Shard :=
  if t.endTime < t.startTime then s
  else
    { s with
      disk := s.disk.run [.appendWal opts.wal ⟨[], [t]⟩]
      tombstones := s.tombstones ++ [t] }

/-- `ScanColumns` without field predicates. -/
def scanColumns (s : Shard) (q : ColumnQuery) : List ColumnData :=
  ((mergeColumnDataStreams (s.mem.query q :: s.parts.map fun p => p.query q)).map fun c =>
    { c with samples := filterTombstonedSamples c s.tombstones }).filter fun c => !c.samples.isEmpty

def partVersions (parts : List Part) : Set Version := {v | ∃ p ∈ parts, v ∈ p.versions}

def memVersions (s : Shard) : Set Version := {v | v ∈ s.mem.versions}

def versions (s : Shard) : Set Version := s.memVersions ∪ partVersions s.parts

/-- The newest version of a key, if no tombstone hides it. -/
def Visible (s : Shard) (v : Version) : Prop := Lib.Visible s.versions (Covered s.tombstones) v

def pointVersions (points : List ResolvedPoint) : Set Version := {v | ∃ p ∈ points, v ∈ p.versions}

def walVersions (d : Disk) : Set Version := pointVersions (recordPoints (replayRecords d.segments))

theorem partVersions_append (a b : List Part) : partVersions (a ++ b) = partVersions a ∪ partVersions b := by
  ext v
  simp only [partVersions, mem_append, or_and_right, exists_or]
  rfl

theorem partVersions_congr (h : ∀ p, p ∈ a ↔ p ∈ b) : partVersions a = partVersions b := by
  ext v
  exact exists_congr fun p => and_congr_left fun _ => h p

theorem partVersions_eq (parts : List Part) : partVersions parts = {v | v ∈ parts.flatMap Part.versions} := by
  ext v
  exact mem_flatMap.symm

theorem finite_partVersions (parts : List Part) : (partVersions parts).Finite := by
  rw [partVersions_eq]
  exact finite_toSet _

theorem finite_memVersions (s : Shard) : s.memVersions.Finite := finite_toSet _

theorem finite_versions (s : Shard) : s.versions.Finite := s.finite_memVersions.union (finite_partVersions _)

theorem versions_eq (s : Shard) : s.versions = {v | v ∈ s.mem.versions ++ s.parts.flatMap Part.versions} := by
  rw [versions, partVersions_eq]
  ext v
  exact mem_append.symm

instance (s : Shard) (v : Version) : Decidable (s.Visible v) :=
  decidable_of_iff (Lib.Visible {v | v ∈ s.mem.versions ++ s.parts.flatMap Part.versions}
    (Covered s.tombstones) v) (by rw [Visible, versions_eq])

theorem scan_spec {m : MemTable} {tombstones : List Tombstone} (hd : m.DistinctColumns) (hc : Consistent ({v | v ∈ m.versions} ∪ T))
    (hsorted : SourcesSorted sources) (hT : ∀ v, (∃ source ∈ sources, v ∈ Model.versions source) ↔
      v ∈ T ∧ q.wants v.seriesID v.fieldID = true ∧ q.inWindow v.sample.timestamp = true) :
    let columns := ((mergeColumnDataStreams (m.query q :: sources)).map fun c =>
      { c with samples := filterTombstonedSamples c tombstones }).filter fun c => !c.samples.isEmpty
    (∀ v, v ∈ Model.versions columns ↔ q.wants v.seriesID v.fieldID = true ∧
      q.inWindow v.sample.timestamp = true ∧
        Lib.Visible ({v | v ∈ m.versions} ∪ T) (Covered tombstones) v) ∧
    columns.Pairwise columnLess ∧
      ∀ c ∈ columns, c.samples.Pairwise (·.timestamp < ·.timestamp) := by
  have hcm : Consistent {v | v ∈ m.versions} := hc.mono Set.subset_union_left
  let P : UInt64 × UInt32 × Int64 → Prop := fun k => q.wants k.1 k.2.1 = true ∧ q.inWindow k.2.2 = true
  have hset : {u | u ∈ Model.versions (m.query q :: sources).flatten} =
      {u | u ∈ {f | IsLatest {v | v ∈ m.versions} f} ∪ T ∧ P (Versioned.key u)} := by
    ext u
    simp only [flatten_cons, versions_append, Set.mem_ofPred_eq, mem_append,
      MemTable.mem_versions_query hd hcm, mem_versions_flatten, hT, Set.mem_union, P, Version.key_eq]
    tauto
  have hsub : {f | IsLatest {v | v ∈ m.versions} f} ∪ T ⊆ {v | v ∈ m.versions} ∪ T :=
    Set.union_subset_union_left _ fun f hf => hf.1
  have hsources : SourcesSorted (m.query q :: sources) :=
    forall_mem_cons.mpr ⟨MemTable.pairwise_columnLess_query hd q, hsorted⟩
  have hmerge := mergeColumnDataStreams_columnsMergeTo hsources (hset ▸ (hc.mono hsub).mono fun u hu => hu.1)
  refine ⟨fun v => ?_, ?_, fun c hc => ?_⟩
  · rw [mem_versions_filter_nonempty, mem_versions_filterTombstoned, hmerge.mem_iff, hset,
      isLatest_sep_iff, isLatest_union_isLatest (finite_toSet _) hc]
    simp [P, Lib.Visible, and_assoc]
  · refine List.Pairwise.filter _ (pairwise_map.mpr (hmerge.keys.imp fun {c d} hlt => ?_))
    exact hlt
  · obtain ⟨d, hd, rfl⟩ := mem_map.mp (mem_of_mem_filter hc)
    exact (hmerge.times d hd).filter _

/-- A scan returns exactly the visible versions of the columns and times asked for. -/
theorem mem_versions_scanColumns {s : Shard} (hd : s.mem.DistinctColumns) (hc : Consistent s.versions) :
    v ∈ Model.versions (s.scanColumns q) ↔ q.wants v.seriesID v.fieldID = true ∧
      q.inWindow v.sample.timestamp = true ∧ s.Visible v := by
  refine (scan_spec hd hc ?_ fun u => ?_).1 v
  · intro source hsource
    obtain ⟨p, -, rfl⟩ := mem_map.mp hsource
    exact p.pairwise_columnLess_query q
  · simp only [mem_map, exists_exists_and_eq_and, Part.mem_versions_query, partVersions, Set.mem_ofPred_eq]
    constructor
    · rintro ⟨p, hp, hu, hwin⟩
      exact ⟨⟨p, hp, hu⟩, hwin⟩
    · rintro ⟨⟨p, hp, hu⟩, hwin⟩
      exact ⟨p, hp, hu, hwin⟩

end Shard
end Mts.Engine
