import Mts.Engine.Compaction
import Mts.Lib.Fault

/-! A flush one of whose steps fails, `flushLocked` and `writeSnapshotPart` of `engine/shard.go` with the part
writer of `sstable/stream_write.go`. The content of the files is the manifest file. `WriteFileAtomic` fails late if
the directory cannot be synced after the rename, `MkdirAll` if the mode cannot be set. The recovery report and
what follows the commit are left out. -/

namespace Mts.Engine
open Lib Model Sstable Wal List

variable {writer last : PartWriter} {runs : List (List ColumnData)}

inductive Step
  | reserve | preflight | readInput | createDir | openFiles | addSeries | closePart | hook | openPart | writeManifest
  deriving DecidableEq

abbrev ShardFault := Fault Step GoString
abbrev ShardFiles := Files Step GoString Manifest
abbrev ShardM := FileM Step GoString Manifest

namespace Faulty

section
variable (f : ShardFault) {dir id : GoString} {order : List ColumnBuffer → List ColumnBuffer}
  {dirs : List GoString} {opts : ShardOptions} {w : ShardFiles} {s : Shard}

def refuse {α : Type} (step : Step) (path : GoString) (x : Except WriteError α) : ShardM α := fun w =>
  match x with
  | .ok a => .ok a w
  | .error _ => .error () (w.fail (.step step path))

def newWriter (dir : GoString) (level : Int) (id : GoString) : ShardM PartWriter := do
  createDir f .createDir (joinPath dir id)
  onError (touch f .openFiles (joinPath dir id)) (removeAll f (joinPath dir id))
  return newPartWriter (joinPath dir id) level id

def addSeries (writer : PartWriter) (columns : List ColumnData) : ShardM PartWriter := do
  let next ← refuse .addSeries writer.path (writer.addSeries columns)
  touch f .addSeries writer.path
  return next

def closeWriter (writer : PartWriter) : ShardM Part :=
  onError (do
    touch f .closePart writer.path
    refuse .closePart writer.path writer.close) (removeAll f writer.path)

def abortWriter (path : GoString) : ShardM PUnit := do
  attempt (closeFiles f path)
  removeAll f path

def cleanupUncommittedPart (path : GoString) : ShardM PUnit := abortWriter f path

def writeManifest (dir : GoString) (m : Manifest) : ShardM PUnit :=
  perform f .writeManifest dir fun w => { w with content := m }

def writeSnapshotPart (dir id : GoString) (runs : List (List ColumnData)) : ShardM Part := do
  let writer ← newWriter f dir 0 id
  let writer ← onError (runs.foldlM (addSeries f) writer) (abortWriter f writer.path)
  closeWriter f writer

/-- The runs of a snapshot are written to a part and the part is committed; no runs stand for
`errFlushSnapshotEmpty`. -/
def commitRuns (opts : ShardOptions) (s : Shard) : List (List ColumnData) → ShardM (Option Part)
  | [] => return none
  | runs => do
    let part ← writeSnapshotPart f opts.dir s.nextPartID.1 runs
    onError (touch f .hook part.partMeta.path) (removeAll f part.partMeta.path)
    onError (touch f .openPart part.partMeta.path) (removeAll f part.partMeta.path)
    onError (writeManifest f opts.dir (s.nextManifest (s.manifest.parts ++ [part])))
      (cleanupUncommittedPart f part.partMeta.path)
    return some part

def commitFlush (opts : ShardOptions) (s : Shard) : ShardM (Option Part) := do
  touch f .reserve opts.dir
  commitRuns f opts s (Shard.seriesRuns (s.mem.query (Shard.shardWindow opts)))

inductive FlushEnd
  | nothing | failed | committed
  deriving DecidableEq

structure FlushResult where
  shard : Shard
  files : ShardFiles
  stage : FlushEnd

/-- The shard after a flush that did not commit; `order` is the order in which the snapshot yields its buffers. -/
def restoredShard (order : List ColumnBuffer → List ColumnBuffer) (s : Shard) (w : ShardFiles) : Shard :=
  { s with
    mem := s.mem.reset.restore s.mem.sampleCount (order s.mem.columns)
    disk := { s.disk with manifest := w.content }
    nextPart := if .createDir ∈ w.steps then s.nextPartID.2 else s.nextPart }

def flushLocked (order : List ColumnBuffer → List ColumnBuffer) (opts : ShardOptions) (s : Shard)
    (dirs : List GoString) : FlushResult :=
  let w : ShardFiles := ⟨s.disk.manifest, dirs, [], [], []⟩
  if s.mem.sampleCount = 0 then ⟨s, w, .nothing⟩
  else
    match commitFlush f opts s w with
    | .error _ w => ⟨restoredShard order s w, w, .failed⟩
    | .ok none w => ⟨restoredShard order s w, w, .nothing⟩
    | .ok (some part) w => ⟨s.flushed part, w, .committed⟩

/-- Nothing failed so far: the manifest file is `m`, the directories `made` were created and those of `openDirs` are
to be removed in case of a failure. -/
structure Going (m : Manifest) (dirs made openDirs : List GoString) (w : ShardFiles) : Prop where
  content : w.content = m
  tidy : w.Tidy dirs openDirs
  created : w.created = made
  clean : w.errors = []
  present : openDirs ⊆ w.dirs

structure Left (m : Manifest) (dirs openDirs : List GoString) (w : ShardFiles) : Prop where
  content : w.content = m
  tidy : w.Tidy dirs openDirs
  failed : w.errors ≠ []

section
variable {f} {m : Manifest} {dirs made openDirs : List GoString} {w : ShardFiles} {path : GoString} {step : Step}

theorem going_start (dirs : List GoString) : Going m dirs [] [] ⟨m, dirs, [], [], []⟩ :=
  ⟨rfl, ⟨fun _ hp => .inl hp, by simp, by simp⟩, rfl, rfl, by simp⟩

section
variable (h : Going m dirs made openDirs w)
include h

theorem Going.stepped (k : Step) : Going m dirs made openDirs (w.stepped k) :=
  ⟨h.content, h.tidy.stepped k, h.created, h.clean, h.present⟩

theorem Going.fail (e : FileError Step GoString) : Left m dirs openDirs (w.fail e) :=
  ⟨h.content, h.tidy.fail e, by simp [Files.fail]⟩

theorem Going.congr (hmem : ∀ p, p ∈ openDirs ↔ p ∈ openDirs') : Going m dirs made openDirs' w :=
  ⟨h.content, h.tidy.congr hmem, h.created, h.clean, fun p hp => h.present ((hmem p).mpr hp)⟩

theorem Going.stuck (hpath : path ∈ openDirs) (k : Step) (p : GoString) : (w.fail (.step k p)).Stuck path := by
  refine ⟨h.tidy.opened hpath, h.present hpath, ?_⟩
  rw [Files.fail, h.clean]
  simp

end

theorem Left.fail (h : Left m dirs openDirs w) (e : FileError Step GoString) : Left m dirs openDirs (w.fail e) :=
  ⟨h.content, h.tidy.fail e, by simp [Files.fail]⟩

theorem Left.removeAll (h : Left m dirs (path :: openDirs) w) : Left m dirs openDirs (exec (removeAll f path) w) := by
  refine exec_removeAll (Left m dirs openDirs) ⟨h.content, h.tidy.remove, h.failed⟩ ?_
  exact ⟨h.content, h.tidy.removeFailed, by simp [Files.fail]⟩

theorem Left.abortWriter (h : Left m dirs (path :: openDirs) w) :
    Left m dirs openDirs (exec (abortWriter f path) w) := by
  refine Left.removeAll ?_
  exact exec_closeFiles (Left m dirs (path :: openDirs)) h (h.fail _)

section
variable (h : Going m dirs made openDirs w)
include h

theorem Going.touch :
    Ends (touch f step path w) (fun _ t => Going m dirs made openDirs t)
      fun t => f.step = step ∧ Left m dirs openDirs t :=
  ends_touch (h.stepped step) fun hits => ⟨hits.1, (h.stepped step).fail _⟩

theorem Going.writeManifest (dir : GoString) (next : Manifest) :
    Ends (writeManifest f dir next w) (fun _ t => Going next dirs made openDirs t)
      fun t => f.step = .writeManifest ∧ Left (if f.late then next else m) dirs openDirs t := by
  have hstep := h.stepped .writeManifest
  have hnext : Going next dirs made openDirs { w.stepped .writeManifest with content := next } :=
    ⟨rfl, hstep.tidy.setContent next, hstep.created, hstep.clean, hstep.present⟩
  refine ends_perform hnext fun hits => ⟨hits.1, ?_⟩
  cases f.late with
  | true => exact hnext.fail _
  | false => exact hstep.fail _

def lateCreate (w : ShardFiles) (path : GoString) : ShardFiles :=
  ((w.stepped .createDir).create path).fail (.step .createDir path)

theorem Going.newWriter :
    Ends (newWriter f dir level id w)
      (fun writer t => writer = newPartWriter (joinPath dir id) level id ∧
        Going m dirs (joinPath dir id :: made) (joinPath dir id :: openDirs) t)
      fun t => (f.step = .createDir ∧ f.late = true ∧ t = lateCreate w (joinPath dir id)) ∨
        (f.step = .createDir → f.late = false) ∧ f.step ≠ .writeManifest ∧ f.step ≠ .openPart ∧
          Left m dirs openDirs t := by
  have hcreated : Going m dirs (joinPath dir id :: made) (joinPath dir id :: openDirs)
      ((w.stepped .createDir).create (joinPath dir id)) :=
    ⟨h.content, (h.tidy.stepped _).create _, congrArg (joinPath dir id :: ·) h.created, h.clean,
      cons_subset_cons _ h.present⟩
  refine Ends.bind (Q := fun _ t => Going m dirs (joinPath dir id :: made) (joinPath dir id :: openDirs) t)
    (ends_perform hcreated fun hits => ?_) fun _ t ht => ?_
  · cases hlate : f.late with
    | true => exact .inl ⟨hits.1, rfl, rfl⟩
    | false => exact .inr ⟨fun _ => rfl, by simp [hits.1], by simp [hits.1], (h.stepped _).fail _⟩
  · refine Ends.bind (ends_onError ht.touch fun t ht => ?_) fun _ t ht => ends_pure ⟨rfl, ht⟩
    exact .inr ⟨by simp [ht.1], by simp [ht.1], by simp [ht.1], ht.2.removeAll⟩

theorem Going.addSeries {next : PartWriter} (hnext : writer.addSeries columns = .ok next) :
    Ends (addSeries f writer columns w) (fun n t => n = next ∧ Going m dirs made openDirs t)
      fun t => f.step = .addSeries ∧ Left m dirs openDirs t := by
  refine Ends.bind (Q := fun n t => n = next ∧ Going m dirs made openDirs t) ?_ fun n t ht => ?_
  · rw [hnext]
    exact ⟨rfl, h⟩
  · obtain ⟨rfl, ht⟩ := ht
    exact Ends.bind ht.touch fun _ t ht => ends_pure ⟨rfl, ht⟩

end

theorem Going.closeWriter (h : Going m dirs made (writer.path :: openDirs) w) (hpart : writer.close = .ok part) :
    Ends (closeWriter f writer w) (fun p t => p = part ∧ Going m dirs made (writer.path :: openDirs) t)
      fun t => f.step = .closePart ∧ Left m dirs openDirs t := by
  refine ends_onError (E := fun t => f.step = .closePart ∧ Left m dirs (writer.path :: openDirs) t) ?_
    fun t ht => ⟨ht.1, ht.2.removeAll⟩
  refine Ends.bind h.touch fun _ t ht => ?_
  rw [hpart]
  exact ⟨rfl, ht⟩

theorem Going.foldlM_addSeries (h : Going m dirs made openDirs w)
    (hlast : runs.foldlM PartWriter.addSeries writer = .ok last) :
    Ends (runs.foldlM (Faulty.addSeries f) writer w) (fun n t => n = last ∧ Going m dirs made openDirs t)
      fun t => f.step = .addSeries ∧ Left m dirs openDirs t := by
  -- the writer that is reached takes the runs that are left and ends as `last`
  refine (ends_foldlM (fun rest n t => rest.foldlM PartWriter.addSeries n = .ok last ∧ Going m dirs made openDirs t)
    ⟨hlast, h⟩ fun run rest n t ht => ?_).mono (fun n t ht => ⟨Except.ok.inj ht.1, ht.2⟩) fun _ ht => ht
  obtain ⟨hrest, ht⟩ := ht
  obtain ⟨next, hnext, hrest⟩ := except_bind_ok hrest
  exact (ht.addSeries hnext).mono (fun _ _ hn => ⟨hn.1 ▸ hrest, hn.2⟩) fun _ he => he

theorem foldlM_addSeries_path (h : runs.foldlM PartWriter.addSeries writer = .ok last) : last.path = writer.path := by
  induction runs generalizing writer with
  | nil => rw [Except.ok.inj h]
  | cons run runs ih =>
    obtain ⟨next, hnext, h⟩ := except_bind_ok h
    rw [ih h, PartWriter.addSeries_path hnext]

end

structure FlushFailed (opts : ShardOptions) (s : Shard) (dirs : List GoString) (w : ShardFiles) : Prop where
  content : if f.step = .writeManifest ∧ f.late = true then
    ∃ part, s.writeSnapshotPart opts = .ok (some part) ∧ w.content = s.nextManifest (s.manifest.parts ++ [part])
    else w.content = s.disk.manifest
  failed : w.errors ≠ []
  kept : ∀ p ∈ dirs, p ∈ w.dirs ∨ p ∈ w.created
  named : ∀ p ∈ w.created, p ∈ w.dirs → ∃ e ∈ w.errors, e.path = p

section
variable {f} {opts : ShardOptions} {s : Shard} {part : Part} {dirs : List GoString} {w : ShardFiles} {path : GoString}

theorem Left.flushFailed (h : Left s.disk.manifest dirs [] w) (hstep : f.step ≠ .writeManifest) :
    FlushFailed f opts s dirs w := by
  refine ⟨by rw [if_neg fun hm => hstep hm.1, h.content], h.failed, h.tidy.kept, fun p hp hd => ?_⟩
  exact ⟨_, (h.tidy.settled p hp hd).resolve_left (by simp), rfl⟩

theorem flushFailed_lateCreate (h : Going s.disk.manifest dirs [] [] w) (hstep : f.step = .createDir) :
    FlushFailed f opts s dirs (lateCreate w path) := by
  have htidy := ((h.tidy.stepped .createDir).create path).fail (.step .createDir path)
  refine ⟨?_, by simp [lateCreate, Files.fail], htidy.kept, fun p hp hd => ?_⟩
  · rw [if_neg (by simp [hstep])]
    exact h.content
  · rcases htidy.settled p hp hd with hmem | hr
    · obtain rfl := mem_singleton.mp hmem
      exact ⟨_, mem_append_right _ (mem_singleton_self _), rfl⟩
    · exact ⟨_, hr, rfl⟩

theorem flushFailed_manifest (hpart : s.writeSnapshotPart opts = .ok (some part)) (hstep : f.step = .writeManifest)
    (h : Left (if f.late then s.nextManifest (s.manifest.parts ++ [part]) else s.disk.manifest) dirs [path] w) :
    FlushFailed f opts s dirs (exec (cleanupUncommittedPart f path) w) := by
  have hleft := h.abortWriter (f := f)
  refine ⟨?_, hleft.failed, hleft.tidy.kept, fun p hp hd => ?_⟩
  · have hcontent := hleft.content
    cases hlate : f.late with
    | true =>
      rw [if_pos ⟨hstep, rfl⟩]
      rw [hlate] at hcontent
      exact ⟨part, hpart, hcontent⟩
    | false =>
      rw [if_neg (by simp)]
      rw [hlate] at hcontent
      exact hcontent
  · exact ⟨_, (hleft.tidy.settled p hp hd).resolve_left (by simp), rfl⟩

theorem ends_writeSnapshotPart (h : Going s.disk.manifest dirs [] [] w)
    (hlast : runs.foldlM PartWriter.addSeries (newPartWriter (joinPath dir id) 0 id) = .ok last)
    (hclose : last.close = .ok part) :
    Ends (writeSnapshotPart f dir id runs w)
      (fun p t => p = part ∧ Going s.disk.manifest dirs [joinPath dir id] [joinPath dir id] t)
      (FlushFailed f opts s dirs) := by
  have hpath : last.path = joinPath dir id := foldlM_addSeries_path hlast
  refine Ends.bind (h.newWriter.mono (fun _ _ hw => hw) fun t ht => ?_) fun writer t ht => ?_
  · rcases ht with ⟨hstep, -, rfl⟩ | ⟨-, hstep, -, ht⟩
    · exact flushFailed_lateCreate h hstep
    · exact ht.flushFailed hstep
  · obtain ⟨rfl, ht⟩ := ht
    refine Ends.bind (ends_onError (ht.foldlM_addSeries hlast) fun t ht => ?_) fun writer t ht => ?_
    · exact ht.2.abortWriter.flushFailed (by simp [ht.1])
    · obtain ⟨rfl, ht⟩ := ht
      rw [← hpath] at ht ⊢
      exact (ht.closeWriter hclose).mono (fun _ _ hp => hp) fun t ht => ht.2.flushFailed (by simp [ht.1])

theorem ends_commitRuns (h : Going s.disk.manifest dirs [] [] w) (hlast : runs.foldlM PartWriter.addSeries
      (newPartWriter (joinPath opts.dir s.nextPartID.1) 0 s.nextPartID.1) = .ok last) (hclose : last.close = .ok part)
    (hpart : s.writeSnapshotPart opts = .ok (some part)) :
    Ends (commitRuns f opts s runs w) (fun p _ => ∀ q, p = some q → q = part) (FlushFailed f opts s dirs) := by
  have hpath : part.partMeta.path = joinPath opts.dir s.nextPartID.1 := by
    rw [PartWriter.close_path hclose, foldlM_addSeries_path hlast]
    rfl
  unfold commitRuns
  split
  · exact ends_pure (by simp)
  · refine Ends.bind (ends_writeSnapshotPart h hlast hclose) fun p t ht => ?_
    obtain ⟨rfl, ht⟩ := ht
    rw [← hpath] at ht
    refine Ends.bind (ends_onError ht.touch fun t ht => ?_) fun _ t ht => ?_
    · exact ht.2.removeAll.flushFailed (by simp [ht.1])
    refine Ends.bind (ends_onError ht.touch fun t ht => ?_) fun _ t ht => ?_
    · exact ht.2.removeAll.flushFailed (by simp [ht.1])
    refine Ends.bind (ends_onError (ht.writeManifest opts.dir _) fun t ht => ?_) fun _ t ht => ends_pure (by simp)
    exact flushFailed_manifest hpart ht.1 ht.2

variable (f opts) in
theorem ends_commitFlush (h : Going s.disk.manifest dirs [] [] w) :
    Ends (commitFlush f opts s w) (fun p _ => ∀ q, p = some q → s.writeSnapshotPart opts = .ok (some q))
      (FlushFailed f opts s dirs) := by
  refine Ends.bind (h.touch.mono (fun _ _ ht => ht) fun t ht => ht.2.flushFailed (by simp [ht.1])) fun _ t ht => ?_
  by_cases hruns : Shard.seriesRuns (s.mem.query (Shard.shardWindow opts)) = []
  · rw [hruns]
    exact ends_pure (by simp)
  · obtain ⟨last, part, hlast, hclose, hpart⟩ := Shard.writeSnapshotPart_runs opts s hruns
    exact (ends_commitRuns ht hlast hclose hpart).mono (fun p t hp q hq => hp q hq ▸ hpart) fun _ ht => ht

end

/-- Nothing that a reader sees changed, no part was committed, and a directory that is left is named in the
error. -/
structure FlushUnchanged (s : Shard) (dirs : List GoString) (r : FlushResult) : Prop where
  error : r.files.errors ≠ []
  scan : ∀ q, r.shard.scanColumns q = s.scanColumns q
  parts : r.shard.parts = s.parts
  manifest : r.shard.manifest = s.manifest
  disk : r.shard.disk = s.disk
  tombstones : r.shard.tombstones = s.tombstones
  mem : MemTable.Restored s.mem r.shard.mem
  kept : ∀ p ∈ dirs, p ∈ r.files.dirs ∨ p ∈ r.files.created
  removed : ∀ p ∈ r.files.created, p ∈ r.files.dirs → ∃ e ∈ r.files.errors, e.path = p

/-- The failing step is not the sync of the directory after the rename of the manifest file, unless the file had
this content already. -/
def ManifestKept (opts : ShardOptions) (s : Shard) : Prop :=
  f.step = .writeManifest → f.late = true → ∀ part, s.writeSnapshotPart opts = .ok (some part) →
    s.disk.manifest = s.nextManifest (s.manifest.parts ++ [part])

variable {f} in
theorem FlushFailed.unchanged_iff (horder : ∀ l, (order l).Perm l) (hmem : s.mem.DistinctColumns)
    (hcount : s.mem.sampleCount ≠ 0) (h : FlushFailed f opts s dirs w) :
    FlushUnchanged s dirs ⟨restoredShard order s w, w, .failed⟩ ↔ w.content = s.disk.manifest := by
  have hrestored := MemTable.restored_of_reset hmem (horder s.mem.columns) hcount
  constructor
  · intro hun
    exact congrArg Disk.manifest hun.disk
  · intro hcontent
    refine ⟨h.failed, fun q => ?_, rfl, rfl, ?_, rfl, hrestored, h.kept, h.named⟩
    · unfold Shard.scanColumns restoredShard
      rw [hrestored.query]
    · unfold restoredShard
      rw [hcontent]

variable {f} in
theorem FlushFailed.content_iff (h : FlushFailed f opts s dirs w) :
    w.content = s.disk.manifest ↔ ManifestKept f opts s := by
  have hcontent := h.content
  split at hcontent
  · next hlate =>
    obtain ⟨part, hpart, hcontent⟩ := hcontent
    rw [hcontent]
    constructor
    · intro heq _ _ q hq
      obtain rfl : part = q := Option.some.inj (Except.ok.inj (hpart.symm.trans hq))
      exact heq.symm
    · intro hkept
      exact (hkept hlate.1 hlate.2 part hpart).symm
  · next hnot => exact iff_of_true hcontent fun hstep hlate => absurd ⟨hstep, hlate⟩ hnot

/-- A flush that fails before its part is committed leaves everything as it was exactly if the write of the
manifest does not fail after it replaced the file. -/
theorem flushLocked_failed_iff (order : List ColumnBuffer → List ColumnBuffer) (horder : ∀ l, (order l).Perm l)
    (opts : ShardOptions) (s : Shard) (hmem : s.mem.DistinctColumns) (dirs : List GoString)
    (hfailed : (flushLocked f order opts s dirs).stage = .failed) :
    FlushUnchanged s dirs (flushLocked f order opts s dirs) ↔ ManifestKept f opts s := by
  have hstart : Going s.disk.manifest dirs [] [] (⟨s.disk.manifest, dirs, [], [], []⟩ : ShardFiles) :=
    going_start dirs
  have hends := ends_commitFlush f opts hstart
  revert hfailed
  unfold flushLocked
  dsimp only
  split
  · simp
  · next hcount =>
    cases hrun : commitFlush f opts s ⟨s.disk.manifest, dirs, [], [], []⟩ with
    | ok part w => cases part <;> simp
    | error e w =>
      intro _
      rw [hrun] at hends
      exact (hends.unchanged_iff horder hmem hcount).trans hends.content_iff

end

def oneSampleShard : Shard where
  disk := ⟨⟨0, []⟩, [], []⟩
  mem := MemTable.empty.applyBatch
    [⟨[], [], [], TagMap.empty, 1, 5, 1, [⟨1, [], .int64, .int64 7⟩]⟩]
  parts := []
  manifest := ⟨0, []⟩
  tombstones := []
  nextPart := 1

def faultless : ShardFault := ⟨.writeManifest, 1, false, fun _ => false, fun _ => false⟩

def lateManifest : ShardFault := ⟨.writeManifest, 0, true, fun _ => false, fun _ => false⟩

/-- The manifest file lists a part whose directory the failed flush removed. -/
theorem failed_flush_lists_removed_part :
    let r := flushLocked lateManifest id Shard.leveledOptions oneSampleShard []
    r.stage = .failed ∧ r.files.dirs = [] ∧ r.shard.disk.manifest.parts.length = 1 ∧
      ¬ FlushUnchanged oneSampleShard [] r := by
  refine ⟨by decide, by decide, by decide, fun h => ?_⟩
  have hsequence := congrArg (fun d => d.manifest.sequence) h.disk
  exact absurd hsequence (by decide)

def brokenWriter : ShardFault := ⟨.addSeries, 0, false, fun _ => false, fun _ => true⟩

theorem failed_write_changes_nothing :
    (∀ l : List ColumnBuffer, (List.reverse l).Perm l) ∧ oneSampleShard.mem.DistinctColumns ∧
      (flushLocked brokenWriter List.reverse Shard.leveledOptions oneSampleShard []).stage = .failed ∧
      (FlushUnchanged oneSampleShard []
          (flushLocked brokenWriter List.reverse Shard.leveledOptions oneSampleShard []) ↔
        ManifestKept brokenWriter Shard.leveledOptions oneSampleShard) := by
  have hmem : oneSampleShard.mem.DistinctColumns :=
    MemTable.distinctColumns_applyBatch MemTable.distinctColumns_empty _
  have hfailed : (flushLocked brokenWriter List.reverse Shard.leveledOptions oneSampleShard []).stage = .failed := by
    decide
  exact ⟨reverse_perm, hmem, hfailed, flushLocked_failed_iff brokenWriter List.reverse reverse_perm
    Shard.leveledOptions oneSampleShard hmem [] hfailed⟩

end Faulty
end Mts.Engine
