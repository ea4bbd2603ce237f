import Mts.Engine.ShardRun

/-! Crashes in the middle of a flush. Each file operation is atomic and durable in program order, so
a crash leaves a prefix of the operations of the flush; opening the directory again must show the
newest version of every write that reached the log. -/

namespace Mts.Engine
open Lib Model Sstable Wal List

namespace Shard
variable (opts : ShardOptions)

def flushFileOps (s : Shard) : List FileOp :=
  if s.mem.sampleCount = 0 then []
  else
    match s.writeSnapshotPart opts with
    | .ok (some part) => s.flushOps part
    | _ => []

/-- `OpenShard` on the directory that a crash after `k` file operations of a flush leaves. -/
def crashInFlush (s : Shard) (k : Nat) : Shard := (openShard (s.disk.run ((s.flushFileOps opts).take k))).1

/-- Calls on a shard that is not deleted from; a crash happens in the flush of a `Flush` call or in
the flush that a `WriteBatch` call ends with. -/
inductive CrashOp
  | writeBatch (points : List ResolvedPoint)
  | flush
  | crashInFlush (k : Nat)
  | crashInWrite (points : List ResolvedPoint) (k : Nat)

def crashStep (F : Type) [ScoreArith F] (env : CompactionEnv) (s : Shard) : CrashOp → Shard
  | .writeBatch points => s.step F env opts (.writeBatch points)
  | .flush => s.step F env opts .flush
  | .crashInFlush k => s.crashInFlush opts k
  | .crashInWrite points k =>
    if points.isEmpty then s
    else
      let s := s.applyBatch opts points
      if s.shouldFlushMemTable opts then s.crashInFlush opts k else s

def crashRun (F : Type) [ScoreArith F] (env : CompactionEnv) (s : Shard) (ops : List CrashOp) : Shard :=
  ops.foldl (crashStep opts F env) s

def CrashOp.points : CrashOp → List ResolvedPoint
  | writeBatch points => points
  | flush => []
  | crashInFlush _ => []
  | crashInWrite points _ => points

variable {opts} {s : Shard}

/-- Before the manifest is replaced a crash changes nothing that is read; afterwards the part is
listed and some of the old segments may be left. -/
theorem run_flushOps_take (h : Sound opts s) (ht : s.tombstones = []) (part : Part) (k : Nat) :
    ((s.disk.run ((s.flushOps part).take k)).manifest = s.disk.manifest ∧
        (s.disk.run ((s.flushOps part).take k)).segments = s.disk.segments) ∨
      ((s.disk.run ((s.flushOps part).take k)).manifest.parts = s.manifest.parts ++ [part] ∧
        ((s.disk.run ((s.flushOps part).take k)).segments.Pairwise (·.number < ·.number)) ∧
        ∀ r ∈ replayRecords (s.disk.run ((s.flushOps part).take k)).segments,
          r ∈ replayRecords s.disk.segments) := by
  let d := s.disk.run [.writePart part, .writeManifest (s.nextManifest (s.manifest.parts ++ [part]))]
  match k with
  | 0 => exact .inl ⟨rfl, rfl⟩
  | 1 => exact .inl ⟨rfl, rfl⟩
  | 2 => exact .inr ⟨rfl, h.segments.2, fun r hr => hr⟩
  | j + 3 =>
    right
    have hops : s.flushOps part = [.writePart part,
        .writeManifest (s.nextManifest (s.manifest.parts ++ [part]))] ++ checkpointOps s.disk.segments := by
      rw [flushOps, ht]
      rfl
    have hrun : s.disk.run ((s.flushOps part).take (j + 3)) =
        { d with
          segments := List.filter (fun t => t.number ∉ (checkpointed s.disk.segments).take j)
            (s.disk.segments ++ [⟨openNumber s.disk.segments + 1, []⟩]) } := by
      rw [hops]
      exact run_checkpointOps_take d j
    rw [hrun]
    refine ⟨rfl, ?_, ?_⟩
    · apply List.Pairwise.filter
      refine pairwise_append.mpr ⟨h.segments.2, pairwise_singleton .., fun a ha b hb => ?_⟩
      obtain rfl := mem_singleton.mp hb
      exact Nat.lt_succ_of_le (number_le_openNumber h.segments a ha)
    · intro r hr
      obtain ⟨t, htmem, hrt⟩ := mem_flatMap.mp hr
      rcases mem_append.mp (mem_filter.mp htmem).1 with hold | hnew
      · exact mem_flatMap.mpr ⟨t, hold, hrt⟩
      · obtain rfl := mem_singleton.mp hnew
        simp at hrt

/-- The shard holds versions of the written set `W` only, and of each key a newest one. -/
structure Acked (opts : ShardOptions) (W : Set Version) (s : Shard) : Prop where
  sound : Sound opts s
  tombstones : s.tombstones = []
  subset : s.versions ∪ walVersions s.disk ⊆ W
  dominates : Dominates s.versions W

variable {W : Set Version}

theorem Acked.visible_iff (h : Acked opts W s) (hW : Consistent W) (v : Version) : s.Visible v ↔ IsLatest W v := by
  have hsub : s.versions ⊆ W := Set.subset_union_left.trans h.subset
  rw [Visible, Lib.Visible, h.tombstones, isLatest_iff_of_dominates hsub h.dominates hW]
  exact and_iff_left (not_covered_nil v)

theorem Acked.quiet (h : Acked opts W s) (hq : Quiet opts s s') : Acked opts W s' := by
  have ht : s'.tombstones = [] := by
    rw [eq_nil_iff_forall_not_mem]
    intro t ht
    have := hq.tombstones t ht
    rw [h.tombstones] at this
    cases this
  refine ⟨hq.sound, ht, hq.subset.trans h.subset, fun e he => ?_⟩
  obtain ⟨f, hf, hkf, hsf⟩ := h.dominates e he
  obtain ⟨m, hm, hkm, hsm⟩ := exists_isLatest s.finite_versions hf
  have hvis : s.Visible m := ⟨hm, h.tombstones ▸ not_covered_nil m⟩
  exact ⟨m, ((hq.visible m).mpr hvis).1.1, hkm.trans hkf, hsf.trans hsm⟩

theorem Acked.applyBatch (h : Acked opts W s)
    (hc : Consistent (W ∪ pointVersions points)) (hr : ∀ v ∈ pointVersions points, InRange opts v) :
    Acked opts (W ∪ pointVersions points) (s.applyBatch opts points) := by
  have hwal : walVersions (s.applyBatch opts points).disk = walVersions s.disk ∪ pointVersions points :=
    walVersions_appendWal ..
  refine ⟨h.sound.applyBatch (hc.mono (Set.union_subset_union_left _ h.subset)) hr, h.tombstones, ?_, ?_⟩
  · rw [versions_applyBatch, hwal, ← Set.union_union_distrib_right]
    exact Set.union_subset_union_left _ h.subset
  · rw [versions_applyBatch]
    exact Dominates.union (h.dominates.mono_left Set.subset_union_left) (Dominates.of_subset Set.subset_union_right)

theorem acked_openShard (hsegments : d.segments.Pairwise (·.number < ·.number))
    (ht : recordTombstones (replayRecords d.segments) = [])
    (hsub : walVersions d ∪ partVersions d.manifest.parts ⊆ W)
    (hdom : Dominates (walVersions d ∪ partVersions d.manifest.parts) W) (hW : Consistent W)
    (hr : ∀ v ∈ W, InRange opts v) : Acked opts W (openShard d).1 := by
  refine ⟨sound_openShard hsegments (hW.mono hsub) fun v hv => hr v (hsub hv), ?_, ?_, ?_⟩
  · rw [tombstones_openShard, ht]
  · rw [versions_openShard, walVersions_openShard, Set.union_right_comm, Set.union_self]
    exact hsub
  · rw [versions_openShard]
    exact hdom

theorem Acked.crashInFlush (h : Acked opts W s) (hW : Consistent W) (hr : ∀ v ∈ W, InRange opts v)
    (k : Nat) : Acked opts W (s.crashInFlush opts k) := by
  by_cases hempty : s.mem.versions = []
  · have hcount : s.mem.sampleCount = 0 := by
      have := h.sound.counted
      rw [MemTable.Counted, hempty] at this
      exact this
    have hops : s.crashInFlush opts k = (openShard s.disk).1 := by
      rw [Shard.crashInFlush, flushFileOps, if_pos hcount, take_nil]
      rfl
    rw [hops]
    exact h.quiet h.sound.quiet_openShard
  · obtain ⟨part, hwrite, hpart⟩ := h.sound.writeSnapshotPart_eq hempty
    have hcount : s.mem.sampleCount ≠ 0 := by
      rw [h.sound.counted]
      exact (length_pos_iff.mpr hempty).ne'
    have hops : s.flushFileOps opts = s.flushOps part := by rw [flushFileOps, if_neg hcount, hwrite]
    rw [Shard.crashInFlush, hops]
    have htombstones : recordTombstones (replayRecords s.disk.segments) = [] := h.sound.tombstones.trans h.tombstones
    rcases run_flushOps_take h.sound h.tombstones part k with
      ⟨hmanifest, hsegments⟩ | ⟨hmanifest, hordered, hrecords⟩
    · -- the part is still an orphan: the log and the old parts are all there
      have hread : walVersions (s.disk.run ((s.flushOps part).take k)) ∪
          partVersions (s.disk.run ((s.flushOps part).take k)).manifest.parts =
            s.versions ∪ walVersions s.disk := by
        rw [hmanifest, walVersions, hsegments, ← h.sound.versions_openShard, versions_openShard]
        rfl
      refine acked_openShard ?_ ?_ (hread ▸ h.subset) (hread ▸ h.dominates.mono_left Set.subset_union_left) hW hr
      · rw [hsegments]
        exact h.sound.segments.2
      · rw [hsegments]
        exact htombstones
    · -- the part is listed: the parts alone have the newest versions
      have hparts : partVersions (s.disk.run ((s.flushOps part).take k)).manifest.parts =
          (s.flushed part).versions := by
        have hlisted := (h.sound.flushed hpart).manifest
        have hnil : (s.flushed part).memVersions = ∅ := by
          ext v
          simp [Shard.flushed, memVersions, MemTable.reset, MemTable.versions]
        rw [hmanifest, versions, hnil, Set.empty_union]
        exact partVersions_congr hlisted
      have hwal : walVersions (s.disk.run ((s.flushOps part).take k)) ⊆ walVersions s.disk := by
        rintro v ⟨p, hp, hv⟩
        obtain ⟨r, hrec, hpr⟩ := mem_flatMap.mp hp
        exact ⟨p, mem_flatMap.mpr ⟨r, hrecords r hrec, hpr⟩, hv⟩
      have hsub := versions_flushed_subset hpart
      refine acked_openShard hordered ?_ ?_ ?_ hW hr
      · rw [recordTombstones, flatMap_eq_nil_iff] at htombstones ⊢
        exact fun r hrec => htombstones r (hrecords r hrec)
      · rw [hparts]
        exact Set.union_subset (hwal.trans (Set.subset_union_right.trans h.subset))
          (hsub.trans (Set.subset_union_left.trans h.subset))
      · rw [hparts]
        exact ((dominates_flushed hpart).trans h.dominates).mono_left Set.subset_union_right

variable {F : Type} [ScoreArith F] {env : CompactionEnv}

theorem Acked.crashStep (hdisabled : opts.compaction.enabled = false) (h : Acked opts W s)
    (hc : Consistent (W ∪ pointVersions op.points))
    (hr : ∀ v ∈ W ∪ pointVersions op.points, InRange opts v) :
    Acked opts (W ∪ pointVersions op.points) (s.crashStep opts F env op) := by
  have hnone : ∀ s, Acked opts W s → Acked opts (W ∪ pointVersions []) s := by
    intro s hs
    simpa [pointVersions] using hs
  cases op with
  | writeBatch points =>
    have hbatch := h.applyBatch hc fun v hv => hr v (.inr hv)
    change Acked opts _ (s.step F env opts (.writeBatch points))
    rcases step_writeBatch F env opts s points with ⟨rfl, heq⟩ | heq | heq
    · rw [heq]
      exact hnone s h
    · rw [heq]
      exact hbatch
    · rw [heq]
      exact hbatch.quiet (hbatch.sound.quiet_flush hdisabled)
  | flush => exact hnone _ (h.quiet (h.sound.quiet_flush hdisabled))
  | crashInFlush k =>
    exact hnone _ (h.crashInFlush (hc.mono Set.subset_union_left) (fun v hv => hr v (.inl hv)) k)
  | crashInWrite points k =>
    have hbatch := h.applyBatch hc fun v hv => hr v (.inr hv)
    unfold Shard.crashStep
    dsimp only
    split
    · next hnil =>
      obtain rfl := List.isEmpty_iff.mp hnil
      exact hnone s h
    · split
      · exact hbatch.crashInFlush hc hr k
      · exact hbatch

theorem Acked.crashRun (hdisabled : opts.compaction.enabled = false)
    (h : Acked opts W s) (hc : Consistent (W ∪ pointVersions (ops.flatMap CrashOp.points)))
    (hr : ∀ v ∈ W ∪ pointVersions (ops.flatMap CrashOp.points), InRange opts v) :
    Acked opts (W ∪ pointVersions (ops.flatMap CrashOp.points)) (s.crashRun opts F env ops) := by
  induction ops generalizing s W with
  | nil => simpa [Shard.crashRun, pointVersions] using h
  | cons op ops ih =>
    rw [flatMap_cons, mem_pointVersions_append, ← Set.union_assoc] at hc hr ⊢
    exact ih (h.crashStep hdisabled (hc.mono Set.subset_union_left) fun v hv => hr v (.inl hv)) hc hr

/-- After any run of writes and flushes with crashes in the flushes, a query returns, of the columns
and times it asks for, exactly the newest version of every key that was written. -/
theorem mem_scanColumns_crashRun_iff (hdisabled : opts.compaction.enabled = false) {ops : List CrashOp}
    (hc : Consistent (pointVersions (ops.flatMap CrashOp.points)))
    (hr : ∀ v ∈ pointVersions (ops.flatMap CrashOp.points), InRange opts v)
    (q : ColumnQuery) (v : Version) :
    v ∈ Model.versions (((openShard emptyDisk).1.crashRun opts F env ops).scanColumns q) ↔
      (q.wants v.seriesID v.fieldID = true ∧ q.inWindow v.sample.timestamp = true) ∧
        IsLatest (pointVersions (ops.flatMap CrashOp.points)) v := by
  have hempty : Acked opts ∅ (openShard emptyDisk).1 := by
    apply acked_openShard
    · exact List.Pairwise.nil
    · rfl
    · simp [walVersions, pointVersions, recordPoints, replayRecords, partVersions, emptyDisk]
    · exact fun v hv => hv.elim
    · exact fun v hv => hv.elim
    · exact fun v hv => hv.elim
  have h : Acked opts (pointVersions (ops.flatMap CrashOp.points))
      ((openShard emptyDisk).1.crashRun opts F env ops) := by
    rw [← Set.empty_union (pointVersions _)] at hc hr ⊢
    exact hempty.crashRun hdisabled hc hr
  rw [mem_versions_scanColumns h.sound.distinct h.sound.consistent_versions, and_assoc, h.visible_iff hc]

/-- A crash after the manifest was written, with the log still there, and one in the next flush
between the part and the manifest. -/
def crashingOps : List CrashOp :=
  [.writeBatch [intPoint 1 5 10], .crashInFlush 3, .writeBatch [intPoint 2 5 20], .crashInFlush 1]

theorem crashingOps_scan :
    (⟨1, 1, ⟨5, 2, .int64 20⟩⟩ : Version) ∈ Model.versions
      (((openShard emptyDisk).1.crashRun fullOptions ℚ freeEnv crashingOps).scanColumns
        ⟨[], [], 0, 100⟩) := by
  have hset := pointVersions_eq (crashingOps.flatMap CrashOp.points)
  refine (mem_scanColumns_crashRun_iff rfl ?_ ?_ _ _).mpr ⟨by decide, ?_⟩
  · rw [hset]
    decide
  · rw [hset]
    simp only [Set.mem_ofPred_eq]
    decide
  · rw [hset]
    decide

end Shard
end Mts.Engine
