import Mts.Engine.Compaction
import Mts.Lib.History

/-! Runs of a shard: writes, deletes, flushes, full compactions and reopens in any order. What a
query returns after a run is what the history of writes and deletes has in force. -/

namespace Mts.Engine
open Lib Model Sstable Wal List

namespace Shard

section
variable (F : Type) [ScoreArith F] (env : CompactionEnv) (opts : ShardOptions)

/-- `runCompactionCascadeLocked` with the given number of steps left. -/
def runCompactionCascade : Nat → EStateM CompactionError Shard PUnit
  | 0 => pure ⟨⟩
  | steps + 1 => fun s =>
    match nextCompactionPlan (F := F) env.directorySize (s.manifest.parts.map Part.partMeta)
        s.tombstones opts.compaction with
    | .error e => .error e s
    | .ok none => .ok ⟨⟩ s
    | .ok (some plan) =>
      if env.startCompactionPlan plan.candidateSignature then
        (compactPartsLocked env opts plan >>= fun _ => runCompactionCascade steps) s
      else .ok ⟨⟩ s

def maybeCompactLocked : EStateM CompactionError Shard PUnit :=
  if opts.compaction.enabled then runCompactionCascade F env opts opts.compaction.maxCascadeSteps
  else pure ⟨⟩

/-- `flushLocked` in the form that reports its error. -/
def flushStep : EStateM CompactionError Shard PUnit := fun s =>
  match s.flushLocked opts with
  | (s, none) => .ok ⟨⟩ s
  | (s, some e) => .error (.write e) s

def flush : EStateM CompactionError Shard PUnit := do
  flushStep opts
  maybeCompactLocked F env opts

def fullCompaction : EStateM CompactionError Shard PUnit := fun s =>
  match fullCompactionPlan (F := F) (s.manifest.parts.map Part.partMeta) s.tombstones
      opts.compaction with
  | none => .ok ⟨⟩ s
  | some plan => compactPartsLocked env opts plan s

def compactFlushed : EStateM CompactionError Shard PUnit := fun s =>
  if s.parts.length ≤ 1 && s.tombstones.isEmpty then .ok ⟨⟩ s
  else
    ((if opts.compaction.enabled then
      runCompactionCascade F env opts opts.compaction.maxCascadeSteps
      else pure ⟨⟩) >>= fun _ => fullCompaction F env opts) s

def compactWithResult : EStateM CompactionError Shard PUnit := do
  flushStep opts
  compactFlushed F env opts

def writeBatch (points : List ResolvedPoint) : EStateM CompactionError Shard PUnit := fun s =>
  if points.isEmpty then .ok ⟨⟩ s
  else
    let s := s.applyBatch opts points
    if s.shouldFlushMemTable opts then flush F env opts s else .ok ⟨⟩ s

end

variable {v : Version} {points : List ResolvedPoint}

inductive Op
  | writeBatch (points : List ResolvedPoint)
  | deleteRange (tombstone : Tombstone)
  | flush
  | compact
  | reopen

/-- The shard after an operation, also one that reported an error. -/
def step (F : Type) [ScoreArith F] (env : CompactionEnv) (opts : ShardOptions) (s : Shard) : Op → Shard
  | .writeBatch points => exec (writeBatch F env opts points) s
  | .deleteRange t => s.deleteRange opts t
  | .flush => exec (flush F env opts) s
  | .compact => exec (compactWithResult F env opts) s
  | .reopen => (openShard s.disk).1

def run (F : Type) [ScoreArith F] (env : CompactionEnv) (opts : ShardOptions) (s : Shard)
    (ops : List Op) : Shard := ops.foldl (step F env opts) s

def emptyDisk : Disk := ⟨⟨0, []⟩, [], []⟩

structure Quiet (opts : ShardOptions) (s s' : Shard) : Prop where
  sound : Sound opts s'
  subset : s'.versions ∪ walVersions s'.disk ⊆ s.versions ∪ walVersions s.disk
  tombstones : ∀ t ∈ s'.tombstones, t ∈ s.tombstones
  visible : ∀ v, s'.Visible v ↔ s.Visible v

variable {F : Type} [ScoreArith F] {env : CompactionEnv} {opts : ShardOptions} {s s' s'' : Shard}

theorem Sound.quiet (h : Sound opts s) : Quiet opts s s := ⟨h, subset_rfl, fun _ ht => ht, fun _ => Iff.rfl⟩

theorem Quiet.trans (h : Quiet opts s s') (h' : Quiet opts s' s'') : Quiet opts s s'' :=
  ⟨h'.sound, h'.subset.trans h.subset, fun t ht => h.tombstones t (h'.tombstones t ht),
    fun v => (h'.visible v).trans (h.visible v)⟩

theorem Sound.quiet_nextPart (h : Sound opts s) (n : Nat) : Quiet opts s { s with nextPart := n } :=
  ⟨⟨h.distinct, h.counted, h.manifest, h.disk, h.segments, h.tombstones, h.logged, h.stored,
    h.consistent, h.inRange⟩, subset_rfl, fun _ ht => ht, fun _ => Iff.rfl⟩

theorem Sound.quiet_openShard (h : Sound opts s) : Quiet opts s (Engine.openShard s.disk).1 where
  sound := h.openShard
  subset := by rw [walVersions_openShard, h.versions_openShard, Set.union_assoc, Set.union_self]
  tombstones t ht := by rwa [tombstones_openShard, h.tombstones] at ht
  visible := h.visible_openShard

theorem Sound.quiet_flushed (h : Sound opts s)
    (hpart : ∀ v, v ∈ part.versions ↔ IsLatest s.memVersions v) : Quiet opts s (s.flushed part) where
  sound := h.flushed hpart
  subset := Set.union_subset_union (versions_flushed_subset hpart) (walVersions_flushed_subset h part)
  tombstones _ ht := ht
  visible := h.visible_flushed hpart

theorem Sound.quiet_flushStep (h : Sound opts s) :
    ∃ s', flushStep opts s = .ok ⟨⟩ s' ∧ Quiet opts s s' ∧ s'.mem.versions = [] := by
  rcases h.flushLocked_eq with ⟨hnil, heq⟩ | ⟨part, hpart, heq⟩
  · exact ⟨s, by rw [flushStep, heq], h.quiet, hnil⟩
  · exact ⟨s.flushed part, by rw [flushStep, heq], h.quiet_flushed hpart, rfl⟩

omit [ScoreArith F] in
theorem compactPartsLocked_error
    (h : compactPartsLocked env opts plan s = .error e s') : ∃ n, s' = { s with nextPart := n } := by
  unfold compactPartsLocked at h
  dsimp only at h
  split at h
  · simp at h
  · split at h
    · obtain ⟨-, rfl⟩ : _ ∧ s = s' := by simpa using h
      exact ⟨s.nextPart, rfl⟩
    · split at h
      · next out _ =>
        obtain ⟨-, rfl⟩ : _ ∧ { s with nextPart := out.nextPart } = s' := by simpa using h
        exact ⟨_, rfl⟩
      · simp at h

omit [ScoreArith F] in
theorem Sound.quiet_compactPartsLocked (h : Sound opts s) (hmem : s.mem.versions = []) (hkept : keepUnselected plan.candidates s.parts = []) :
    Quiet opts s (exec (compactPartsLocked env opts plan) s) := by
  cases hrun : compactPartsLocked env opts plan s with
  | error e s' =>
    obtain ⟨n, rfl⟩ := compactPartsLocked_error hrun
    rw [exec_of_error hrun]
    exact h.quiet_nextPart n
  | ok _ s' =>
    rw [exec_of_ok hrun]
    rcases h.compactPartsLocked_ok hrun with ⟨-, rfl⟩ | ⟨out, rfl, hout⟩
    · exact h.quiet
    · refine ⟨h.compacted hmem hout, h.compacted_subset hmem hout, ?_, ?_⟩
      · intro t ht
        cases ht
      · refine (h.visible_compacted_iff hmem hout).mpr fun p hp => ?_
        rw [hkept] at hp
        cases hp

theorem Sound.quiet_fullCompaction (h : Sound opts s) (hmem : s.mem.versions = []) :
    Quiet opts s (exec (fullCompaction F env opts) s) := by
  cases hplan : fullCompactionPlan (F := F) (s.manifest.parts.map Part.partMeta) s.tombstones
      opts.compaction with
  | none =>
    have hrun : fullCompaction F env opts s = .ok ⟨⟩ s := by rw [fullCompaction, hplan]
    rw [exec_of_ok hrun]
    exact h.quiet
  | some plan =>
    have hrun : exec (fullCompaction F env opts) s = exec (compactPartsLocked env opts plan) s := by
      simp [exec, fullCompaction, hplan]
    rw [hrun]
    refine h.quiet_compactPartsLocked hmem ?_
    rw [keepUnselected, filter_eq_nil_iff]
    intro p hp
    have hid : p.partMeta.id ∈ plan.candidates.map PartMeta.id := by
      rw [(fullCompactionPlan_candidates hplan).1, map_map]
      exact mem_map_of_mem ((h.manifest p).mpr hp)
    simpa [selectedBy] using hid

section
variable (hdisabled : opts.compaction.enabled = false)
include hdisabled

theorem Sound.quiet_flush (h : Sound opts s) : Quiet opts s (exec (flush F env opts) s) := by
  obtain ⟨s', hflush, hquiet, -⟩ := h.quiet_flushStep
  rw [flush, exec_bind_of_ok hflush, maybeCompactLocked, if_neg (by simp [hdisabled])]
  exact hquiet

theorem Sound.quiet_compactWithResult (h : Sound opts s) : Quiet opts s (exec (compactWithResult F env opts) s) := by
  obtain ⟨s', hflush, hquiet, hmem⟩ := h.quiet_flushStep
  rw [compactWithResult, exec_bind_of_ok hflush]
  refine hquiet.trans ?_
  by_cases hnoop : (s'.parts.length ≤ 1 && s'.tombstones.isEmpty) = true
  · have hrun : compactFlushed F env opts s' = .ok ⟨⟩ s' := by rw [compactFlushed, if_pos hnoop]
    rw [exec_of_ok hrun]
    exact hquiet.sound.quiet
  · have hrun : exec (compactFlushed F env opts) s' = exec (fullCompaction F env opts) s' := by
      simp only [exec, compactFlushed, if_neg hnoop, hdisabled]
      rfl
    rw [hrun]
    exact hquiet.sound.quiet_fullCompaction hmem

end

def tombstoneKeys (t : Tombstone) (k : UInt64 × UInt32 × Int64) : Prop :=
  (t.startTime ≤ k.2.2 ∧ k.2.2 ≤ t.endTime) ∧
    idMatches t.seriesIDs k.1 = true ∧ idMatches t.fieldIDs k.2.1 = true

namespace Op

def events : Op → List (Event Version (UInt64 × UInt32 × Int64))
  | writeBatch points => (points.flatMap ResolvedPoint.versions).map .write
  | deleteRange t => [.delete (tombstoneKeys t)]
  | flush => []
  | compact => []
  | reopen => []

def writeSeqs : Op → List UInt64
  | writeBatch points => points.map ResolvedPoint.writeSeq
  | deleteRange t => [t.writeSeq]
  | flush => []
  | compact => []
  | reopen => []

/-- Points lie in the range of the shard and have one value for each of their fields. -/
def Valid (opts : ShardOptions) : Op → Prop
  | writeBatch points => ∀ p ∈ points, (opts.start ≤ p.timestamp ∧ p.timestamp ≤ opts.stop) ∧
      (p.fields.map ResolvedField.fieldID).Nodup
  | _ => True

end Op

/-- The shard shows the history, and all its sequence numbers are below those still to come. -/
structure Tracks (opts : ShardOptions) (coming : List UInt64)
    (history : List (Event Version (UInt64 × UInt32 × Int64))) (s : Shard) : Prop where
  sound : Sound opts s
  shows : Shows s.versions (Covered s.tombstones) history
  bound : ∀ q ∈ coming, ∀ v ∈ s.versions ∪ walVersions s.disk, v.sample.writeSeq < q
  tombstones : ∀ t ∈ s.tombstones, t.writeSeq ≠ 0 ∧ ∀ q ∈ coming, t.writeSeq < q

variable {coming rest : List UInt64} {history : List (Event Version (UInt64 × UInt32 × Int64))}

theorem Tracks.quiet (h : Tracks opts coming history s) (hq : Quiet opts s s') :
    Tracks opts coming history s' where
  sound := hq.sound
  shows := h.shows.congr hq.visible
  bound q hmem v hv := h.bound q hmem v (hq.subset hv)
  tombstones t ht := h.tombstones t (hq.tombstones t ht)

theorem not_covered_of_newer {tombstones : List Tombstone}
    (h : ∀ t ∈ tombstones, t.writeSeq ≠ 0 ∧ t.writeSeq < v.sample.writeSeq) : ¬ Covered tombstones v := by
  rintro ⟨t, ht, hmatch⟩
  obtain ⟨hne, hlt⟩ := h t ht
  have hle := (tombstoneMatches_iff.mp hmatch).2.1
  rw [tombstoneWriteSeq, if_neg hne] at hle
  exact UInt64.not_le.mpr hlt hle

theorem pairwise_versions (hseq : (points.map ResolvedPoint.writeSeq).Pairwise (· < ·))
    (hfields : ∀ p ∈ points, (p.fields.map ResolvedField.fieldID).Nodup) :
    (points.flatMap ResolvedPoint.versions).Pairwise fun a b : Version =>
      Versioned.key a = Versioned.key b → Versioned.seq a < Versioned.seq b := by
  rw [pairwise_flatMap]
  constructor
  · intro p hp
    have hnodup := pairwise_map.mp (hfields p hp)
    refine pairwise_map.mpr (hnodup.imp fun hne hkey => ?_)
    exact absurd (congrArg (fun k => k.2.1) hkey) hne
  · refine (pairwise_map.mp hseq).imp fun hlt a ha b hb _ => ?_
    obtain ⟨f, -, rfl⟩ := mem_map.mp ha
    obtain ⟨g, -, rfl⟩ := mem_map.mp hb
    exact UInt64.lt_iff_toNat_lt.mp hlt

theorem writeSeq_mem (hv : v ∈ points.flatMap ResolvedPoint.versions) :
    v.sample.writeSeq ∈ points.map ResolvedPoint.writeSeq := by
  obtain ⟨p, hp, hv⟩ := mem_flatMap.mp hv
  obtain ⟨f, -, rfl⟩ := mem_map.mp hv
  exact mem_map_of_mem hp

theorem pointVersions_eq (points : List ResolvedPoint) :
    pointVersions points = {v | v ∈ points.flatMap ResolvedPoint.versions} := by
  ext v
  exact mem_flatMap.symm

theorem Tracks.applyBatch (hseqs : (points.map ResolvedPoint.writeSeq ++ rest).Pairwise (· < ·))
    (h : Tracks opts (points.map ResolvedPoint.writeSeq ++ rest) history s)
    (hvalid : (Op.writeBatch points).Valid opts) :
    Tracks opts rest (history ++ (Op.writeBatch points).events) (s.applyBatch opts points) := by
  obtain ⟨hpoints, -, hlater⟩ := pairwise_append.mp hseqs
  have hnew : ∀ f ∈ points.flatMap ResolvedPoint.versions, ∀ v ∈ s.versions ∪ walVersions s.disk,
      v.sample.writeSeq < f.sample.writeSeq := fun f hf v hv =>
    h.bound _ (mem_append_left _ (writeSeq_mem hf)) v hv
  have hpair := pairwise_versions hpoints fun p hp => (hvalid p hp).2
  have hdistinct : ∀ e ∈ points.flatMap ResolvedPoint.versions,
      ∀ f ∈ points.flatMap ResolvedPoint.versions,
        e ≠ f → Versioned.key e = Versioned.key f → Versioned.seq e ≠ Versioned.seq f := by
    have hsymm : Std.Symm fun a b : Version =>
        Versioned.key a = Versioned.key b → Versioned.seq a ≠ Versioned.seq b :=
      ⟨fun a b hab hk => (hab hk.symm).symm⟩
    have hne : (points.flatMap ResolvedPoint.versions).Pairwise fun a b =>
        Versioned.key a = Versioned.key b → Versioned.seq a ≠ Versioned.seq b :=
      hpair.imp fun hab hk => (hab hk).ne
    exact fun e he f hf hef => hne.forall he hf hef
  have hconsistent : Consistent (s.versions ∪ walVersions s.disk ∪ pointVersions points) := by
    rw [pointVersions_eq]
    intro e he f hf hk hs
    have hsq : e.sample.writeSeq = f.sample.writeSeq := UInt64.toNat_inj.mp hs
    rcases he with he | he <;> rcases hf with hf | hf
    · exact h.sound.consistent e he f hf hk hs
    · exact absurd (hsq ▸ hnew f hf e he) (UInt64.lt_irrefl _)
    · exact absurd (hsq ▸ hnew e he f hf) (UInt64.lt_irrefl _)
    · by_contra hne
      exact hdistinct e he f hf hne hk hs
  have hrange : ∀ v ∈ pointVersions points, InRange opts v := by
    rintro v ⟨p, hp, hv⟩
    obtain ⟨f, -, rfl⟩ := mem_map.mp hv
    exact (hvalid p hp).1
  have hbatch : ∀ q ∈ rest, ∀ v ∈ pointVersions points, v.sample.writeSeq < q := by
    rw [pointVersions_eq]
    exact fun q hq v hv => hlater _ (writeSeq_mem hv) q hq
  refine ⟨h.sound.applyBatch hconsistent hrange, ?_, ?_, ?_⟩
  · rw [versions_applyBatch, pointVersions_eq]
    refine h.shows.writes (fun f hf g hg _ => ?_) (fun f hf => ?_) hpair
    · exact UInt64.lt_iff_toNat_lt.mp (hnew f hf g (.inl hg))
    · refine not_covered_of_newer fun t ht => ?_
      exact ⟨(h.tombstones t ht).1, (h.tombstones t ht).2 _ (mem_append_left _ (writeSeq_mem hf))⟩
  · have hwal : walVersions (s.applyBatch opts points).disk = walVersions s.disk ∪ pointVersions points :=
      walVersions_appendWal ..
    rw [versions_applyBatch, hwal, ← Set.union_union_distrib_right]
    exact fun q hq v hv => hv.elim (h.bound q (mem_append_right _ hq) v) (hbatch q hq v)
  · exact fun t ht => ⟨(h.tombstones t ht).1, fun q hq =>
      (h.tombstones t ht).2 q (mem_append_right _ hq)⟩

theorem Tracks.deleteRange (hpos : 0 < t.writeSeq) (hlater : ∀ q ∈ rest, t.writeSeq < q)
    (h : Tracks opts (t.writeSeq :: rest) history s) :
    Tracks opts rest (history ++ (Op.deleteRange t).events) (s.deleteRange opts t) := by
  have hne : t.writeSeq ≠ 0 := fun h0 => by rw [h0] at hpos; exact UInt64.lt_irrefl _ hpos
  have hmatch : ∀ v ∈ s.versions, (tombstoneMatches v.seriesID v.fieldID v.sample t = true ↔
      tombstoneKeys t (Versioned.key v)) := by
    intro v hv
    have hlt := h.bound t.writeSeq mem_cons_self v (.inl hv)
    rw [tombstoneMatches_iff, tombstoneWriteSeq, if_neg hne]
    exact and_congr_right fun _ => and_iff_right (UInt64.le_of_lt hlt)
  have hrest : Tracks opts rest history s :=
    ⟨h.sound, h.shows, fun q hq => h.bound q (mem_cons_of_mem _ hq),
      fun t ht => ⟨(h.tombstones t ht).1, fun q hq => (h.tombstones t ht).2 q (mem_cons_of_mem _ hq)⟩⟩
  have hsound := h.sound.deleteRange t
  unfold Shard.deleteRange at hsound ⊢
  split
  · next hempty =>
    -- a range that ends before it starts names no key
    refine ⟨h.sound, hrest.shows.delete fun v hv => ?_, hrest.bound, hrest.tombstones⟩
    have : ¬ tombstoneKeys t (Versioned.key v) := fun hk =>
      Int64.not_le.mpr hempty (Int64.le_trans hk.1.1 hk.1.2)
    exact (or_iff_left this).symm
  · next hnonempty =>
    rw [if_neg hnonempty] at hsound
    have hwal : walVersions (s.disk.run [.appendWal opts.wal ⟨[], [t]⟩]) = walVersions s.disk := by
      rw [walVersions_appendWal]
      simp [pointVersions]
    refine ⟨hsound, hrest.shows.delete fun v hv => ?_, ?_, ?_⟩
    · rw [covered_append, ← hmatch v hv]
      simp [Covered]
    · exact fun q hq v hv => hrest.bound q hq v (hwal ▸ hv)
    · intro u hu
      rcases mem_append.mp hu with hu | hu
      · exact hrest.tombstones u hu
      · obtain rfl := mem_singleton.mp hu
        exact ⟨hne, hlater⟩

theorem tracks_emptyDisk (opts : ShardOptions) (coming : List UInt64) :
    Tracks opts coming [] (openShard emptyDisk).1 := by
  have hversions : (openShard emptyDisk).1.versions = ∅ := by
    rw [versions_openShard]
    simp [walVersions, pointVersions, recordPoints, replayRecords, partVersions, emptyDisk]
  have hwal : walVersions (openShard emptyDisk).1.disk = ∅ := by
    rw [walVersions_openShard]
    simp [walVersions, pointVersions, recordPoints, replayRecords, emptyDisk]
  refine ⟨⟨MemTable.distinctColumns_empty, MemTable.counted_empty, fun _ => Iff.rfl, fun _ => Iff.rfl,
    segmentsOrdered_openLastSegment List.Pairwise.nil, rfl, ?_, ?_, ?_, ?_⟩, ?_, ?_, ?_⟩
  · rw [hwal, memVersions_openShard, ← walVersions_openShard, hwal]
  · rw [hwal]
    exact fun v hv => hv.elim
  · rw [hversions, hwal, Set.union_self]
    exact fun v hv => hv.elim
  · rw [hversions, hwal, Set.union_self]
    exact fun v hv => hv.elim
  · rw [hversions]
    exact fun v => iff_of_false (fun hv => hv.1.1) (not_inForce_nil v)
  · rw [hversions, hwal, Set.union_self]
    exact fun _ _ v hv => hv.elim
  · exact fun t ht => absurd ht not_mem_nil

omit [ScoreArith F] in
theorem step_writeBatch (F : Type) [ScoreArith F] (env : CompactionEnv) (opts : ShardOptions)
    (s : Shard) (points : List ResolvedPoint) :
    (points = [] ∧ s.step F env opts (.writeBatch points) = s) ∨
      s.step F env opts (.writeBatch points) = s.applyBatch opts points ∨
      s.step F env opts (.writeBatch points) = exec (Shard.flush F env opts) (s.applyBatch opts points) := by
  cases points with
  | nil => exact .inl ⟨rfl, rfl⟩
  | cons p points =>
    right
    by_cases hflush : (s.applyBatch opts (p :: points)).shouldFlushMemTable opts = true
    · right
      simp only [step, exec, writeBatch, isEmpty_cons, Bool.false_eq_true, if_false, if_pos hflush]
    · left
      simp only [step, exec, writeBatch, isEmpty_cons, Bool.false_eq_true, if_false, if_neg hflush]

theorem Tracks.step (hdisabled : opts.compaction.enabled = false)
    (hseqs : (0 :: (op.writeSeqs ++ rest)).Pairwise (· < ·))
    (h : Tracks opts (op.writeSeqs ++ rest) history s) (hvalid : op.Valid opts) :
    Tracks opts rest (history ++ op.events) (s.step F env opts op) := by
  obtain ⟨hpos, hsorted⟩ := pairwise_cons.mp hseqs
  cases op with
  | writeBatch points =>
    have hbatch := Tracks.applyBatch hsorted h hvalid
    rcases step_writeBatch F env opts s points with ⟨rfl, heq⟩ | heq | heq
    · rw [heq]
      simpa [Op.events, Op.writeSeqs] using h
    · rw [heq]
      exact hbatch
    · rw [heq]
      exact hbatch.quiet (hbatch.sound.quiet_flush hdisabled)
  | deleteRange t =>
    exact Tracks.deleteRange (hpos _ mem_cons_self) (pairwise_cons.mp hsorted).1 h
  | flush =>
    rw [Op.events, append_nil]
    exact h.quiet (h.sound.quiet_flush hdisabled)
  | compact =>
    rw [Op.events, append_nil]
    exact h.quiet (h.sound.quiet_compactWithResult hdisabled)
  | reopen =>
    rw [Op.events, append_nil]
    exact h.quiet h.sound.quiet_openShard

theorem Tracks.run (hdisabled : opts.compaction.enabled = false)
    (hseqs : (0 :: ops.flatMap Op.writeSeqs).Pairwise (· < ·))
    (h : Tracks opts (ops.flatMap Op.writeSeqs) history s) (hvalid : ∀ op ∈ ops, op.Valid opts) :
    Tracks opts [] (history ++ ops.flatMap Op.events) (s.run F env opts ops) := by
  induction ops generalizing s history with
  | nil => simpa [Shard.run] using h
  | cons op ops ih =>
    have hstep : Tracks opts (ops.flatMap Op.writeSeqs) (history ++ op.events) (s.step F env opts op) :=
      Tracks.step hdisabled hseqs h (hvalid op mem_cons_self)
    obtain ⟨hpos, hsorted⟩ := pairwise_cons.mp hseqs
    have hrest : (0 :: ops.flatMap Op.writeSeqs).Pairwise (· < ·) :=
      pairwise_cons.mpr ⟨fun q hq => hpos q (mem_append_right _ hq),
        (pairwise_append.mp hsorted).2.1⟩
    have hrun := ih hrest hstep fun op' hop => hvalid op' (mem_cons_of_mem _ hop)
    rw [flatMap_cons, ← append_assoc]
    exact hrun

/-- After any run without leveled compaction a query returns, of the columns and times it asks for,
exactly the versions that were written last at their key and not deleted later. -/
theorem mem_scanColumns_run_iff (hdisabled : opts.compaction.enabled = false) {ops : List Op}
    (hseqs : (0 :: ops.flatMap Op.writeSeqs).Pairwise (· < ·)) (hvalid : ∀ op ∈ ops, op.Valid opts)
    (q : ColumnQuery) (v : Version) :
    v ∈ Model.versions (((openShard emptyDisk).1.run F env opts ops).scanColumns q) ↔
      (q.wants v.seriesID v.fieldID = true ∧ q.inWindow v.sample.timestamp = true) ∧
        InForce (ops.flatMap Op.events) v := by
  have h : Tracks opts [] (ops.flatMap Op.events) ((openShard emptyDisk).1.run F env opts ops) :=
    Tracks.run hdisabled hseqs (tracks_emptyDisk opts _) hvalid
  rw [mem_versions_scanColumns h.sound.distinct h.sound.consistent_versions, and_assoc, Visible, h.shows v]

def fullOptions : ShardOptions :=
  { leveledOptions with compaction := { leveledOptions.compaction with enabled := false } }

def intPoint (seq : UInt64) (timestamp value : Int64) : ResolvedPoint :=
  ⟨[], [], [], .empty, 1, timestamp, seq, [⟨1, [], .int64, .int64 value⟩]⟩

/-- Two writes around a delete that covers the first, with every other operation in between. -/
def deletingOps : List Op :=
  [.writeBatch [intPoint 1 5 10], .flush, .deleteRange ⟨[1], [], 0, 5, 2⟩,
    .writeBatch [intPoint 3 6 20], .compact, .reopen, .writeBatch [intPoint 4 6 30]]

theorem deletingOps_scan :
    (⟨1, 1, ⟨6, 4, .int64 30⟩⟩ : Version) ∈ Model.versions
      (((openShard emptyDisk).1.run ℚ freeEnv fullOptions deletingOps).scanColumns ⟨[], [], 0, 100⟩) := by
  have hvalid : ∀ op ∈ deletingOps, op.Valid fullOptions := by
    simp only [deletingOps, mem_cons, not_mem_nil, or_false, forall_eq_or_imp, forall_eq,
      Op.Valid]
    decide
  refine (mem_scanColumns_run_iff rfl (by decide) hvalid _ _).mpr ⟨by decide, ?_⟩
  change InForce (deletingOps.dropLast.flatMap Op.events ++ [.write ⟨1, 1, ⟨6, 4, .int64 30⟩⟩]) _
  exact inForce_append_write.mpr (.inl rfl)

end Shard
end Mts.Engine
