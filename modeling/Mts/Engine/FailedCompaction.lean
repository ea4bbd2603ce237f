import Mts.Engine.FailedFlush

/-! A compaction one of whose steps fails, `compactPartsLocked` of `engine/lifecycle.go` up to the write of the
manifest. The outputs are tracked as the code tracks them: the open writer and the parts that were opened. -/

namespace Mts.Engine
open Lib Model Sstable Wal List

namespace Faulty

variable {nextPart : Nat}

abbrev OutputFM := EStateM Unit (ShardFiles × CompactionOutput)

def onFiles {α : Type} (x : ShardM α) : OutputFM α := fun t =>
  match x t.1 with
  | .ok a w => .ok a (w, t.2)
  | .error e w => .error e (w, t.2)

def modifyOutput (g : CompactionOutput → CompactionOutput) : OutputFM PUnit := modify fun t => (t.1, g t.2)

section
variable (f : ShardFault)

def openOutput (writer : PartWriter) : OutputFM PUnit := do
  let part ← onFiles (closeWriter f writer)
  onFiles (touch f .openPart part.partMeta.path)
  modifyOutput fun o => { o with parts := o.parts ++ [part] }

def closeCurrent : OutputFM PUnit := fun t =>
  match t.2.writer with
  | none => .ok ⟨⟩ t
  | some writer => openOutput f writer (t.1, { t.2 with writer := none, currentBytes := 0 })

def rollIfNeeded (out : OutputOptions) (seriesBytes : Int64) : OutputFM PUnit := fun t =>
  if CompactionOutput.shouldRoll out t.2 seriesBytes then closeCurrent f t else .ok ⟨⟩ t

def currentWriter (out : OutputOptions) : OutputFM PartWriter := fun t =>
  match t.2.writer with
  | some writer => .ok writer t
  | none =>
    let n := if t.2.nextPart = 0 then 1 else t.2.nextPart
    onFiles (newWriter f out.dir out.level (partID n)) (t.1, { t.2 with nextPart := n + 1 })

def writeGroup (out : OutputOptions) (columns : List ColumnData) : OutputFM PUnit := do
  let writer ← currentWriter f out
  modifyOutput fun o => { o with writer := some writer }
  let writer ← onFiles (addSeries f writer columns)
  modifyOutput fun o =>
    { o with writer := some writer, currentBytes := o.currentBytes + estimateColumnsBytes columns }

def addSeriesGroup (out : OutputOptions) (columns : List ColumnData) : OutputFM PUnit := do
  onFiles (touch f .reserve out.dir)
  rollIfNeeded f out (estimateColumnsBytes columns)
  writeGroup f out columns

def addColumns (out : OutputOptions) (columns : List ColumnData) : OutputFM PUnit :=
  if columns.isEmpty then pure ⟨⟩
  else (splitLargeSeriesColumns columns out.maxOutputPartBytes).forM fun group =>
    (splitSeriesSampleWindows group maxCompactionSeriesSamples).forM (addSeriesGroup f out)

/-- The inputs are opened, then each series is read and written. -/
def writeStreamingCompactionOutputs (opts : ShardOptions) (out : OutputOptions) (inputs : List Part)
    (tombstones : List Tombstone) : OutputFM PUnit := do
  onFiles (touch f .readInput opts.dir)
  (compactionSeriesIDs opts inputs).forM fun id => do
    onFiles (touch f .readInput opts.dir)
    addColumns f out (queryCompactionSeries opts inputs tombstones id)
  closeCurrent f

def partPath (p : Part) : GoString := p.partMeta.path

/-- `cleanupCompactionOutputs`: the opened outputs are closed, then their directories removed. -/
def cleanupCompactionOutputs (parts : List Part) : ShardM PUnit := do
  parts.forM fun p => attempt (closeFiles f (partPath p))
  parts.forM fun p => attempt (removeAll f (partPath p))

def abortOutputs (o : CompactionOutput) : ShardM PUnit := do
  o.writer.toList.forM fun writer => attempt (abortWriter f writer.path)
  cleanupCompactionOutputs f o.parts

structure CompactionResult where
  shard : Shard
  files : ShardFiles
  stage : FlushEnd

def uncompactedShard (s : Shard) (w : ShardFiles) (nextPart : Nat) : Shard :=
  { s with
    disk := { s.disk with manifest := w.content }
    nextPart := nextPart }

def commitOutputs (opts : ShardOptions) (candidates : List PartMeta) (s : Shard) (o : CompactionOutput) :
    ShardM PUnit :=
  onError (writeManifest f opts.dir
    (s.nextManifest (Shard.keepUnselected candidates s.manifest.parts ++ o.parts)))
    (cleanupCompactionOutputs f o.parts)

variable {F : Type}

def outputOptions (opts : ShardOptions) (plan : CompactionPlan F) : OutputOptions :=
  ⟨opts.dir, plan.outputLevel,
    if plan.maxOutputPartBytes ≤ 0 then opts.compaction.maxOutputPartBytes else plan.maxOutputPartBytes⟩

def compactPartsLocked (opts : ShardOptions) (plan : CompactionPlan F) (s : Shard) (dirs : List GoString) :
    CompactionResult :=
  let w : ShardFiles := ⟨s.disk.manifest, dirs, [], [], []⟩
  let inputs := s.selectedParts plan.candidates
  if inputs.isEmpty then ⟨s, w, .nothing⟩
  else
    match touch f .preflight opts.dir w with
    | .error _ w => ⟨uncompactedShard s w s.nextPart, w, .failed⟩
    | .ok _ w =>
      match writeStreamingCompactionOutputs f opts (outputOptions opts plan) inputs s.tombstones
          (w, ⟨s.nextPart, none, 0, []⟩) with
      | .error _ (w, o) =>
        let w := exec (abortOutputs f o) w
        ⟨uncompactedShard s w o.nextPart, w, .failed⟩
      | .ok _ (w, o) =>
        match commitOutputs f opts plan.candidates s o w with
        | .error _ w => ⟨uncompactedShard s w o.nextPart, w, .failed⟩
        | .ok _ w => ⟨s.compacted plan.candidates o, w, .committed⟩

end

def openPaths (o : CompactionOutput) : List GoString := o.writer.toList.map PartWriter.path ++ o.parts.map partPath

def nextNumber (o : CompactionOutput) : Nat := if o.nextPart = 0 then 1 else o.nextPart

structure Running (m : Manifest) (dirs : List GoString) (dir : GoString) (w : ShardFiles)
    (o : CompactionOutput) : Prop where
  going : Going m dirs w.created (openPaths o) w
  numbered : ∀ p ∈ w.created, ∃ n < nextNumber o, p = joinPath dir (partID n)
  nodup : (openPaths o).Nodup

section
variable {f : ShardFault} {m : Manifest} {dirs : List GoString} {dir : GoString} {w : ShardFiles}
  {o : CompactionOutput} {α : Type} {w' : ShardFiles} {writer : PartWriter} {out : OutputOptions}

/-- A failure after which the code forgets a directory. -/
def Spoils (f : ShardFault) : Prop := f.step = .openPart ∨ f.step = .createDir ∧ f.late = true

/-- What failed outputs leave: all that was created is still known, or a directory is forgotten. -/
structure OutputsFailed (f : ShardFault) (m : Manifest) (dirs : List GoString)
    (t : ShardFiles × CompactionOutput) : Prop where
  content : t.1.content = m
  failed : t.1.errors ≠ []
  manifest : f.step ≠ .writeManifest
  tidy : ¬ Spoils f → t.1.Tidy dirs (openPaths t.2)
  stuck : Spoils f → ∃ p, t.1.Stuck p ∧ p ∉ openPaths t.2

theorem ends_onFiles (h : Ends (x w) Q E) :
    Ends (onFiles x (w, o)) (fun a t => Q a t.1 ∧ t.2 = o) fun t => E t.1 ∧ t.2 = o := by
  unfold onFiles
  cases hr : x w with
  | ok a w' =>
    rw [hr] at h
    exact ⟨h, rfl⟩
  | error e w' =>
    rw [hr] at h
    exact ⟨h, rfl⟩

theorem Left.outputsFailed (h : Left m dirs (openPaths o) w) (hspoils : ¬ Spoils f)
    (hstep : f.step ≠ .writeManifest) : OutputsFailed f m dirs (w, o) :=
  ⟨h.content, h.failed, hstep, fun _ => h.tidy, fun hs => absurd hs hspoils⟩

theorem Running.of_going (h : Running m dirs dir w o) (hgoing : Going m dirs w.created (openPaths o) w') :
    Running m dirs dir w' o := ⟨hgoing.created ▸ hgoing, hgoing.created ▸ h.numbered, h.nodup⟩

theorem Running.touch (h : Running m dirs dir w o) (hopen : k ≠ .openPart) (hcreate : k ≠ .createDir)
    (hmanifest : k ≠ .writeManifest) (path : GoString) :
    Ends (onFiles (touch f k path) (w, o)) (fun _ t => Running m dirs dir t.1 o ∧ t.2 = o)
      (OutputsFailed f m dirs) := by
  refine (ends_onFiles h.going.touch).mono (fun _ t ht => ⟨h.of_going ht.1, ht.2⟩) fun t ht => ?_
  obtain ⟨⟨hstep, hleft⟩, rfl⟩ := ht
  refine hleft.outputsFailed ?_ (hstep ▸ hmanifest)
  rintro (hs | ⟨hs, -⟩)
  · exact hopen (hstep.symm.trans hs)
  · exact hcreate (hstep.symm.trans hs)

theorem openPaths_of_some (hw : o.writer = some writer) : openPaths o = writer.path :: o.parts.map partPath := by
  rw [openPaths, hw]
  rfl

theorem ends_openPart (h : Going m dirs made openDirs w) (hpath : path ∈ openDirs) :
    Ends (touch f .openPart path w) (fun _ t => Going m dirs made openDirs t)
      fun t => f.step = .openPart ∧ t.content = m ∧ t.errors ≠ [] ∧ t.Stuck path := by
  have hstep := h.stepped .openPart
  refine ends_touch hstep fun hits => ⟨hits.1, hstep.content, ?_, hstep.stuck hpath _ _⟩
  exact (hstep.fail (.step .openPart path)).failed

theorem Running.openOutput (h : Running m dirs dir w o) (hw : o.writer = some writer)
    (hpart : writer.close = .ok part) :
    Ends (openOutput f writer (w, { o with writer := none, currentBytes := 0 }))
      (fun _ t => t.2 = { o with writer := none, currentBytes := 0, parts := o.parts ++ [part] } ∧
        Running m dirs dir t.1 t.2) (OutputsFailed f m dirs) := by
  have hgoing := h.going
  have hnodup := h.nodup
  have hpath : partPath part = writer.path := PartWriter.close_path hpart
  rw [openPaths_of_some hw] at hgoing hnodup
  refine Ends.bind ((ends_onFiles (hgoing.closeWriter hpart)).mono (fun _ _ ht => ht) fun t ht => ?_) fun p t ht => ?_
  · obtain ⟨w', o'⟩ := t
    obtain ⟨⟨hstep, hleft⟩, rfl⟩ := ht
    exact hleft.outputsFailed (by simp [Spoils, hstep]) (by simp [hstep])
  obtain ⟨w', o'⟩ := t
  obtain ⟨⟨rfl, hgo⟩, rfl⟩ := ht
  have hopen : partPath p ∈ writer.path :: o.parts.map partPath := hpath ▸ mem_cons_self
  refine Ends.bind ((ends_onFiles (ends_openPart hgo hopen)).mono (fun _ _ ht => ht) fun t ht => ?_) fun _ t ht => ?_
  · obtain ⟨w'', o''⟩ := t
    obtain ⟨⟨hstep, hcontent, hfailed, hstuck⟩, rfl⟩ := ht
    refine ⟨hcontent, hfailed, by simp [hstep], fun hnot => absurd (.inl hstep) hnot, fun _ => ⟨_, hstuck, ?_⟩⟩
    rw [hpath]
    exact (nodup_cons.mp hnodup).1
  · obtain ⟨w'', o''⟩ := t
    obtain ⟨hgo', rfl⟩ := ht
    have hmem : ∀ q, q ∈ writer.path :: o.parts.map partPath ↔ q ∈ (o.parts ++ [p]).map partPath := by
      intro q
      simp [hpath, or_comm]
    refine ends_modify ⟨rfl, ?_⟩
    refine ⟨hgo'.created ▸ hgo'.congr hmem, hgo'.created ▸ h.numbered, ?_⟩
    have hperm : ((o.parts ++ [p]).map partPath).Perm (writer.path :: o.parts.map partPath) := by
      rw [map_append, map_singleton, hpath]
      exact perm_append_singleton _ _
    exact hperm.nodup_iff.mpr hnodup

def Follows (f : ShardFault) (m : Manifest) (dirs : List GoString) (dir : GoString) (x : OutputM PUnit)
    (y : OutputFM PUnit) : Prop :=
  ∀ ⦃w o o'⦄, Running m dirs dir w o → x o = .ok ⟨⟩ o' →
    Ends (y (w, o)) (fun _ t => t.2 = o' ∧ Running m dirs dir t.1 t.2) (OutputsFailed f m dirs)

theorem follows_pure : Follows f m dirs dir (pure ⟨⟩) (pure ⟨⟩) := by
  intro w o o' h ho
  obtain ⟨-, rfl⟩ := exec_pure_ok ho
  exact ⟨rfl, h⟩

theorem Follows.bind (h : Follows f m dirs dir x y)
    (h' : Follows f m dirs dir x' y') : Follows f m dirs dir (do x; x') (do y; y') := by
  intro w o o' hrun ho
  obtain ⟨_, o₁, ho₁, ho'⟩ := exec_bind_ok ho
  refine Ends.bind (h hrun ho₁) fun _ t ht => ?_
  obtain ⟨rfl, hrun₁⟩ := ht
  exact h' hrun₁ ho'

theorem Follows.forM {β : Type} {x : β → OutputM PUnit} {y : β → OutputFM PUnit} (l : List β)
    (h : ∀ b ∈ l, Follows f m dirs dir (x b) (y b)) : Follows f m dirs dir (l.forM x) (l.forM y) := by
  induction l with
  | nil => exact follows_pure
  | cons b l ih =>
    exact (h b mem_cons_self).bind (ih fun b' hb => h b' (mem_cons_of_mem _ hb))

theorem follows_closeCurrent : Follows f m dirs dir CompactionOutput.closeCurrent (closeCurrent f) := by
  intro w o o' h ho
  unfold CompactionOutput.closeCurrent at ho
  unfold Faulty.closeCurrent
  cases hw : o.writer with
  | none =>
    simp only [hw] at ho
    obtain rfl : o = o' := by simpa using ho
    exact ⟨rfl, h⟩
  | some writer =>
    simp only [hw] at ho
    cases hpart : writer.close with
    | error e => simp [hpart] at ho
    | ok part =>
      simp only [hpart] at ho
      obtain rfl := by simpa using ho
      exact h.openOutput hw hpart

theorem follows_rollIfNeeded (out : OutputOptions) (seriesBytes : Int64) :
    Follows f m dirs dir (CompactionOutput.rollIfNeeded out seriesBytes) (rollIfNeeded f out seriesBytes) := by
  intro w o o' h ho
  unfold CompactionOutput.rollIfNeeded at ho
  unfold Faulty.rollIfNeeded
  split
  · next hroll => exact follows_closeCurrent h (by rwa [if_pos hroll] at ho)
  · next hroll =>
    rw [if_neg hroll] at ho
    obtain rfl : o = o' := by simpa using ho
    exact ⟨rfl, h⟩

theorem joinPath_injective (h : joinPath dir (partID n) = joinPath dir (partID k)) : n = k :=
  partID_injective (List.cons.inj (append_cancel_left h)).2

theorem Running.fresh (h : Running m dirs dir w o) : joinPath dir (partID (nextNumber o)) ∉ w.created := by
  intro hmem
  obtain ⟨n, hn, heq⟩ := h.numbered _ hmem
  exact absurd (joinPath_injective heq) (by omega)

theorem openPaths_of_none (hw : o.writer = none) : openPaths o = o.parts.map partPath := by
  rw [openPaths, hw]
  rfl

theorem Running.opened (h : Running m dirs dir w o) (hw : o.writer = none)
    (hpath : writer.path = joinPath dir (partID (nextNumber o)))
    (hgo : Going m dirs (writer.path :: w.created) (writer.path :: openPaths o) w') :
    Running m dirs dir w' { o with nextPart := nextNumber o + 1, writer := some writer } := by
  have hopen : openPaths { o with nextPart := nextNumber o + 1, writer := some writer } =
      writer.path :: openPaths o := by
    rw [openPaths_of_none hw]
    rfl
  refine ⟨?_, fun p hp => ?_, ?_⟩
  · rw [hopen, hgo.created]
    exact hgo
  · rw [hgo.created] at hp
    rcases mem_cons.mp hp with rfl | hp
    · exact ⟨nextNumber o, Nat.lt_succ_self _, hpath⟩
    · obtain ⟨n, hn, heq⟩ := h.numbered p hp
      exact ⟨n, Nat.lt_succ_of_lt hn, heq⟩
  · rw [hopen, nodup_cons]
    exact ⟨fun hmem => h.fresh (hpath ▸ h.going.tidy.opened hmem), h.nodup⟩

theorem Running.lateCreate (h : Running m dirs dir w o) (hstep : f.step = .createDir) (hlate : f.late = true) :
    OutputsFailed f m dirs (lateCreate w (joinPath dir (partID (nextNumber o))), { o with nextPart := nextPart }) := by
  have hspoils : Spoils f := .inr ⟨hstep, hlate⟩
  refine ⟨h.going.content, by simp [Faulty.lateCreate, Files.fail], by simp [hstep], fun hnot => absurd hspoils hnot,
    fun _ => ⟨_, ⟨mem_cons_self, mem_cons_self, ?_⟩, fun hmem => h.fresh (h.going.tidy.opened hmem)⟩⟩
  simp [Faulty.lateCreate, Files.fail, Files.create, Files.stepped, h.going.clean]

theorem Running.currentWriter (h : Running m dirs dir w o) (hout : out.dir = dir) :
    Ends (currentWriter f out (w, o))
      (fun writer t => writer = (o.currentWriter out).1 ∧ t.2 = { o with nextPart := (o.currentWriter out).2 } ∧
        Running m dirs dir t.1 { t.2 with writer := some writer }) (OutputsFailed f m dirs) := by
  obtain ⟨nextPart, open?, bytes, parts⟩ := o
  cases open? with
  | some writer => exact ⟨rfl, rfl, h⟩
  | none =>
    refine (ends_onFiles h.going.newWriter).mono (fun writer t ht => ?_) fun t ht => ?_
    · obtain ⟨w', o'⟩ := t
      obtain ⟨⟨rfl, hgo⟩, rfl⟩ := ht
      subst hout
      exact ⟨rfl, rfl, h.opened rfl rfl hgo⟩
    · obtain ⟨w', o'⟩ := t
      obtain ⟨ht, rfl⟩ := ht
      subst hout
      rcases ht with ⟨hstep, hlate, rfl⟩ | ⟨hearly, hmanifest, hopen, hleft⟩
      · exact h.lateCreate hstep hlate
      · refine Left.outputsFailed hleft ?_ hmanifest
        rintro (hs | ⟨hs, hlate⟩)
        · exact hopen hs
        · simp [hearly hs] at hlate

theorem follows_writeGroup (hout : out.dir = dir) (columns : List ColumnData) :
    Follows f m dirs dir (CompactionOutput.writeGroup out columns) (writeGroup f out columns) := by
  intro w o o' h ho
  unfold CompactionOutput.writeGroup at ho
  dsimp only at ho
  split at ho
  · simp at ho
  · next next hnext =>
    obtain rfl := by simpa using ho
    refine Ends.bind (h.currentWriter hout) fun writer t ht => ?_
    obtain ⟨w₁, o₁⟩ := t
    obtain ⟨rfl, rfl, hrun⟩ := ht
    change Ends ((onFiles (Faulty.addSeries f (o.currentWriter out).1 columns) >>= _) (w₁, _)) _ _
    have hpath := PartWriter.addSeries_path hnext
    refine Ends.bind ((ends_onFiles (hrun.going.addSeries hnext)).mono (fun _ _ ht => ht) fun t ht => ?_)
      fun writer t ht => ?_
    · obtain ⟨w₂, o₂⟩ := t
      obtain ⟨⟨hstep, hleft⟩, rfl⟩ := ht
      exact hleft.outputsFailed (by simp [Spoils, hstep]) (by simp [hstep])
    · obtain ⟨w₂, o₂⟩ := t
      obtain ⟨⟨rfl, hgo⟩, rfl⟩ := ht
      refine ends_modify ⟨rfl, ?_⟩
      have hopen : ∀ bytes, openPaths
            { o with nextPart := (o.currentWriter out).2, writer := some writer, currentBytes := bytes } =
          openPaths { o with nextPart := (o.currentWriter out).2, writer := some (o.currentWriter out).1 } := by
        intro bytes
        simp [openPaths, hpath]
      have hrun' := hrun.of_going hgo
      exact ⟨(hopen _).symm ▸ hrun'.going, hrun'.numbered, (hopen _).symm ▸ hrun'.nodup⟩

theorem follows_touch (hopen : k ≠ .openPart) (hcreate : k ≠ .createDir) (hmanifest : k ≠ .writeManifest)
    (path : GoString) : Follows f m dirs dir (pure ⟨⟩) (onFiles (touch f k path)) := by
  intro w o o' h ho
  obtain ⟨-, rfl⟩ := exec_pure_ok ho
  refine (h.touch hopen hcreate hmanifest path).mono (fun _ t ht => ?_) fun _ ht => ht
  obtain ⟨hrun, rfl⟩ := ht
  exact ⟨rfl, hrun⟩

variable {env : CompactionEnv} {out : OutputOptions}

section
variable (hreserve : ∀ n, env.reserveCompactionMemory n = .ok ())
include hreserve

theorem follows_addSeriesGroup (hout : out.dir = dir) (columns : List ColumnData) :
    Follows f m dirs dir (CompactionOutput.addSeriesGroup env out columns) (addSeriesGroup f out columns) := by
  have hlift : CompactionOutput.lift (env.reserveCompactionMemory (estimateColumnsBytes columns)) = pure ⟨⟩ := by
    rw [hreserve]
    rfl
  unfold CompactionOutput.addSeriesGroup
  rw [hlift]
  refine (follows_touch (by simp) (by simp) (by simp) out.dir).bind ?_
  exact (follows_rollIfNeeded out _).bind (follows_writeGroup hout columns)

theorem follows_addSeries (hout : out.dir = dir) (columns : List ColumnData) :
    Follows f m dirs dir (CompactionOutput.addSeries env out columns) (addColumns f out columns) := by
  unfold CompactionOutput.addSeries addColumns
  split
  · exact follows_pure
  · refine Follows.forM _ fun group _ => Follows.forM _ fun window _ => ?_
    exact follows_addSeriesGroup hreserve hout window

theorem follows_writeStreamingCompactionOutputs (opts : ShardOptions) (hout : out.dir = dir)
    (inputs : List Part) (tombstones : List Tombstone) :
    Follows f m dirs dir (Engine.writeStreamingCompactionOutputs env opts out inputs tombstones)
      (writeStreamingCompactionOutputs f opts out inputs tombstones) := by
  have hread : Follows f m dirs dir (pure ⟨⟩) (onFiles (touch f .readInput opts.dir)) :=
    follows_touch (by simp) (by simp) (by simp) opts.dir
  refine hread.bind (Follows.bind (Follows.forM _ fun id _ => ?_) follows_closeCurrent)
  exact hread.bind (follows_addSeries hreserve hout _)

end

end

section
variable {f : ShardFault} {m : Manifest} {dirs openDirs : List GoString} {w : ShardFiles} {path : GoString}
  {parts : List Part} {o : CompactionOutput}

theorem exec_cleanupCompactionOutputs (parts : List Part) (w : ShardFiles) :
    exec (cleanupCompactionOutputs f parts) w =
      parts.foldl (fun w p => exec (removeAll f (partPath p)) w)
        (parts.foldl (fun w p => exec (closeFiles f (partPath p)) w) w) := by
  unfold cleanupCompactionOutputs
  rw [exec_bind_of_ok (forM_attempt _ parts w), exec_of_ok (forM_attempt _ parts _)]

theorem exec_abortOutputs (o : CompactionOutput) (w : ShardFiles) :
    exec (abortOutputs f o) w = exec (cleanupCompactionOutputs f o.parts)
      (o.writer.toList.foldl (fun w writer => exec (abortWriter f writer.path) w) w) := by
  unfold abortOutputs
  rw [exec_bind_of_ok (forM_attempt _ o.writer.toList w)]

theorem Left.closeParts (h : Left m dirs openDirs w) (parts : List Part) :
    Left m dirs openDirs (parts.foldl (fun w p => exec (closeFiles f (partPath p)) w) w) := by
  induction parts generalizing w with
  | nil => exact h
  | cons p parts ih => exact ih (exec_closeFiles (Left m dirs openDirs) h (h.fail _))

theorem Left.removeParts (h : Left m dirs (parts.map partPath) w) :
    Left m dirs [] (parts.foldl (fun w p => exec (Lib.removeAll f (partPath p)) w) w) := by
  induction parts generalizing w with
  | nil => exact h
  | cons p parts ih => exact ih h.removeAll

theorem Left.cleanup (h : Left m dirs (parts.map partPath) w) :
    Left m dirs [] (exec (cleanupCompactionOutputs f parts) w) := by
  rw [exec_cleanupCompactionOutputs]
  exact (h.closeParts parts).removeParts

theorem Left.abortOutputs (h : Left m dirs (openPaths o) w) : Left m dirs [] (exec (abortOutputs f o) w) := by
  rw [exec_abortOutputs]
  refine Left.cleanup ?_
  cases hw : o.writer with
  | none => exact openPaths_of_none hw ▸ h
  | some writer => exact Left.abortWriter (openPaths_of_some hw ▸ h)

theorem stuck_closeFiles (h : w.Stuck path) (other : GoString) : (exec (closeFiles f other) w).Stuck path := by
  refine exec_closeFiles (fun w => w.Stuck path) h ⟨h.created, h.present, fun hmem => ?_⟩
  exact h.untried (by simpa [Files.fail] using hmem)

theorem stuck_cleanup (h : w.Stuck path) (hpath : path ∉ parts.map partPath) :
    (exec (cleanupCompactionOutputs f parts) w).Stuck path := by
  rw [exec_cleanupCompactionOutputs]
  have hclosed : (parts.foldl (fun w p => exec (closeFiles f (partPath p)) w) w).Stuck path :=
    List.foldlRecOn (motive := fun w => Files.Stuck w path) parts _ h fun _ hw p _ => stuck_closeFiles hw (partPath p)
  refine List.foldlRecOn (motive := fun w => Files.Stuck w path) parts _ hclosed fun _ hw p hp => ?_
  refine stuck_removeAll hw ?_
  rintro rfl
  exact hpath (mem_map_of_mem hp)

theorem stuck_abortOutputs (h : w.Stuck path) (hpath : path ∉ openPaths o) :
    (exec (abortOutputs f o) w).Stuck path := by
  rw [exec_abortOutputs]
  rw [openPaths, mem_append, not_or] at hpath
  refine stuck_cleanup ?_ hpath.2
  refine List.foldlRecOn (motive := fun w => Files.Stuck w path) _ _ h fun _ hw writer hmem => ?_
  refine stuck_removeAll (stuck_closeFiles hw _) ?_
  rintro rfl
  exact hpath.1 (mem_map_of_mem hmem)

end

section
variable (f : ShardFault) {F : Type} {env : CompactionEnv}

def plannedOutputs (opts : ShardOptions) (plan : CompactionPlan F) (s : Shard) :
    EStateM.Result CompactionError CompactionOutput PUnit :=
  Engine.writeStreamingCompactionOutputs Shard.freeEnv opts (outputOptions opts plan)
    (s.selectedParts plan.candidates) s.tombstones ⟨s.nextPart, none, 0, []⟩

def plannedManifest (plan : CompactionPlan F) (s : Shard) (o : CompactionOutput) : Manifest :=
  s.nextManifest (Shard.keepUnselected plan.candidates s.manifest.parts ++ o.parts)

/-- Nothing of the shard changed, and a directory that was created is gone or could not be removed. -/
structure CompactionUnchanged (s : Shard) (dirs : List GoString) (r : CompactionResult) : Prop where
  parts : r.shard.parts = s.parts
  manifest : r.shard.manifest = s.manifest
  tombstones : r.shard.tombstones = s.tombstones
  mem : r.shard.mem = s.mem
  disk : r.shard.disk = s.disk
  kept : ∀ p ∈ dirs, p ∈ r.files.dirs ∨ p ∈ r.files.created
  removed : ∀ p ∈ r.files.created, p ∈ r.files.dirs → .remove p ∈ r.files.errors

/-- The failing step is not the opening of an output, a late failure to create its directory, or a late failure of
the manifest write that changes the file. -/
structure OutputsKnown (opts : ShardOptions) (plan : CompactionPlan F) (s : Shard) : Prop where
  spoils : ¬ Spoils f
  manifest : f.step = .writeManifest → f.late = true → ∀ o, plannedOutputs opts plan s = .ok ⟨⟩ o →
    s.disk.manifest = plannedManifest plan s o

theorem reserve_freeEnv (n : Int64) : Shard.freeEnv.reserveCompactionMemory n = .ok () := rfl

variable {f} {opts : ShardOptions} {plan : CompactionPlan F} {s : Shard} {m : Manifest} {dirs : List GoString}
  {w : ShardFiles} {o : CompactionOutput}

theorem writer_of_closeCurrent (h : CompactionOutput.closeCurrent o = .ok ⟨⟩ o') : o'.writer = none := by
  unfold CompactionOutput.closeCurrent at h
  split at h
  · next hw =>
    obtain rfl : o = o' := by simpa using h
    exact hw
  · split at h
    · simp at h
    · obtain rfl := by simpa using h
      rfl

theorem openPaths_plannedOutputs (h : plannedOutputs opts plan s = .ok ⟨⟩ o) : openPaths o = o.parts.map partPath := by
  obtain ⟨_, o₁, -, hclose⟩ := exec_bind_ok h
  exact openPaths_of_none (writer_of_closeCurrent hclose)

variable (f opts plan) in
theorem ends_writeStreamingCompactionOutputs (hreserve : ∀ n, env.reserveCompactionMemory n = .ok ())
    (h : Going s.disk.manifest dirs [] [] w) :
    ∃ o, Engine.writeStreamingCompactionOutputs env opts (outputOptions opts plan)
        (s.selectedParts plan.candidates) s.tombstones ⟨s.nextPart, none, 0, []⟩ = .ok ⟨⟩ o ∧
      Ends (writeStreamingCompactionOutputs f opts (outputOptions opts plan) (s.selectedParts plan.candidates)
          s.tombstones (w, ⟨s.nextPart, none, 0, []⟩))
        (fun _ t => t.2 = o ∧ Running s.disk.manifest dirs opts.dir t.1 t.2)
        (OutputsFailed f s.disk.manifest dirs) := by
  obtain ⟨o, ho⟩ := writeStreamingCompactionOutputs_exists hreserve opts (outputOptions opts plan)
    (s.selectedParts plan.candidates) s.tombstones s.nextPart
  refine ⟨o, ho, follows_writeStreamingCompactionOutputs hreserve opts rfl _ _ ⟨?_, ?_, nodup_nil⟩ ho⟩
  · rw [h.created]
    exact h
  · simp [h.created]

theorem Left.unchanged_iff (h : Left m dirs [] w) :
    CompactionUnchanged s dirs ⟨uncompactedShard s w nextPart, w, .failed⟩ ↔ s.disk.manifest = m := by
  constructor
  · intro hun
    exact (h.content.symm.trans (congrArg Disk.manifest hun.disk)).symm
  · intro hm
    refine ⟨rfl, rfl, rfl, rfl, ?_, h.tidy.kept, fun p hp hd => (h.tidy.settled p hp hd).resolve_left (by simp)⟩
    rw [uncompactedShard, h.content, ← hm]

theorem outputsKnown_iff_of_step (hstep : f.step ≠ .writeManifest) : OutputsKnown f opts plan s ↔ ¬ Spoils f :=
  ⟨fun h => h.spoils, fun h => ⟨h, fun hs => absurd hs hstep⟩⟩

theorem OutputsFailed.unchanged_iff (h : OutputsFailed f s.disk.manifest dirs (w, o)) :
    CompactionUnchanged s dirs
        ⟨uncompactedShard s (exec (abortOutputs f o) w) o.nextPart, exec (abortOutputs f o) w, .failed⟩ ↔
      OutputsKnown f opts plan s := by
  rw [outputsKnown_iff_of_step h.manifest]
  by_cases hspoils : Spoils f
  · obtain ⟨p, hstuck, hpath⟩ := h.stuck hspoils
    have hleft := stuck_abortOutputs (f := f) hstuck hpath
    exact iff_of_false (fun hun => hleft.untried (hun.removed p hleft.created hleft.present)) (not_not.mpr hspoils)
  · have hleft : Left s.disk.manifest dirs (openPaths o) w := ⟨h.content, h.tidy hspoils, h.failed⟩
    exact iff_of_true (hleft.abortOutputs.unchanged_iff.mpr rfl) hspoils

theorem outputsKnown_iff_of_manifest (hstep : f.step = .writeManifest) (ho : plannedOutputs opts plan s = .ok ⟨⟩ o) :
    OutputsKnown f opts plan s ↔ s.disk.manifest = if f.late then plannedManifest plan s o else s.disk.manifest := by
  have hspoils : ¬ Spoils f := by simp [Spoils, hstep]
  cases hlate : f.late with
  | false => exact iff_of_true ⟨hspoils, fun _ hl => absurd hl (by simp [hlate])⟩ rfl
  | true =>
    constructor
    · intro h
      exact h.manifest hstep hlate o ho
    · intro h
      refine ⟨hspoils, fun _ _ o' ho' => ?_⟩
      have heq := ho.symm.trans ho'
      rw [EStateM.Result.ok.injEq] at heq
      exact heq.2 ▸ h

variable (f) in
theorem Running.commitOutputs (h : Running s.disk.manifest dirs opts.dir w o)
    (ho : plannedOutputs opts plan s = .ok ⟨⟩ o) :
    Ends (commitOutputs f opts plan.candidates s o w) (fun _ _ => True) fun t => f.step = .writeManifest ∧
      Left (if f.late then plannedManifest plan s o else s.disk.manifest) dirs [] t := by
  have hgoing := h.going
  rw [openPaths_plannedOutputs ho] at hgoing
  refine ends_onError ((hgoing.writeManifest opts.dir _).mono (fun _ _ _ => trivial) fun _ ht => ht) fun t ht => ?_
  exact ⟨ht.1, ht.2.cleanup⟩

variable (f) (opts) (plan) (s) (dirs)

/-- A compaction that fails up to the write of the manifest changes nothing exactly if the failing step is not one
after which the code forgets a directory or a replaced manifest file. -/
theorem compactPartsLocked_failed_iff (hfailed : (compactPartsLocked f opts plan s dirs).stage = .failed) :
    CompactionUnchanged s dirs (compactPartsLocked f opts plan s dirs) ↔ OutputsKnown f opts plan s := by
  have hstart : Going s.disk.manifest dirs [] [] (⟨s.disk.manifest, dirs, [], [], []⟩ : ShardFiles) :=
    going_start dirs
  revert hfailed
  unfold compactPartsLocked
  dsimp only
  split
  · simp
  · have hpre : Ends (touch f .preflight opts.dir (⟨s.disk.manifest, dirs, [], [], []⟩ : ShardFiles)) _ _ :=
      hstart.touch
    split
    · next w hrun =>
      intro _
      rw [hrun] at hpre
      obtain ⟨hstep, hleft⟩ := hpre
      rw [hleft.unchanged_iff, outputsKnown_iff_of_step (by simp [hstep])]
      exact iff_of_true rfl (by simp [Spoils, hstep])
    · next w hrun =>
      rw [hrun] at hpre
      obtain ⟨o, ho, hends⟩ := ends_writeStreamingCompactionOutputs f opts plan reserve_freeEnv hpre
      split
      · next w' o' hout =>
        intro _
        rw [hout] at hends
        exact hends.unchanged_iff
      · next w' o' hout =>
        rw [hout] at hends
        obtain ⟨rfl, hrunning⟩ := hends
        have hcommit := hrunning.commitOutputs f ho
        split
        · next w'' hend =>
          intro _
          rw [hend] at hcommit
          rw [hcommit.2.unchanged_iff, outputsKnown_iff_of_manifest hcommit.1 ho]
        · simp

variable {f opts plan s dirs}

end

def unopenedOutput : ShardFault := ⟨.openPart, 0, false, fun _ => false, fun _ => false⟩

/-- An output that was closed and cannot be opened stays on disk, though no removal failed. -/
theorem failed_compaction_leaves_output :
    let r := compactPartsLocked unopenedOutput Shard.leveledOptions Shard.leveledPlan Shard.leveledShard []
    let path := joinPath Shard.leveledOptions.dir (partID 3)
    r.stage = .failed ∧ r.files.dirs = [path] ∧ r.files.errors = [.step .openPart path] ∧
      ¬ CompactionUnchanged Shard.leveledShard [] r := by
  refine ⟨by decide +kernel, by decide +kernel, by decide +kernel, fun h => ?_⟩
  have hremoved := h.removed (joinPath Shard.leveledOptions.dir (partID 3)) (by decide +kernel) (by decide +kernel)
  exact absurd hremoved (by decide +kernel)

def unclosedOutput : ShardFault := ⟨.closePart, 0, false, fun _ => true, fun _ => true⟩

theorem failed_close_changes_nothing :
    (compactPartsLocked unclosedOutput Shard.leveledOptions Shard.leveledPlan
        Shard.leveledShard []).stage = .failed ∧
      (CompactionUnchanged Shard.leveledShard []
          (compactPartsLocked unclosedOutput Shard.leveledOptions Shard.leveledPlan Shard.leveledShard []) ↔
        OutputsKnown unclosedOutput Shard.leveledOptions Shard.leveledPlan Shard.leveledShard) := by
  have hfailed : (compactPartsLocked unclosedOutput Shard.leveledOptions Shard.leveledPlan
      Shard.leveledShard []).stage = .failed := by decide +kernel
  exact ⟨hfailed, compactPartsLocked_failed_iff _ _ _ _ _ hfailed⟩

end Faulty
end Mts.Engine
