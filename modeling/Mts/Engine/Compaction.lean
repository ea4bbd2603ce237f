import Mts.Engine.Flush

/-! Compaction of the parts of a plan, `engine/lifecycle.go`: the versions of each series are merged
over the selected parts, the tombstones applied, and the rest written to new parts; with the
tombstones applied, they are dropped and the log is cut. -/

namespace Mts.Engine
open Lib Model Sstable Wal List

variable {columns : List ColumnData} {v : Version} {seriesID : UInt64} {maxSamples : Nat}

inductive CompactionError
  | diskSpaceExceeded (available required : Int64)
  | write (e : WriteError)
  | dependency (message : String)
  deriving DecidableEq

/-- What the dependencies of a shard answer: sizes, free space, memory, and whether the scheduler
lets a plan start. -/
structure CompactionEnv where
  directorySize : GoString → Except CompactionError Int64
  availableBytes : Except CompactionError Int64
  reserveCompactionMemory : Int64 → Except CompactionError Unit
  startCompactionPlan : Int × List GoString → Bool

variable {env : CompactionEnv}

def maxCompactionSeriesSamples : Nat := 65536

def valueBytes : FieldValue → Int64
  | .float64 _ => 8
  | .int64 _ => 8
  | .bool _ => 1
  | .string s => Int64.ofNat s.length + 4

def estimateColumnBytes (column : ColumnData) : Int64 :=
  column.samples.foldl (fun bytes s => bytes + 16 + valueBytes s.value) 32

def estimateColumnsBytes (columns : List ColumnData) : Int64 :=
  columns.foldl (fun total c => total + estimateColumnBytes c) 0

/-- The loop of `splitLargeSeriesColumns`: `group` is `columns[start:index]`. -/
def splitColumnsLoop (targetBytes : Int64) : List ColumnData → List ColumnData → Int64 → List (List ColumnData)
  | [], group, _ => [group]
  | c :: cs, group, size =>
    if !group.isEmpty && size + estimateColumnBytes c > targetBytes then
      group :: splitColumnsLoop targetBytes cs [c] (estimateColumnBytes c)
    else splitColumnsLoop targetBytes cs (group ++ [c]) (size + estimateColumnBytes c)

def splitLargeSeriesColumns (columns : List ColumnData) (targetBytes : Int64) : List (List ColumnData) :=
  if targetBytes ≤ 0 ∨ columns.length ≤ 1 ∨ estimateColumnsBytes columns ≤ targetBytes then [columns]
  else splitColumnsLoop targetBytes columns [] 0

def sampleWindow (columns : List ColumnData) (start maxSamples : Nat) : List ColumnData :=
  (columns.map fun c => { c with samples := (c.samples.drop start).take maxSamples }).filter
    fun c => !c.samples.isEmpty

def splitSeriesSampleWindows (columns : List ColumnData) (maxSamples : Nat) : List (List ColumnData) :=
  let count := (columns.map fun c => c.samples.length).foldl max 0
  if maxSamples = 0 ∨ columns.isEmpty ∨ count ≤ maxSamples then [columns]
  else ((List.range ((count + maxSamples - 1) / maxSamples)).map fun i =>
    sampleWindow columns (i * maxSamples) maxSamples).filter fun w => !w.isEmpty

structure CompactionOutput where
  nextPart : Nat
  writer : Option PartWriter
  currentBytes : Int64
  parts : List Part

variable {o o' : CompactionOutput}

abbrev OutputM := EStateM CompactionError CompactionOutput

structure OutputOptions where
  dir : GoString
  level : Int
  maxOutputPartBytes : Int64

namespace CompactionOutput

def lift {α : Type} (x : Except CompactionError α) : OutputM α := fun o =>
  match x with
  | .ok a => .ok a o
  | .error e => .error e o

def shouldRoll (out : OutputOptions) (o : CompactionOutput) (seriesBytes : Int64) : Bool :=
  out.maxOutputPartBytes > 0 && o.writer.isSome && o.currentBytes > 0 &&
    o.currentBytes + seriesBytes > out.maxOutputPartBytes

def closeCurrent : OutputM PUnit := fun o =>
  match o.writer with
  | none => .ok ⟨⟩ o
  | some w =>
    match w.close with
    | .error e => .error (.write e) { o with writer := none, currentBytes := 0 }
    | .ok part => .ok ⟨⟩ { o with writer := none, currentBytes := 0, parts := o.parts ++ [part] }

def currentWriter (out : OutputOptions) (o : CompactionOutput) : PartWriter × Nat :=
  match o.writer with
  | some w => (w, o.nextPart)
  | none =>
    let n := if o.nextPart = 0 then 1 else o.nextPart
    (newPartWriter (joinPath out.dir (partID n)) out.level (partID n), n + 1)

def writeGroup (out : OutputOptions) (columns : List ColumnData) : OutputM PUnit := fun o =>
  let (w, nextPart) := o.currentWriter out
  match w.addSeries columns with
  | .error e => .error (.write e) { o with writer := some w, nextPart := nextPart }
  | .ok w =>
    .ok ⟨⟩ { o with
      writer := some w
      nextPart := nextPart
      currentBytes := o.currentBytes + estimateColumnsBytes columns }

def rollIfNeeded (out : OutputOptions) (seriesBytes : Int64) : OutputM PUnit := fun o =>
  if shouldRoll out o seriesBytes then closeCurrent o else .ok ⟨⟩ o

def addSeriesGroup (env : CompactionEnv) (out : OutputOptions) (columns : List ColumnData) : OutputM PUnit := do
  lift (env.reserveCompactionMemory (estimateColumnsBytes columns))
  rollIfNeeded out (estimateColumnsBytes columns)
  writeGroup out columns

def addSeries (env : CompactionEnv) (out : OutputOptions) (columns : List ColumnData) : OutputM PUnit :=
  if columns.isEmpty then pure ⟨⟩
  else (splitLargeSeriesColumns columns out.maxOutputPartBytes).forM fun group =>
    (splitSeriesSampleWindows group maxCompactionSeriesSamples).forM (addSeriesGroup env out)

end CompactionOutput

variable {out : OutputOptions}

def compactSortedSeriesIDs : List UInt64 → List UInt64
  | a :: b :: ids =>
    if a = b then compactSortedSeriesIDs (b :: ids) else a :: compactSortedSeriesIDs (b :: ids)
  | ids => ids

def compactionSeriesIDs (opts : ShardOptions) (inputs : List Part) : List UInt64 :=
  compactSortedSeriesIDs <|
    (inputs.flatMap fun p => (p.query (Shard.shardWindow opts)).map ColumnData.seriesID).insertionSort (· ≤ ·)

def queryCompactionSeries (opts : ShardOptions) (inputs : List Part) (tombstones : List Tombstone)
    (seriesID : UInt64) : List ColumnData :=
  applyTombstones (mergeColumnData (inputs.flatMap fun p => p.query ⟨[seriesID], [], opts.start, opts.stop⟩))
    tombstones

def writeStreamingCompactionOutputs (env : CompactionEnv) (opts : ShardOptions) (out : OutputOptions)
    (inputs : List Part) (tombstones : List Tombstone) : OutputM PUnit := do
  (compactionSeriesIDs opts inputs).forM fun id =>
    CompactionOutput.addSeries env out (queryCompactionSeries opts inputs tombstones id)
  CompactionOutput.closeCurrent

theorem splitColumnsLoop_flatten (targetBytes : Int64) (columns group : List ColumnData)
    (size : Int64) : (splitColumnsLoop targetBytes columns group size).flatten = group ++ columns := by
  induction columns generalizing group size with
  | nil => simp [splitColumnsLoop]
  | cons c cs ih =>
    rw [splitColumnsLoop]
    split
    · rw [flatten_cons, ih]
      rfl
    · rw [ih, append_assoc]
      rfl

theorem splitLargeSeriesColumns_flatten (columns : List ColumnData) (targetBytes : Int64) :
    (splitLargeSeriesColumns columns targetBytes).flatten = columns := by
  unfold splitLargeSeriesColumns
  split
  · simp
  · rw [splitColumnsLoop_flatten, nil_append]

theorem mem_versions_sampleWindow :
    v ∈ versions (sampleWindow columns start maxSamples) ↔ ∃ c ∈ columns, c.seriesID = v.seriesID ∧
      c.fieldID = v.fieldID ∧ v.sample ∈ (c.samples.drop start).take maxSamples := by
  rw [sampleWindow, mem_versions_filter_nonempty]
  simp

theorem length_le_foldl_max (hc : c ∈ columns) :
    c.samples.length ≤ (columns.map fun c => c.samples.length).foldl max 0 := by
  have hle : ∀ (ns : List Nat) (m : Nat), m ≤ ns.foldl max m ∧ ∀ n ∈ ns, n ≤ ns.foldl max m := by
    intro ns
    induction ns with
    | nil => simp
    | cons n ns ih =>
      intro m
      obtain ⟨h1, h2⟩ := ih (max m n)
      refine ⟨(le_max_left m n).trans h1, fun k hk => ?_⟩
      rcases mem_cons.mp hk with rfl | hk
      · exact (le_max_right m k).trans h1
      · exact h2 k hk
  exact (hle _ 0).2 _ (mem_map_of_mem hc)

theorem mem_versions_splitSeriesSampleWindows :
    v ∈ versions (splitSeriesSampleWindows columns maxSamples).flatten ↔ v ∈ versions columns := by
  unfold splitSeriesSampleWindows
  dsimp only
  split
  · simp
  · next h =>
    let count := (columns.map fun c => c.samples.length).foldl max 0
    have hmax : 0 < maxSamples := Nat.pos_of_ne_zero fun h0 => h (.inl h0)
    have hcount : count ≤ (count + maxSamples - 1) / maxSamples * maxSamples := by
      have := Nat.div_add_mod (count + maxSamples - 1) maxSamples
      have := Nat.mod_lt (count + maxSamples - 1) hmax
      have := Nat.mul_comm maxSamples ((count + maxSamples - 1) / maxSamples)
      omega
    rw [flatten_filter_not_isEmpty]
    simp only [mem_versions_flatten, mem_map, mem_range, exists_exists_and_eq_and, mem_versions_sampleWindow]
    simp only [mem_versions, ColumnData.mem_versions]
    constructor
    · rintro ⟨i, -, c, hc, hs, hf, hx⟩
      exact ⟨c, hc, hs, hf, mem_of_mem_drop (mem_of_mem_take hx)⟩
    · rintro ⟨c, hc, hs, hf, hx⟩
      obtain ⟨i, hi, hx⟩ := (mem_iff_mem_window ((length_le_foldl_max hc).trans hcount) v.sample).mp hx
      exact ⟨i, hi, c, hc, hs, hf, hx⟩

namespace CompactionOutput

def collected (o : CompactionOutput) : Set Version :=
  {v | (∃ w ∈ o.writer, v ∈ w.versions) ∨ ∃ p ∈ o.parts, v ∈ p.versions}

structure Adds (S : Set Version) (o o' : CompactionOutput) : Prop where
  collected : o'.collected = o.collected ∪ S
  bounds : (∀ w ∈ o.writer, w.BoundsSeqs) ∧ (∀ p ∈ o.parts, p.BoundsSeqs) →
    (∀ w ∈ o'.writer, w.BoundsSeqs) ∧ ∀ p ∈ o'.parts, p.BoundsSeqs

theorem Adds.refl (o : CompactionOutput) : Adds ∅ o o := ⟨(Set.union_empty _).symm, id⟩

theorem Adds.trans (h : Adds S o o') (h' : Adds T o' o'') :
    Adds (S ∪ T) o o'' := ⟨by rw [h'.collected, h.collected, Set.union_assoc], h'.bounds ∘ h.bounds⟩

theorem closeCurrent_ok (h : closeCurrent o = .ok ⟨⟩ o') : Adds ∅ o o' ∧ o'.writer = none := by
  unfold closeCurrent at h
  split at h
  · next hw =>
    obtain rfl : o = o' := by simpa using h
    exact ⟨.refl o, hw⟩
  · next w hw =>
    split at h
    · simp at h
    · next part hclose =>
      obtain rfl := by simpa using h
      refine ⟨⟨?_, fun hb => ⟨by simp, forall_mem_append.mpr ⟨hb.2, ?_⟩⟩⟩, rfl⟩
      · ext v
        simp [collected, hw, PartWriter.close_ok hclose, or_comm]
      · simpa using (hb.1 w hw).close hclose

theorem currentWriter_versions (out : OutputOptions) (o : CompactionOutput) (v : Version) :
    v ∈ (o.currentWriter out).1.versions ↔ ∃ w ∈ o.writer, v ∈ w.versions := by
  unfold currentWriter
  split
  · next w hw => simp [hw]
  · next hw => simp [hw, newPartWriter, PartWriter.versions, rowVersions]

theorem currentWriter_bounds (out : OutputOptions) (h : ∀ w ∈ o.writer, w.BoundsSeqs) :
    (o.currentWriter out).1.BoundsSeqs := by
  unfold currentWriter
  split
  · next w hw => exact h w hw
  · simp [PartWriter.BoundsSeqs, newPartWriter, PartWriter.versions, rowVersions]

theorem writeGroup_ok (h : writeGroup out columns o = .ok ⟨⟩ o') : Adds {v | v ∈ versions columns} o o' := by
  unfold writeGroup at h
  dsimp only at h
  split at h
  · simp at h
  · next w hadd =>
    obtain rfl := by simpa using h
    refine ⟨?_, fun hb => ⟨by simpa using (currentWriter_bounds out hb.1).addSeries hadd, hb.2⟩⟩
    ext v
    have := PartWriter.addSeries_ok hadd v
    rw [currentWriter_versions] at this
    simp only [collected, Option.mem_def, Option.some.injEq, exists_eq_left', Set.mem_union,
      Set.mem_ofPred_eq] at this ⊢
    rw [this]
    exact or_right_comm

theorem lift_ok {α : Type} {x : Except CompactionError α} {a : α} (h : lift x o = .ok a o') : o = o' := by
  unfold lift at h
  split at h
  · exact (by simpa using h : _ ∧ _).2
  · simp at h

theorem addSeriesGroup_ok (h : addSeriesGroup env out columns o = .ok ⟨⟩ o') :
    Adds {v | v ∈ versions columns} o o' := by
  obtain ⟨_, o₁, hlift, h⟩ := exec_bind_ok h
  obtain rfl := lift_ok hlift
  obtain ⟨_, o₂, hroll, h⟩ := exec_bind_ok h
  have hkeep : Adds ∅ o o₂ := by
    unfold rollIfNeeded at hroll
    split at hroll
    · exact (closeCurrent_ok hroll).1
    · obtain rfl : o = o₂ := by simpa using hroll
      exact .refl o
  simpa using hkeep.trans (writeGroup_ok h)

theorem addSeries_ok (h : addSeries env out columns o = .ok ⟨⟩ o') : Adds {v | v ∈ versions columns} o o' := by
  unfold addSeries at h
  split at h
  · next hnil =>
    obtain ⟨-, rfl⟩ := exec_pure_ok h
    simpa [List.isEmpty_iff.mp hnil] using Adds.refl o
  · have hgroups := exec_forM_collects Adds.refl Adds.trans (fun group => {v | v ∈ versions group})
      (fun group _ o o' hgroup => ?_) h
    · simpa only [Set.mem_ofPred_eq, ← mem_versions_flatten, splitLargeSeriesColumns_flatten] using hgroups
    · have hwindows := exec_forM_collects Adds.refl Adds.trans (fun w => {v | v ∈ versions w})
        (fun w _ o o' hw => addSeriesGroup_ok hw) hgroup
      simpa only [Set.mem_ofPred_eq, ← mem_versions_flatten, mem_versions_splitSeriesSampleWindows] using hwindows

end CompactionOutput

theorem mem_compactSortedSeriesIDs {id : UInt64} : id ∈ compactSortedSeriesIDs ids ↔ id ∈ ids := by
  fun_induction compactSortedSeriesIDs ids with
  | case1 a ids ih => rw [ih]; simp
  | case2 a b ids hne ih => simp [ih]
  | case3 ids => rfl

structure Writable (seriesID : UInt64) (columns : List ColumnData) : Prop where
  ne : columns ≠ []
  series : ∀ c ∈ columns, c.seriesID = seriesID
  samples : ∀ c ∈ columns, c.samples ≠ []

theorem splitColumnsLoop_ne_nil
    (h : group ≠ [] ∨ columns ≠ []) : ∀ g ∈ splitColumnsLoop targetBytes columns group size, g ≠ [] := by
  induction columns generalizing group size with
  | nil =>
    intro g hg
    rw [mem_singleton.mp hg]
    exact h.resolve_right (by simp)
  | cons c cs ih =>
    rw [splitColumnsLoop]
    split
    · next hsplit =>
      refine forall_mem_cons.mpr ⟨?_, ih (.inl (by simp))⟩
      simp only [Bool.and_eq_true, Bool.not_eq_true', isEmpty_eq_false_iff] at hsplit
      exact hsplit.1
    · exact ih (.inl (by simp))

theorem Writable.splitLargeSeriesColumns (h : Writable seriesID columns) (targetBytes : Int64) :
    ∀ g ∈ splitLargeSeriesColumns columns targetBytes, Writable seriesID g := by
  intro g hg
  have hsub : ∀ c ∈ g, c ∈ columns := fun c hc => by
    rw [← splitLargeSeriesColumns_flatten columns targetBytes]
    exact mem_flatten.mpr ⟨g, hg, hc⟩
  refine ⟨?_, fun c hc => h.series c (hsub c hc), fun c hc => h.samples c (hsub c hc)⟩
  unfold Engine.splitLargeSeriesColumns at hg
  split at hg
  · rw [mem_singleton.mp hg]
    exact h.ne
  · exact splitColumnsLoop_ne_nil (.inr h.ne) g hg

theorem Writable.splitSeriesSampleWindows (h : Writable seriesID columns) (maxSamples : Nat) :
    ∀ w ∈ splitSeriesSampleWindows columns maxSamples, Writable seriesID w := by
  intro w hw
  unfold Engine.splitSeriesSampleWindows at hw
  dsimp only at hw
  split at hw
  · rw [mem_singleton.mp hw]
    exact h
  · obtain ⟨hw, hne⟩ := mem_filter.mp hw
    obtain ⟨i, -, rfl⟩ := mem_map.mp hw
    refine ⟨by simpa using hne, fun c hc => ?_, fun c hc => ?_⟩
    · obtain ⟨hc, -⟩ := mem_filter.mp hc
      obtain ⟨d, hd, rfl⟩ := mem_map.mp hc
      exact h.series d hd
    · simpa using (mem_filter.mp hc).2

theorem writable_queryCompactionSeries (opts : ShardOptions) (inputs : List Part) (tombstones : List Tombstone)
    (seriesID : UInt64) (hne : queryCompactionSeries opts inputs tombstones seriesID ≠ []) :
    Writable seriesID (queryCompactionSeries opts inputs tombstones seriesID) := by
  have hread : ∀ c ∈ inputs.flatMap fun p => p.query ⟨[seriesID], [], opts.start, opts.stop⟩,
      c.seriesID = seriesID ∧ c.samples ≠ [] := by
    intro c hc
    obtain ⟨p, -, hc⟩ := mem_flatMap.mp hc
    obtain ⟨hc, hsamples⟩ := mem_filter.mp hc
    obtain ⟨d, hd, rfl⟩ := mem_map.mp hc
    have hwants := (mem_filter.mp hd).2
    refine ⟨?_, by simpa using hsamples⟩
    simpa [ColumnQuery.wants] using hwants
  have hmerged : ∀ c ∈ mergeColumnData (inputs.flatMap fun p => p.query ⟨[seriesID], [], opts.start, opts.stop⟩),
      c.seriesID = seriesID ∧ c.samples ≠ [] := by
    intro c hc
    have hmerge := mergeColumnData_merged c hc
    obtain ⟨d, hd, hseries, -⟩ := hmerge.source
    exact ⟨hseries ▸ (hread d hd).1, hmerge.nonempty fun c hc => (hread c hc).2⟩
  have hkept : ∀ c ∈ queryCompactionSeries opts inputs tombstones seriesID,
      c.seriesID = seriesID ∧ c.samples ≠ [] := by
    intro c hc
    unfold queryCompactionSeries applyTombstones at hc
    split at hc
    · exact hmerged c hc
    · obtain ⟨hc, hsamples⟩ := mem_filter.mp hc
      obtain ⟨d, hd, rfl⟩ := mem_map.mp hc
      exact ⟨(hmerged d hd).1, by simpa using hsamples⟩
  exact ⟨hne, fun c hc => (hkept c hc).1, fun c hc => (hkept c hc).2⟩

namespace CompactionOutput

def Filled (o : CompactionOutput) : Prop := ∀ w ∈ o.writer, w.rows ≠ []

theorem Filled.closeCurrent (h : o.Filled) : ∃ o', CompactionOutput.closeCurrent o = .ok ⟨⟩ o' ∧ o'.Filled := by
  unfold CompactionOutput.closeCurrent
  split
  · exact ⟨o, rfl, h⟩
  · next w hw =>
    obtain ⟨part, hpart⟩ := PartWriter.close_exists (h w hw)
    rw [hpart]
    exact ⟨_, rfl, by simp [Filled]⟩

theorem writeGroup_exists (h : Writable seriesID columns) (out : OutputOptions) (o : CompactionOutput) :
    ∃ o', CompactionOutput.writeGroup out columns o = .ok ⟨⟩ o' ∧ o'.Filled := by
  obtain ⟨c, rest, rfl⟩ := exists_cons_of_ne_nil h.ne
  have hone : ∀ d ∈ c :: rest, d.seriesID = c.seriesID ∧ d.samples ≠ [] := fun d hd =>
    ⟨(h.series d hd).trans (h.series c mem_cons_self).symm, h.samples d hd⟩
  obtain ⟨w, hw, hrows⟩ := (o.currentWriter out).1.addSeries_exists hone
  simp only [CompactionOutput.writeGroup, hw]
  refine ⟨_, rfl, fun w' hw' => ?_⟩
  cases hw'
  intro hnil
  rw [hnil] at hrows
  simp at hrows

theorem addSeriesGroup_exists (hreserve : ∀ n, env.reserveCompactionMemory n = .ok ()) (h : Writable seriesID columns)
    (out : OutputOptions) (ho : o.Filled) :
    ∃ o', CompactionOutput.addSeriesGroup env out columns o = .ok ⟨⟩ o' ∧ o'.Filled := by
  have hlift : lift (env.reserveCompactionMemory (estimateColumnsBytes columns)) o = .ok () o := by
    rw [hreserve]
    rfl
  obtain ⟨o₁, hroll, ho₁⟩ : ∃ o₁, rollIfNeeded out (estimateColumnsBytes columns) o = .ok ⟨⟩ o₁ ∧ o₁.Filled := by
    unfold rollIfNeeded
    split
    · exact ho.closeCurrent
    · exact ⟨o, rfl, ho⟩
  obtain ⟨o₂, hwrite, ho₂⟩ := writeGroup_exists h out o₁
  exact ⟨o₂, (exec_bind_eq hlift).trans ((exec_bind_eq hroll).trans hwrite), ho₂⟩

theorem addSeries_exists (hreserve : ∀ n, env.reserveCompactionMemory n = .ok ())
    (h : columns ≠ [] → Writable seriesID columns) (out : OutputOptions) (ho : o.Filled) :
    ∃ o', CompactionOutput.addSeries env out columns o = .ok ⟨⟩ o' ∧ o'.Filled := by
  unfold CompactionOutput.addSeries
  split
  · exact ⟨o, rfl, ho⟩
  · next hne =>
    have hw := h (by simpa using hne)
    refine exec_forM_exists Filled (fun group hgroup o ho => ?_) ho
    refine exec_forM_exists Filled (fun w hwin o ho => ?_) ho
    have hgroup := hw.splitLargeSeriesColumns _ group hgroup
    exact addSeriesGroup_exists hreserve (hgroup.splitSeriesSampleWindows _ w hwin) out ho

end CompactionOutput

theorem writeStreamingCompactionOutputs_exists (hreserve : ∀ n, env.reserveCompactionMemory n = .ok ())
    (opts : ShardOptions) (out : OutputOptions) (inputs : List Part) (tombstones : List Tombstone) (nextPart : Nat) :
    ∃ o, writeStreamingCompactionOutputs env opts out inputs tombstones ⟨nextPart, none, 0, []⟩ = .ok ⟨⟩ o := by
  obtain ⟨o, hseries, ho⟩ : ∃ o, ((compactionSeriesIDs opts inputs).forM fun id => CompactionOutput.addSeries env out
      (queryCompactionSeries opts inputs tombstones id)) ⟨nextPart, none, 0, []⟩ = .ok ⟨⟩ o ∧ o.Filled := by
    refine exec_forM_exists CompactionOutput.Filled (fun id _ o ho => ?_) (by simp [CompactionOutput.Filled])
    exact CompactionOutput.addSeries_exists hreserve (writable_queryCompactionSeries opts inputs tombstones id) out ho
  obtain ⟨o', hclose, -⟩ := ho.closeCurrent
  exact ⟨o', (exec_bind_eq hseries).trans hclose⟩

section
variable {opts : ShardOptions} {inputs : List Part} {tombstones : List Tombstone} {nextPart : Nat}

theorem mem_versions_queryCompactionSeries (hc : Consistent (Shard.partVersions inputs)) :
    v ∈ versions (queryCompactionSeries opts inputs tombstones seriesID) ↔
      (v.seriesID = seriesID ∧ Shard.InRange opts v) ∧
        Visible (Shard.partVersions inputs) (Covered tombstones) v := by
  let P : UInt64 × UInt32 × Int64 → Prop := fun k =>
    k.1 = seriesID ∧ opts.start ≤ k.2.2 ∧ k.2.2 ≤ opts.stop
  have hset : {u | u ∈ versions (inputs.flatMap fun p => p.query ⟨[seriesID], [], opts.start, opts.stop⟩)} =
      {u | u ∈ Shard.partVersions inputs ∧ P (Versioned.key u)} := by
    ext u
    simp only [Set.mem_ofPred_eq, mem_versions_flatMap, Part.mem_versions_query,
      ColumnQuery.inWindow_iff, Shard.partVersions, P, Version.key_eq]
    constructor
    · rintro ⟨p, hp, hu, hw, hin⟩
      exact ⟨⟨p, hp, hu⟩, by simpa [ColumnQuery.wants] using hw, hin⟩
    · rintro ⟨⟨p, hp, hu⟩, hs, hin⟩
      exact ⟨p, hp, hu, by simpa [ColumnQuery.wants] using hs, hin⟩
  have hsub : {u | u ∈ Shard.partVersions inputs ∧ P (Versioned.key u)} ⊆ Shard.partVersions inputs := fun u hu => hu.1
  have hmerge := mergeColumnData_columnsMergeTo (hset.symm ▸ hc.mono hsub)
  rw [queryCompactionSeries, mem_versions_applyTombstones, hmerge.mem_iff, hset, isLatest_sep_iff, Visible, and_assoc]
  rfl

theorem mem_compactionSeriesIDs (hv : v ∈ Shard.partVersions inputs) (hr : Shard.InRange opts v) :
    v.seriesID ∈ compactionSeriesIDs opts inputs := by
  obtain ⟨p, hp, hvp⟩ := hv
  have hquery : v ∈ versions (p.query (Shard.shardWindow opts)) :=
    Part.mem_versions_query.mpr ⟨hvp, by simp [Shard.shardWindow, ColumnQuery.wants],
      ColumnQuery.inWindow_iff.mpr hr⟩
  obtain ⟨c, hc, hvc⟩ := mem_versions.mp hquery
  rw [compactionSeriesIDs, mem_compactSortedSeriesIDs, mem_insertionSort, mem_flatMap]
  refine ⟨p, hp, ?_⟩
  rw [← (ColumnData.mem_versions.mp hvc).1]
  exact mem_map_of_mem hc

theorem writeStreamingCompactionOutputs_adds (h : writeStreamingCompactionOutputs env opts out inputs tombstones ⟨nextPart, none, 0, []⟩ =
      .ok ⟨⟩ o) :
    Shard.partVersions o.parts = {v | ∃ id ∈ compactionSeriesIDs opts inputs,
      v ∈ versions (queryCompactionSeries opts inputs tombstones id)} ∧ ∀ p ∈ o.parts, p.BoundsSeqs := by
  obtain ⟨⟨⟩, o₁, hseries, hclose⟩ := exec_bind_ok h
  obtain ⟨hkeep, hnone⟩ := CompactionOutput.closeCurrent_ok hclose
  have hadds := (exec_forM_collects CompactionOutput.Adds.refl CompactionOutput.Adds.trans
    (fun id => {v | v ∈ versions (queryCompactionSeries opts inputs tombstones id)})
    (fun _ _ _ _ hid => CompactionOutput.addSeries_ok hid) hseries).trans hkeep
  refine ⟨?_, (hadds.bounds (by simp)).2⟩
  have hparts : Shard.partVersions o.parts = o.collected := by
    ext v
    simp [Shard.partVersions, CompactionOutput.collected, hnone]
  rw [hparts, hadds.collected]
  simp [CompactionOutput.collected]

theorem writeStreamingCompactionOutputs_ok (hc : Consistent (Shard.partVersions inputs))
    (hr : ∀ v ∈ Shard.partVersions inputs, Shard.InRange opts v) (h : writeStreamingCompactionOutputs env opts out inputs tombstones ⟨nextPart, none, 0, []⟩ =
      .ok ⟨⟩ o) : Shard.partVersions o.parts = {v | Visible (Shard.partVersions inputs) (Covered tombstones) v} := by
  rw [(writeStreamingCompactionOutputs_adds h).1]
  ext v
  simp only [Set.mem_ofPred_eq, mem_versions_queryCompactionSeries hc]
  constructor
  · rintro ⟨_, -, -, hv⟩
    exact hv
  · intro hv
    exact ⟨_, mem_compactionSeriesIDs hv.1.1 (hr v hv.1.1), ⟨rfl, hr v hv.1.1⟩, hv⟩

end

section
variable {F : Type} [ScoreArith F]

def preflightCompactionDiskSpace (env : CompactionEnv) (opts : ShardOptions)
    (plan : CompactionPlan F) : Except CompactionError Unit :=
  let required := plan.outputEstimateBytes + opts.compaction.diskSpaceReserveBytes +
    opts.compaction.minFreeBytes
  if required ≤ 0 then .ok ()
  else
    match env.availableBytes with
    | .error e => .error e
    | .ok available => if available ≥ required then .ok () else .error (.diskSpaceExceeded available required)

namespace Shard

def selectedBy (candidates : List PartMeta) (p : Part) : Bool := (candidates.map PartMeta.id).contains p.partMeta.id

def selectedParts (s : Shard) (candidates : List PartMeta) : List Part := s.parts.filter (selectedBy candidates)

def keepUnselected (candidates : List PartMeta) (parts : List Part) : List Part :=
  parts.filter fun p => !selectedBy candidates p

def compactionOps (s : Shard) (candidates : List PartMeta) (newParts : List Part) : List FileOp :=
  newParts.map .writePart ++
    [.writeManifest (s.nextManifest (keepUnselected candidates s.manifest.parts ++ newParts))] ++
    candidates.map .removePart ++
    if s.tombstones.isEmpty then [] else checkpointOps s.disk.segments

def compacted (s : Shard) (candidates : List PartMeta) (out : CompactionOutput) : Shard :=
  { s with
    disk := s.disk.run (s.compactionOps candidates out.parts)
    parts := keepUnselected candidates s.parts ++ out.parts
    manifest := s.nextManifest (keepUnselected candidates s.manifest.parts ++ out.parts)
    tombstones := []
    nextPart := out.nextPart }

def compactPartsLocked (env : CompactionEnv) (opts : ShardOptions) (plan : CompactionPlan F) :
    EStateM CompactionError Shard PUnit := fun s =>
  let maxOutputPartBytes :=
    if plan.maxOutputPartBytes ≤ 0 then opts.compaction.maxOutputPartBytes else plan.maxOutputPartBytes
  let inputs := s.selectedParts plan.candidates
  if inputs.isEmpty then .ok ⟨⟩ s
  else
    match preflightCompactionDiskSpace env opts plan with
    | .error e => .error e s
    | .ok () =>
      match writeStreamingCompactionOutputs env opts ⟨opts.dir, plan.outputLevel, maxOutputPartBytes⟩
          inputs s.tombstones ⟨s.nextPart, none, 0, []⟩ with
      | .error e out => .error e { s with nextPart := out.nextPart }
      | .ok _ out => .ok ⟨⟩ (s.compacted plan.candidates out)

variable {opts : ShardOptions} {s : Shard} {candidates : List PartMeta} {out : CompactionOutput}

theorem versions_eq_selected (hmem : s.mem.versions = []) (candidates : List PartMeta) :
    s.versions = partVersions (s.selectedParts candidates) ∪
      partVersions (keepUnselected candidates s.parts) := by
  have hnil : s.memVersions = ∅ := by
    ext v
    simp [memVersions, hmem]
  rw [versions, hnil, Set.empty_union, ← partVersions_append]
  apply partVersions_congr
  intro p
  simp only [selectedParts, keepUnselected, mem_append, mem_filter, Bool.not_eq_true']
  cases selectedBy candidates p <;> simp

theorem versions_compacted (hmem : s.mem.versions = [])
    (hout : partVersions out.parts =
      {v | Lib.Visible (partVersions (s.selectedParts candidates)) (Covered s.tombstones) v}) :
    (s.compacted candidates out).versions =
      {v | Lib.Visible (partVersions (s.selectedParts candidates)) (Covered s.tombstones) v} ∪
        partVersions (keepUnselected candidates s.parts) := by
  have hnil : (s.compacted candidates out).memVersions = ∅ := by
    ext v
    simp [memVersions, compacted, hmem]
  have hparts : partVersions (s.compacted candidates out).parts =
      partVersions (keepUnselected candidates s.parts) ∪ partVersions out.parts :=
    partVersions_append _ _
  rw [versions, hnil, Set.empty_union, hparts, hout, Set.union_comm]

theorem run_writeParts (d : Disk) (parts : List Part) :
    (d.run (parts.map .writePart)).manifest = d.manifest ∧
      (d.run (parts.map .writePart)).segments = d.segments := by
  induction parts generalizing d with
  | nil => exact ⟨rfl, rfl⟩
  | cons p parts ih => exact ih (FileOp.apply d (.writePart p))

theorem run_removeParts (d : Disk) (parts : List PartMeta) :
    (d.run (parts.map .removePart)).manifest = d.manifest ∧
      (d.run (parts.map .removePart)).segments = d.segments := by
  induction parts generalizing d with
  | nil => exact ⟨rfl, rfl⟩
  | cons p parts ih => exact ih (FileOp.apply d (.removePart p))

theorem compacted_disk (candidates : List PartMeta) (out : CompactionOutput) (h : SegmentsOrdered s.disk.segments) :
    (s.compacted candidates out).disk.manifest.parts =
        keepUnselected candidates s.manifest.parts ++ out.parts ∧
      (s.compacted candidates out).disk.segments =
        if s.tombstones.isEmpty then s.disk.segments else [⟨openNumber s.disk.segments + 1, []⟩] := by
  let d := ((s.disk.run (out.parts.map .writePart)).run [.writeManifest
    (s.nextManifest (keepUnselected candidates s.manifest.parts ++ out.parts))]).run
      (candidates.map .removePart)
  have hmanifest : d.manifest.parts = keepUnselected candidates s.manifest.parts ++ out.parts := by
    simp only [d, (run_removeParts _ candidates).1]
    rfl
  have hsegments : d.segments = s.disk.segments := by
    simp only [d, (run_removeParts _ candidates).2]
    exact (run_writeParts s.disk out.parts).2
  simp only [compacted, compactionOps, run_append]
  split
  · exact ⟨hmanifest, hsegments⟩
  · have hd : d.run (checkpointOps s.disk.segments) =
        { d with segments := [⟨openNumber s.disk.segments + 1, []⟩] } := by
      rw [← hsegments] at h ⊢
      exact run_checkpointOps d h
    exact hd ▸ ⟨hmanifest, rfl⟩

theorem walVersions_compacted_subset (h : Sound opts s) (candidates : List PartMeta)
    (out : CompactionOutput) : walVersions (s.compacted candidates out).disk ⊆ walVersions s.disk := by
  rw [walVersions, (compacted_disk candidates out h.segments).2]
  split
  · exact subset_rfl
  · simp [replayRecords, recordPoints, pointVersions]

section
variable (h : Sound opts s) (hmem : s.mem.versions = [])
  (hout : partVersions out.parts = {v | Lib.Visible (partVersions (s.selectedParts candidates)) (Covered s.tombstones) v})
include h hmem hout

theorem Sound.compacted_subset :
    (s.compacted candidates out).versions ∪ walVersions (s.compacted candidates out).disk ⊆
      s.versions ∪ walVersions s.disk := by
  refine Set.union_subset_union ?_ (walVersions_compacted_subset h candidates out)
  rw [versions_compacted hmem hout, versions_eq_selected hmem candidates]
  exact Set.union_subset_union_left _ fun v hv => hv.1.1

theorem Sound.compacted : Sound opts (s.compacted candidates out) := by
  obtain ⟨hparts, hsegments⟩ := compacted_disk candidates out h.segments
  have hver := versions_compacted hmem hout
  have hold := versions_eq_selected hmem candidates
  have hlisted : ∀ p, p ∈ keepUnselected candidates s.manifest.parts ++ out.parts ↔
      p ∈ keepUnselected candidates s.parts ++ out.parts := by
    intro p
    simp [keepUnselected, h.manifest]
  have hunion := h.compacted_subset hmem hout
  have hwal := walVersions_compacted_subset h candidates out
  refine ⟨h.distinct, h.counted, hlisted, ?_, ?_, ?_, ?_, ?_, h.consistent.mono hunion,
    fun v hv => h.inRange v (hunion hv)⟩
  · rw [hparts]
    exact hlisted
  · rw [hsegments]
    split
    · exact h.segments
    · simp [SegmentsOrdered]
  · rw [hsegments]
    split
    · next ht => exact h.tombstones.trans (List.isEmpty_iff.mp ht)
    · rfl
  · intro v hv
    simp [Shard.compacted, memVersions, hmem] at hv
  · by_cases ht : s.tombstones = []
    · -- nothing is hidden, so the new parts have the newest versions of the old ones
      have hdom : Dominates (s.compacted candidates out).versions s.versions := by
        rw [hver, hold]
        refine Dominates.union (Dominates.mono_left ?_ Set.subset_union_left)
          (Dominates.of_subset Set.subset_union_right)
        have hvis : {v | Lib.Visible (partVersions (s.selectedParts candidates)) (Covered s.tombstones) v} =
            {v | IsLatest (partVersions (s.selectedParts candidates)) v} := by
          ext v
          simp [Lib.Visible, ht]
        rw [hvis]
        exact dominates_isLatest (finite_partVersions _)
      exact fun v hv => hdom.trans h.stored v (hwal hv)
    · have hempty : walVersions (s.compacted candidates out).disk = ∅ := by
        rw [walVersions, hsegments, if_neg (by simpa using ht)]
        simp [replayRecords, recordPoints, pointVersions]
      rw [hempty]
      exact fun v hv => hv.elim

/-- Visibility survives a compaction exactly if no tombstone hides the newest version at a key
that a part outside the compaction holds too. -/
theorem Sound.visible_compacted_iff :
    (∀ v, (s.compacted candidates out).Visible v ↔ s.Visible v) ↔
      ∀ p ∈ keepUnselected candidates s.parts, ∀ u ∈ p.versions, ∀ m, IsLatest s.versions m →
        Versioned.key m = Versioned.key u → ¬ Covered s.tombstones m := by
  have hold := versions_eq_selected hmem candidates
  have hnew : ∀ v, (s.compacted candidates out).Visible v ↔
      IsLatest ({v | Lib.Visible (partVersions (s.selectedParts candidates)) (Covered s.tombstones) v} ∪
        partVersions (keepUnselected candidates s.parts)) v := by
    intro v
    rw [Visible, versions_compacted hmem hout, Lib.Visible]
    exact and_iff_left (not_covered_nil v)
  have hrewrite := isLatest_rewrite_iff (C := Covered s.tombstones)
    (finite_partVersions (s.selectedParts candidates))
    (finite_partVersions (keepUnselected candidates s.parts)) (hold ▸ h.consistent_versions)
  simp only [hnew]
  simp only [Visible, hold]
  rw [hrewrite]
  constructor
  · exact fun hb p hp u hu => hb u ⟨p, hp, hu⟩
  · rintro hb u ⟨p, hp, hu⟩
    exact hb p hp u hu

end

omit [ScoreArith F] in
theorem Sound.compactPartsLocked_ok (h : Sound opts s) (hok : compactPartsLocked env opts plan s = .ok ⟨⟩ s') :
    (s.selectedParts plan.candidates = [] ∧ s' = s) ∨
      ∃ out : CompactionOutput, s' = s.compacted plan.candidates out ∧ partVersions out.parts =
        {v | Lib.Visible (partVersions (s.selectedParts plan.candidates)) (Covered s.tombstones) v} := by
  have hsub : partVersions (s.selectedParts plan.candidates) ⊆ s.versions := by
    rintro v ⟨p, hp, hv⟩
    exact .inr ⟨p, (mem_filter.mp hp).1, hv⟩
  unfold compactPartsLocked at hok
  dsimp only at hok
  split at hok
  · next hnil =>
    left
    exact ⟨List.isEmpty_iff.mp hnil, (by simpa using hok : s = s').symm⟩
  · split at hok
    · simp at hok
    · split at hok
      · simp at hok
      · next out hout =>
        right
        refine ⟨out, (by simpa using hok : _ = s').symm, ?_⟩
        exact writeStreamingCompactionOutputs_ok (h.consistent_versions.mono hsub)
          (fun v hv => h.inRange v (.inl (hsub hv))) hout

def Plans (env : CompactionEnv) (opts : ShardOptions) (s : Shard) (plan : CompactionPlan F) : Prop :=
  nextCompactionPlan env.directorySize (s.manifest.parts.map Part.partMeta) s.tombstones
      opts.compaction = .ok (some plan) ∨
    fullCompactionPlan (s.manifest.parts.map Part.partMeta) s.tombstones opts.compaction = some plan

theorem Sound.selectedParts_ne_nil (h : Sound opts s) {plan : CompactionPlan F} (hplan : Plans env opts s plan) :
    s.selectedParts plan.candidates ≠ [] := by
  obtain ⟨c, hc, hlisted⟩ : ∃ c ∈ plan.candidates, c ∈ s.manifest.parts.map Part.partMeta := by
    rcases hplan with hnext | hfull
    · obtain ⟨hcand, hne⟩ := nextCompactionPlan_plansLevel hnext
      obtain ⟨c, hc⟩ := exists_mem_of_ne_nil _ hne
      exact ⟨c, hc, (mem_partsAtLevel.mp (hcand ▸ hc)).1⟩
    · obtain ⟨hcand, hne⟩ := fullCompactionPlan_candidates hfull
      obtain ⟨c, hc⟩ := exists_mem_of_ne_nil _ hne
      exact ⟨c, hcand ▸ hc, hc⟩
  obtain ⟨p, hp, rfl⟩ := mem_map.mp hlisted
  refine ne_nil_of_mem (mem_filter.mpr ⟨(h.manifest p).mp hp, ?_⟩)
  simpa [selectedBy] using ⟨_, hc, rfl⟩

/-- No tombstone hides the newest version at a key that a part outside the plan holds too. -/
def NoHiddenOutside (s : Shard) (plan : CompactionPlan F) : Prop :=
  ∀ p ∈ s.parts, p.partMeta.id ∉ plan.candidates.map PartMeta.id → ∀ u ∈ p.versions, ∀ m,
    IsLatest s.versions m → Versioned.key m = Versioned.key u → ¬ Covered s.tombstones m

/-- A planned compaction leaves the visible versions of the shard, and of the shard reopened from
its directory, as they were exactly if no tombstone reaches outside the plan. -/
theorem compactPartsLocked_visible_iff (h : Sound opts s) (hmem : s.mem.sampleCount = 0)
    {env : CompactionEnv} {plan : CompactionPlan F} (hplan : Plans env opts s plan) {s' : Shard}
    (hok : compactPartsLocked env opts plan s = .ok ⟨⟩ s') :
    ((∀ v, s'.Visible v ↔ s.Visible v) ∧ ∀ v, (openShard s'.disk).1.Visible v ↔ s.Visible v) ↔
      s.NoHiddenOutside plan := by
  have hnil : s.mem.versions = [] := length_eq_zero_iff.mp (h.counted ▸ hmem)
  rcases h.compactPartsLocked_ok hok with ⟨hnone, -⟩ | ⟨out, rfl, hout⟩
  · exact absurd hnone (h.selectedParts_ne_nil hplan)
  · have hsound := h.compacted hnil hout
    have hreopen : (∀ v, (openShard (s.compacted plan.candidates out).disk).1.Visible v ↔ s.Visible v) ↔
        ∀ v, (s.compacted plan.candidates out).Visible v ↔ s.Visible v :=
      forall_congr' fun v => by rw [hsound.visible_openShard]
    rw [hreopen, and_self_iff, h.visible_compacted_iff hnil hout]
    simp only [NoHiddenOutside, keepUnselected, mem_filter, selectedBy, and_imp,
      Bool.not_eq_true', ← Bool.not_eq_true, contains_iff_mem]

def samplePart (dir : GoString) (level : Int) (number : Nat) (seriesID : UInt64) (sample : VersionedSample) : Part :=
  let w := newPartWriter (joinPath dir (partID number)) level (partID number)
  let row := writeSeries seriesID [⟨seriesID, 1, sample.value.type, [sample]⟩]
  ⟨{ updateMeta w.partMeta row with path := w.path }, [row]⟩

def leveledOptions : ShardOptions where
  dir := asciiBytes "d"
  start := 0
  stop := 100
  wal := ⟨1000, fun _ => 10⟩
  memTableMaxSamples := 0
  disorderReached := fun _ _ => false
  memTableDisorderFlushMinSamples := 0
  compaction := ⟨true, [], 0, 0, 0, 4, 0, 0⟩

def freeEnv : CompactionEnv where
  directorySize _ := .ok 1
  availableBytes := .ok 1000000
  reserveCompactionMemory _ := .ok ()
  startCompactionPlan _ := true

def deletedSample : Version := ⟨1, 1, ⟨5, 1, .int64 10⟩⟩

/-- One part at level 1 whose only sample a tombstone hides, and another series at level 0. -/
def leveledShard : Shard :=
  let parts := [samplePart leveledOptions.dir 0 2 2 ⟨6, 2, .int64 20⟩,
    samplePart leveledOptions.dir 1 1 deletedSample.seriesID deletedSample.sample]
  let tombstone : Tombstone := ⟨[1], [], 0, 10, 3⟩
  { disk := ⟨⟨7, parts⟩, [], [⟨4, [⟨[], [tombstone]⟩]⟩]⟩
    mem := MemTable.empty
    parts := parts
    manifest := ⟨7, parts⟩
    tombstones := [tombstone]
    nextPart := 3 }

theorem sound_leveledShard : Sound leveledOptions leveledShard where
  distinct := MemTable.distinctColumns_empty
  counted := MemTable.counted_empty
  manifest _ := Iff.rfl
  disk _ := Iff.rfl
  segments := ⟨by decide, by decide⟩
  tombstones := rfl
  logged v hv := by simp [memVersions, leveledShard] at hv
  stored v hv := by simp [walVersions, pointVersions, recordPoints, replayRecords, leveledShard] at hv
  consistent := by
    rw [versions_union_wal]
    decide +kernel
  inRange := by
    rw [versions_union_wal]
    simp only [Set.mem_ofPred_eq]
    decide +kernel

def leveledPlan : CompactionPlan ℚ where
  level := 0
  outputLevel := 1
  candidates := [(samplePart leveledOptions.dir 0 2 2 ⟨6, 2, .int64 20⟩).partMeta]
  maxOutputPartBytes := 0
  reason := .tombstone
  score := 2
  inputBytes := 1
  outputEstimateBytes := 1
  candidateSignature := (0, [partID 2])

theorem leveledPlan_next : nextCompactionPlan freeEnv.directorySize
    (leveledShard.manifest.parts.map Part.partMeta) leveledShard.tombstones leveledOptions.compaction =
      .ok (some leveledPlan) := by decide +kernel

/-- The compaction of level 0 drops the tombstone, and the deleted sample of level 1 is back. -/
theorem leveledShard_revives_deletedSample :
    Sound leveledOptions leveledShard ∧ leveledShard.mem.sampleCount = 0 ∧
      nextCompactionPlan freeEnv.directorySize (leveledShard.manifest.parts.map Part.partMeta)
        leveledShard.tombstones leveledOptions.compaction = .ok (some leveledPlan) ∧
      ∃ s', compactPartsLocked freeEnv leveledOptions leveledPlan leveledShard = .ok ⟨⟩ s' ∧
        ¬ leveledShard.Visible deletedSample ∧ s'.Visible deletedSample ∧
          (openShard s'.disk).1.Visible deletedSample := by
  refine ⟨sound_leveledShard, rfl, leveledPlan_next, exec_ok_of_check ?_⟩
  decide +kernel

theorem leveledShard_visible_iff :
    ∃ s', compactPartsLocked freeEnv leveledOptions leveledPlan leveledShard = .ok ⟨⟩ s' ∧
      (((∀ v, s'.Visible v ↔ leveledShard.Visible v) ∧
        ∀ v, (openShard s'.disk).1.Visible v ↔ leveledShard.Visible v) ↔
          leveledShard.NoHiddenOutside leveledPlan) := by
  obtain ⟨s', hok, -⟩ : ∃ s', compactPartsLocked freeEnv leveledOptions leveledPlan leveledShard =
      .ok ⟨⟩ s' ∧ s'.tombstones = [] := exec_ok_of_check (by decide +kernel)
  exact ⟨s', hok, compactPartsLocked_visible_iff sound_leveledShard rfl (.inl leveledPlan_next) hok⟩

end Shard
end
end Mts.Engine
