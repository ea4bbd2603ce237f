import Mts.Engine.ColumnMerge

/-! The MemTable, `memtable/memtable.go`. The column map is the list of its buffers, a buffer holds
its samples in append order; memory accounting and pooling are left out. -/

namespace Mts.Engine
open Lib Model List

variable {v : Version} {samples : Samples} {q : ColumnQuery}

structure ColumnBuffer where
  data : ColumnData
  lastTimestamp : Option Int64
  deriving DecidableEq

structure MemTable where
  columns : List ColumnBuffer
  sampleCount : Nat
  outOfOrderSamples : Nat
  duplicateSamples : Nat
  appendedSamples : Nat
  deriving DecidableEq

variable {m : MemTable}

namespace MemTable

variable {p : ResolvedPoint} {cs buffers : List ColumnBuffer} {c : ColumnData}

def empty : MemTable := ⟨[], 0, 0, 0, 0⟩

/-- How `noteAppendOrderLocked` classifies a sample against the last one of its column. -/
def orderCounts (last : Option Int64) (timestamp : Int64) : Nat × Nat :=
  match last with
  | none => (0, 0)
  | some t => if timestamp < t then (1, 0) else if timestamp = t then (0, 1) else (0, 0)

/-- `ensureColumn` and `appendSample`: the buffer of the column gets the sample; the result also
says what was the last timestamp there. -/
def appendSample (seriesID : UInt64) (fieldID : UInt32) (fieldType : FieldType)
    (sample : VersionedSample) : List ColumnBuffer → List ColumnBuffer × Option Int64
  | [] => ([⟨⟨seriesID, fieldID, fieldType, [sample]⟩, some sample.timestamp⟩], none)
  | c :: cs =>
    if c.data.seriesID = seriesID ∧ c.data.fieldID = fieldID then
      (⟨⟨seriesID, fieldID, fieldType, c.data.samples ++ [sample]⟩, some sample.timestamp⟩ :: cs,
        c.lastTimestamp)
    else
      let (cs, last) := appendSample seriesID fieldID fieldType sample cs
      (c :: cs, last)

def applyField (m : MemTable) (point : ResolvedPoint) (field : ResolvedField) : MemTable :=
  let sample : VersionedSample := ⟨point.timestamp, point.writeSeq, field.value⟩
  let (columns, last) := appendSample point.seriesID field.fieldID field.type sample m.columns
  let (outOfOrder, duplicate) := orderCounts last point.timestamp
  { columns := columns
    sampleCount := m.sampleCount + 1
    outOfOrderSamples := m.outOfOrderSamples + outOfOrder
    duplicateSamples := m.duplicateSamples + duplicate
    appendedSamples := m.appendedSamples + 1 }

def apply (m : MemTable) (point : ResolvedPoint) : MemTable := point.fields.foldl (fun m f => m.applyField point f) m

def applyBatch (m : MemTable) (points : List ResolvedPoint) : MemTable := points.foldl apply m

/-- The table after `SnapshotAndReset`; the order counters are not reset. -/
def reset (m : MemTable) : MemTable := { m with columns := [], sampleCount := 0 }

/-- The last timestamp that `restoreColumnLocked` leaves: the buffer's own, or that of its last sample. -/
def restoredLast (src : ColumnBuffer) : Option Int64 :=
  src.lastTimestamp.or (src.data.samples.getLast?.map VersionedSample.timestamp)

def appendColumn (src : ColumnBuffer) : List ColumnBuffer → List ColumnBuffer
  | [] => [⟨src.data, restoredLast src⟩]
  | c :: cs =>
    if sameColumn c.data src.data then
      ⟨{ src.data with samples := c.data.samples ++ src.data.samples }, restoredLast src⟩ :: cs
    else c :: appendColumn src cs

def restoreColumn (m : MemTable) (src : ColumnBuffer) : MemTable :=
  if src.data.samples.isEmpty then m
  else { m with
    columns := appendColumn src m.columns
    sampleCount := m.sampleCount + src.data.samples.length }

/-- `Restore` of a snapshot with these buffers, in the order in which the map yields them. -/
def restore (m : MemTable) (sampleCount : Nat) (buffers : List ColumnBuffer) : MemTable :=
  if sampleCount = 0 then m else buffers.foldl restoreColumn m

def columnTimesSortedUnique (samples : Samples) : Bool := samplesStrictlyIncreasing samples

/-- The samples between the two binary searches of `sortedRangeBounds`. -/
def materializeSortedColumnSamples (samples : Samples) (q : ColumnQuery) : Samples :=
  (samples.dropWhile fun s => s.timestamp < q.start).takeWhile fun s => s.timestamp ≤ q.stop

def compactSamples (samples : Samples) (q : ColumnQuery) : Samples :=
  if columnTimesSortedUnique samples then materializeSortedColumnSamples samples q
  else compactMaterializedSamples (samples.filter fun s => q.inWindow s.timestamp)

def columnsFromData (columns : List ColumnBuffer) (q : ColumnQuery) : List ColumnData :=
  if q.stop < q.start then []
  else sortColumnData <| (columns.filterMap fun c =>
    if q.wants c.data.seriesID c.data.fieldID then
      some { c.data with samples := compactSamples c.data.samples q }
    else none).filter fun c => !c.samples.isEmpty

def query (m : MemTable) (q : ColumnQuery) : List ColumnData := columnsFromData m.columns q

def versions (m : MemTable) : List Version := Model.versions (m.columns.map ColumnBuffer.data)

def DistinctColumns (m : MemTable) : Prop := m.columns.Pairwise fun a b => ¬ sameColumn a.data b.data

@[simp] theorem versions_empty : empty.versions = [] := rfl

theorem distinctColumns_empty : empty.DistinctColumns := List.Pairwise.nil

theorem appendSample_columns (seriesID : UInt64) (fieldID : UInt32) (fieldType : FieldType)
    (sample : VersionedSample) (cs : List ColumnBuffer) (v : Version) :
    v ∈ Model.versions ((appendSample seriesID fieldID fieldType sample cs).1.map ColumnBuffer.data) ↔
      v ∈ Model.versions (cs.map ColumnBuffer.data) ∨ v = ⟨seriesID, fieldID, sample⟩ := by
  obtain ⟨s, f, x⟩ := v
  induction cs with
  | nil => simp [appendSample, Model.versions, ColumnData.versions]
  | cons c cs ih =>
    rw [appendSample]
    split
    · next h =>
      simp only [map_cons, Model.mem_versions, mem_cons, exists_eq_or_imp,
        ColumnData.mem_versions, mem_append, not_mem_nil, or_false, Version.mk.injEq]
      grind
    · simp only [map_cons, Model.mem_versions, mem_cons, exists_eq_or_imp] at ih ⊢
      rw [ih, or_assoc]

theorem mem_versions_applyField :
    v ∈ (m.applyField p f).versions ↔
      v ∈ m.versions ∨ v = ⟨p.seriesID, f.fieldID, ⟨p.timestamp, p.writeSeq, f.value⟩⟩ := appendSample_columns ..

theorem mem_versions_foldl_applyField (p : ResolvedPoint) (fields : List ResolvedField) (m : MemTable) (v : Version) :
    v ∈ (fields.foldl (fun m f => m.applyField p f) m).versions ↔ v ∈ m.versions ∨
      ∃ f ∈ fields, v = ⟨p.seriesID, f.fieldID, ⟨p.timestamp, p.writeSeq, f.value⟩⟩ := by
  induction fields generalizing m with
  | nil => simp
  | cons f fields ih =>
    rw [foldl_cons, ih, mem_versions_applyField]
    simp [or_assoc]

theorem mem_versions_apply : v ∈ (m.apply p).versions ↔ v ∈ m.versions ∨ v ∈ p.versions := by
  rw [apply, mem_versions_foldl_applyField]
  simp [ResolvedPoint.versions, eq_comm]

theorem mem_versions_applyBatch :
    v ∈ (m.applyBatch points).versions ↔ v ∈ m.versions ∨ ∃ p ∈ points, v ∈ p.versions := by
  induction points generalizing m with
  | nil => simp [applyBatch]
  | cons p ps ih =>
    have h := ih (m := m.apply p)
    simp only [applyBatch, foldl_cons] at h ⊢
    rw [h, mem_versions_apply]
    simp [or_assoc]

theorem appendSample_distinct (h : cs.Pairwise fun a b => ¬ sameColumn a.data b.data) :
    (appendSample seriesID fieldID fieldType sample cs).1.Pairwise
      (fun a b => ¬ sameColumn a.data b.data) ∧
    ∀ c ∈ (appendSample seriesID fieldID fieldType sample cs).1,
      (c.data.seriesID = seriesID ∧ c.data.fieldID = fieldID) ∨
        ∃ d ∈ cs, sameColumn d.data c.data := by
  induction cs with
  | nil => simp [appendSample]
  | cons c cs ih =>
    obtain ⟨hc, hcs⟩ := pairwise_cons.mp h
    obtain ⟨ih1, ih2⟩ := ih hcs
    rw [appendSample]
    split
    · next hkey =>
      refine ⟨pairwise_cons.mpr ⟨fun d hd hs => hc d hd ?_, hcs⟩, fun d hd => ?_⟩
      · exact ⟨hkey.1.trans hs.1, hkey.2.trans hs.2⟩
      · rcases mem_cons.mp hd with rfl | hd
        · exact .inl ⟨rfl, rfl⟩
        · exact .inr ⟨d, mem_cons_of_mem _ hd, rfl, rfl⟩
    · next hkey =>
      refine ⟨pairwise_cons.mpr ⟨fun d hd hs => ?_, ih1⟩, fun d hd => ?_⟩
      · rcases ih2 d hd with hd' | ⟨e, he, hed⟩
        · exact hkey ⟨hs.1.trans hd'.1, hs.2.trans hd'.2⟩
        · exact hc e he (hs.trans hed.symm)
      · rcases mem_cons.mp hd with rfl | hd
        · exact .inr ⟨d, mem_cons_self, rfl, rfl⟩
        · exact (ih2 d hd).imp_right fun ⟨e, he, hed⟩ => ⟨e, mem_cons_of_mem _ he, hed⟩

theorem distinctColumns_applyBatch (h : m.DistinctColumns) (points : List ResolvedPoint) :
    (m.applyBatch points).DistinctColumns := by
  refine List.foldlRecOn points apply h fun m hm p _ => ?_
  exact List.foldlRecOn p.fields _ hm fun m hm f _ => (appendSample_distinct hm).1

def Counted (m : MemTable) : Prop := m.sampleCount = m.versions.length

theorem counted_empty : empty.Counted := rfl

theorem length_versions_appendSample (seriesID : UInt64) (fieldID : UInt32) (fieldType : FieldType)
    (sample : VersionedSample) (cs : List ColumnBuffer) :
    (Model.versions ((appendSample seriesID fieldID fieldType sample cs).1.map ColumnBuffer.data)).length =
      (Model.versions (cs.map ColumnBuffer.data)).length + 1 := by
  induction cs with
  | nil => rfl
  | cons c cs ih =>
    rw [appendSample]
    split
    · simp [Model.versions, ColumnData.versions]
      omega
    · simp only [Model.versions, map_cons, flatMap_cons, length_append] at ih ⊢
      rw [ih, Nat.add_assoc]

theorem counted_applyBatch (h : m.Counted) (points : List ResolvedPoint) : (m.applyBatch points).Counted := by
  refine List.foldlRecOn points apply h fun m hm p _ => ?_
  refine List.foldlRecOn p.fields _ hm fun m hm f _ => ?_
  exact (congrArg (· + 1) hm).trans (length_versions_appendSample ..).symm

theorem materializeSorted_eq (h : samples.Pairwise (·.timestamp < ·.timestamp)) :
    materializeSortedColumnSamples samples q = samples.filter fun s => q.inWindow s.timestamp := by
  have hstart := takeWhile_eq_filter (P := fun s : VersionedSample => decide (s.timestamp < q.start))
    (h.imp fun hab hb => decide_eq_true (Int64.lt_trans hab (of_decide_eq_true hb)))
  have hstop := takeWhile_eq_filter (P := fun s : VersionedSample => decide (s.timestamp ≤ q.stop))
    ((h.filter fun s => !decide (s.timestamp < q.start)).imp fun hab hb =>
      decide_eq_true (Int64.le_trans (Int64.le_of_lt hab) (of_decide_eq_true hb)))
  rw [materializeSortedColumnSamples, hstart.2, hstop.1, filter_filter]
  refine filter_congr fun s _ => ?_
  simp [ColumnQuery.inWindow, Bool.and_comm, ← Int64.not_lt]

theorem compactSamples_newestOf (samples : Samples) (q : ColumnQuery) :
    NewestOf (samples.filter fun s => q.inWindow s.timestamp) (compactSamples samples q) := by
  unfold compactSamples columnTimesSortedUnique
  split
  · next h =>
    have hinc := (samplesStrictlyIncreasing_iff _).mp h
    rw [materializeSorted_eq hinc]
    exact newestOf_self (hinc.filter _)
  · exact compactMaterializedSamples_newestOf _

theorem mem_compactSamples (hc : Consistent {x | x ∈ samples}) (q : ColumnQuery) (s : VersionedSample) :
    s ∈ compactSamples samples q ↔ q.inWindow s.timestamp = true ∧ IsLatest {x | x ∈ samples} s := by
  have hset : {x | x ∈ samples.filter fun s => q.inWindow s.timestamp} =
      {x | x ∈ {y | y ∈ samples} ∧ q.inWindow (Versioned.key x) = true} :=
    Set.ext fun x => mem_filter
  rw [((compactSamples_newestOf samples q).mergesTo (hc.mono fun x hx => (mem_filter.mp hx).1)).mem_iff, hset,
    isLatest_sep_iff (P := fun t => q.inWindow t = true)]
  rfl

theorem column_samples_eq (hd : m.DistinctColumns) {c : ColumnBuffer} (hc : c ∈ m.columns) (x : VersionedSample) :
    x ∈ c.data.samples ↔ (⟨c.data.seriesID, c.data.fieldID, x⟩ : Version) ∈ m.versions := by
  simp only [versions, Model.mem_versions, mem_map, ColumnData.mem_versions]
  constructor
  · exact fun hx => ⟨c.data, ⟨c, hc, rfl⟩, rfl, rfl, hx⟩
  · rintro ⟨_, ⟨d, hd', rfl⟩, hs, hf, hx⟩
    have hcd : c = d := by
      by_contra hne
      have hsymm : Std.Symm fun a b : ColumnBuffer => ¬ sameColumn a.data b.data := ⟨fun a b h hs => h hs.symm⟩
      exact hd.forall hc hd' hne ⟨hs.symm, hf.symm⟩
    exact hcd ▸ hx

/-- A MemTable query returns the newest versions it holds of the columns and times asked for. -/
theorem mem_query_iff : c ∈ m.query q ↔ ¬ q.stop < q.start ∧ c.samples ≠ [] ∧
    ∃ b ∈ m.columns, q.wants b.data.seriesID b.data.fieldID = true ∧
      { b.data with samples := compactSamples b.data.samples q } = c := by
  unfold query columnsFromData
  split
  · next h => simp [h]
  · next h => simp [h, sortColumnData, and_comm]

theorem mem_versions_of_query (h : v ∈ Model.versions (m.query q)) :
    (q.wants v.seriesID v.fieldID = true ∧ q.inWindow v.sample.timestamp = true) ∧ v ∈ m.versions := by
  obtain ⟨c, hc, hv⟩ := Model.mem_versions.mp h
  obtain ⟨-, -, b, hb, hw, rfl⟩ := mem_query_iff.mp hc
  obtain ⟨hs, hf, hx⟩ := ColumnData.mem_versions.mp hv
  obtain ⟨hx, hin⟩ := mem_filter.mp ((compactSamples_newestOf _ q).newest _ hx).1
  refine ⟨⟨hs ▸ hf ▸ hw, hin⟩, Model.mem_versions.mpr ⟨b.data, mem_map_of_mem hb, ?_⟩⟩
  exact ColumnData.mem_versions.mpr ⟨hs, hf, hx⟩

theorem mem_versions_query (hd : m.DistinctColumns) (hc : Consistent {v | v ∈ m.versions}) :
    v ∈ Model.versions (m.query q) ↔ q.wants v.seriesID v.fieldID = true ∧
      q.inWindow v.sample.timestamp = true ∧ IsLatest {u | u ∈ m.versions} v := by
  have hlatest : ∀ c ∈ m.columns, c.data.seriesID = v.seriesID → c.data.fieldID = v.fieldID →
      (v.sample ∈ compactSamples c.data.samples q ↔
        q.inWindow v.sample.timestamp = true ∧ IsLatest {u | u ∈ m.versions} v) := by
    intro c hcm hs hf
    have hset : {x | x ∈ c.data.samples} =
        {x | (⟨v.seriesID, v.fieldID, x⟩ : Version) ∈ m.versions} :=
      Set.ext fun x => hs ▸ hf ▸ column_samples_eq hd hcm x
    have hcons := hset ▸ @consistent_samples (m.columns.map ColumnBuffer.data) hc _ _
    rw [mem_compactSamples hcons, hset]
    exact and_congr_right fun _ => (@isLatest_versions_iff (m.columns.map ColumnBuffer.data) v).symm
  constructor
  · intro h
    obtain ⟨c, hcm, hv⟩ := Model.mem_versions.mp h
    obtain ⟨-, -, b, hb, -, rfl⟩ := mem_query_iff.mp hcm
    obtain ⟨hs, hf, hx⟩ := ColumnData.mem_versions.mp hv
    exact ⟨(mem_versions_of_query h).1.1, (hlatest b hb hs hf).mp hx⟩
  · rintro ⟨hw, hin, hl⟩
    obtain ⟨_, hmem, hv⟩ := Model.mem_versions.mp hl.1
    obtain ⟨b, hb, rfl⟩ := mem_map.mp hmem
    obtain ⟨hs, hf, -⟩ := ColumnData.mem_versions.mp hv
    have hx := (hlatest b hb hs hf).mpr ⟨hin, hl⟩
    refine Model.mem_versions.mpr ⟨_, mem_query_iff.mpr ⟨fun hlt => ?_, ne_nil_of_mem hx, b, hb, ?_, rfl⟩,
      ColumnData.mem_versions.mpr ⟨hs, hf, hx⟩⟩
    · obtain ⟨hlo, hhi⟩ := ColumnQuery.inWindow_iff.mp hin
      exact Int64.not_le.mpr hlt (Int64.le_trans hlo hhi)
    · rw [hs, hf]
      exact hw

theorem pairwise_columnLess_query (hd : m.DistinctColumns) (q : ColumnQuery) : (m.query q).Pairwise columnLess := by
  unfold query columnsFromData
  split
  · exact List.Pairwise.nil
  · have hle := pairwise_insertionSort columnLe ((m.columns.filterMap fun c =>
      if q.wants c.data.seriesID c.data.fieldID then
        some { c.data with samples := compactSamples c.data.samples q }
      else none).filter fun c => !c.samples.isEmpty)
    refine (hle.and ((perm_insertionSort _ _).symm.pairwise ?_ fun h => ?_)).imp
      fun h => columnLess_of_le h.1 h.2
    · refine List.Pairwise.filter _ (pairwise_filterMap.mpr (hd.imp fun hab c hc d hd hs => hab ?_))
      split at hc
      · split at hd
        · cases hc
          cases hd
          exact hs
        · simp at hd
      · simp at hc
    · exact fun hs => h hs.symm

def restored (buffers : List ColumnBuffer) : List ColumnBuffer :=
  (buffers.filter fun c => !c.data.samples.isEmpty).map fun c => ⟨c.data, restoredLast c⟩

theorem appendColumn_new (h : ∀ c ∈ cs, ¬ sameColumn c.data src.data) :
    appendColumn src cs = cs ++ [⟨src.data, restoredLast src⟩] := by
  induction cs with
  | nil => rfl
  | cons c cs ih =>
    rw [appendColumn, if_neg (h c mem_cons_self), ih fun d hd => h d (mem_cons_of_mem _ hd)]
    rfl

theorem foldl_restoreColumn (m : MemTable) (buffers : List ColumnBuffer)
    (hd : buffers.Pairwise fun a b => ¬ sameColumn a.data b.data)
    (hnew : ∀ b ∈ buffers, ∀ c ∈ m.columns, ¬ sameColumn c.data b.data) :
    buffers.foldl restoreColumn m = { m with
      columns := m.columns ++ restored buffers
      sampleCount := m.sampleCount + (versions { m with columns := buffers }).length } := by
  induction buffers generalizing m with
  | nil => simp [restored, versions]
  | cons b buffers ih =>
    obtain ⟨hb, hrest⟩ := pairwise_cons.mp hd
    rw [foldl_cons, restoreColumn]
    split
    · next hempty =>
      have hnil : b.data.samples = [] := List.isEmpty_iff.mp hempty
      rw [ih m hrest fun d hd => hnew d (mem_cons_of_mem _ hd)]
      simp [restored, versions, Model.versions, ColumnData.versions, hnil]
    · next hne =>
      rw [ih _ hrest]
      · rw [appendColumn_new (hnew b mem_cons_self)]
        simp [restored, versions, Model.versions, ColumnData.versions, hne]
        omega
      · intro d hd c hc
        rw [appendColumn_new (hnew b mem_cons_self), mem_append, mem_singleton] at hc
        rcases hc with hc | rfl
        · exact hnew d (mem_cons_of_mem _ hd) c hc
        · exact hb d hd

theorem restored_distinct (hd : buffers.Pairwise fun a b => ¬ sameColumn a.data b.data) :
    (restored buffers).Pairwise fun a b => ¬ sameColumn a.data b.data :=
  pairwise_map.mpr ((hd.filter _).imp fun h => h)

def readBuffer (q : ColumnQuery) (c : ColumnData) : List ColumnData :=
  (if q.wants c.seriesID c.fieldID then [{ c with samples := compactSamples c.samples q }] else []).filter
    fun d => !d.samples.isEmpty

theorem compactSamples_nil (q : ColumnQuery) : compactSamples [] q = [] := rfl

theorem readBuffer_nil (h : c.samples = []) : readBuffer q c = [] := by
  unfold readBuffer
  split
  · simp [h, compactSamples_nil]
  · rfl

theorem columnsFromData_eq (columns : List ColumnBuffer) (q : ColumnQuery) :
    columnsFromData columns q = if q.stop < q.start then []
      else sortColumnData (columns.flatMap fun c => readBuffer q c.data) := by
  unfold columnsFromData
  congr 2
  induction columns with
  | nil => rfl
  | cons c columns ih =>
    rw [flatMap_cons, ← ih, filterMap_cons, readBuffer]
    by_cases hwants : q.wants c.data.seriesID c.data.fieldID
    · simp only [if_pos hwants]
      rw [← filter_append]
      rfl
    · simp only [if_neg hwants]
      rfl

theorem flatMap_restored (q : ColumnQuery) (buffers : List ColumnBuffer) :
    ((restored buffers).flatMap fun c => readBuffer q c.data) = buffers.flatMap fun c => readBuffer q c.data := by
  induction buffers with
  | nil => rfl
  | cons b buffers ih =>
    rw [flatMap_cons, ← ih, restored, filter_cons]
    split
    · rfl
    · next hempty =>
      rw [readBuffer_nil (by simpa using hempty)]
      rfl

theorem versions_restored (m : MemTable) (buffers : List ColumnBuffer) :
    versions { m with columns := restored buffers } = versions { m with columns := buffers } := by
  induction buffers with
  | nil => rfl
  | cons b buffers ih =>
    simp only [versions, Model.versions, map_cons, flatMap_cons] at ih ⊢
    rw [← ih, restored, filter_cons]
    split
    · rfl
    · next hempty =>
      have hnil : b.data.samples = [] := by simpa using hempty
      rw [ColumnData.versions, hnil]
      rfl

structure Restored (m r : MemTable) : Prop where
  distinct : r.DistinctColumns
  versions : r.versions.Perm m.versions
  query : ∀ q, r.query q = m.query q
  buffers : ∀ c ∈ m.columns, c.data.samples ≠ [] → ∃ d ∈ r.columns, d.data = c.data

theorem restored_of_reset (hd : m.DistinctColumns) (hperm : buffers.Perm m.columns) (hcount : m.sampleCount ≠ 0) :
    Restored m (m.reset.restore m.sampleCount buffers) := by
  have hdb : buffers.Pairwise fun a b => ¬ sameColumn a.data b.data := hperm.symm.pairwise hd fun h hs => h hs.symm
  have hcolumns : (m.reset.restore m.sampleCount buffers).columns = restored buffers := by
    rw [restore, if_neg hcount, foldl_restoreColumn _ _ hdb (by simp [reset])]
    simp [reset]
  have hdistinct : (m.reset.restore m.sampleCount buffers).DistinctColumns := by
    rw [DistinctColumns, hcolumns]
    exact restored_distinct hdb
  refine ⟨hdistinct, ?_, fun q => ?_, fun c hc hne => ?_⟩
  · rw [versions, hcolumns]
    refine (List.Perm.of_eq (versions_restored m buffers)).trans ?_
    exact (hperm.map _).flatMap_right _
  · have hsorted := pairwise_columnLess_query hdistinct q
    have hsorted' := pairwise_columnLess_query hd q
    have : Std.Antisymm columnLess := ⟨fun a b hab hba => absurd (hab.trans hba) (fun h => h.ne ⟨rfl, rfl⟩)⟩
    refine List.Perm.eq_of_pairwise' hsorted hsorted' ?_
    unfold query
    rw [columnsFromData_eq, columnsFromData_eq, hcolumns, flatMap_restored]
    split
    · exact List.Perm.refl _
    · refine (perm_insertionSort _ _).trans ?_
      exact (hperm.flatMap_right _).trans (perm_insertionSort _ _).symm
  · refine ⟨⟨c.data, restoredLast c⟩, ?_, rfl⟩
    rw [hcolumns]
    exact mem_map.mpr ⟨c, mem_filter.mpr ⟨hperm.mem_iff.mpr hc, by simpa using hne⟩, rfl⟩

end MemTable
end Mts.Engine
