import Mts.Engine.ColumnMerge

/-! The part writer, `sstable/stream_write.go`, and parts as values. A part is the list of its index
rows, one for each `AddSeries` call; `Part.query` reads back what was written, one column for each
series and field. -/

namespace Mts.Sstable
open Lib Model Engine List

variable {v : Version} {seriesID : UInt64}

structure PartMeta where
  id : GoString
  level : Int
  minTime : Int64
  maxTime : Int64
  minSeriesID : UInt64
  maxSeriesID : UInt64
  rowsCount : Nat
  seriesCount : Nat
  blockCount : Nat
  maxWriteSeq : UInt64
  path : GoString
  deriving DecidableEq, Repr

structure IndexRow where
  seriesID : UInt64
  minTime : Int64
  maxTime : Int64
  columns : List ColumnData
  deriving DecidableEq, Repr

structure Part where
  partMeta : PartMeta
  rows : List IndexRow
  deriving DecidableEq, Repr

variable {p : Part}

theorem mem_iff_mem_window {α : Type} {l : List α} (h : l.length ≤ n * m) (x : α) :
    x ∈ l ↔ ∃ i < n, x ∈ (l.drop (i * m)).take m := by
  constructor
  · intro hx
    obtain ⟨k, hk, rfl⟩ := mem_iff_getElem.mp hx
    have hm : 0 < m := Nat.pos_of_ne_zero fun h0 => by subst h0; omega
    have hdiv := Nat.div_add_mod k m
    have hmod := Nat.mod_lt k hm
    refine ⟨k / m, Nat.div_lt_of_lt_mul (by rw [Nat.mul_comm]; omega), ?_⟩
    rw [mem_iff_getElem]
    have hmul : m * (k / m) = k / m * m := Nat.mul_comm ..
    refine ⟨k % m, ?_, ?_⟩
    · rw [length_take, length_drop]
      omega
    · rw [getElem_take, getElem_drop]
      congr 1
      omega
  · rintro ⟨i, -, hx⟩
    exact mem_of_mem_drop (mem_of_mem_take hx)

def columnTimes (column : ColumnData) : List Int64 := column.samples.map VersionedSample.timestamp

def alignedTimestamps : List ColumnData → Option (List Int64)
  | [] => some []
  | first :: rest =>
    if rest.all fun c => columnTimes c = columnTimes first then some (columnTimes first) else none

/-- Each round reads at least one sample, so the total number of samples is fuel enough. -/
def mergeTimestampsLoop : Nat → List Samples → List Int64
  | 0, _ => []
  | fuel + 1, columns =>
    match nextMinTimestamp columns with
    | none => []
    | some timestamp => timestamp :: mergeTimestampsLoop fuel (consumeColumns timestamp columns none).1

def mergeColumnTimestamps (columns : List ColumnData) : List Int64 :=
  mergeTimestampsLoop (columns.flatMap ColumnData.samples).length (columns.map ColumnData.samples)

def collectTimestampsFallback (columns : List ColumnData) : List Int64 :=
  (columns.flatMap columnTimes).dedup.insertionSort (· ≤ ·)

def collectTimestamps (columns : List ColumnData) : List Int64 :=
  match alignedTimestamps columns with
  | some timestamps => timestamps
  | none =>
    if columnsSamplesOrdered columns then mergeColumnTimestamps columns
    else collectTimestampsFallback columns

def sortByField (columns : List ColumnData) : List ColumnData := columns.insertionSort fun a b => a.fieldID ≤ b.fieldID

def writeSeries (seriesID : UInt64) (columns : List ColumnData) : IndexRow :=
  let columns := sortByField columns
  let timestamps := collectTimestamps columns
  { seriesID := seriesID
    minTime := timestamps.headD 0
    maxTime := timestamps.getLastD 0
    columns := columns }

def updateMeta (m : PartMeta) (row : IndexRow) : PartMeta :=
  let samples := row.columns.flatMap ColumnData.samples
  { m with
    minTime := if m.rowsCount = 0 ∨ row.minTime < m.minTime then row.minTime else m.minTime
    maxTime := if row.maxTime > m.maxTime then row.maxTime else m.maxTime
    minSeriesID :=
      if m.seriesCount = 0 ∨ row.seriesID < m.minSeriesID then row.seriesID else m.minSeriesID
    maxSeriesID := if row.seriesID > m.maxSeriesID then row.seriesID else m.maxSeriesID
    seriesCount := m.seriesCount + 1
    blockCount := m.blockCount + 1
    rowsCount := m.rowsCount + samples.length
    maxWriteSeq := samples.foldl (fun seq s => if s.writeSeq > seq then s.writeSeq else seq) m.maxWriteSeq }

structure PartWriter where
  path : GoString
  rows : List IndexRow
  partMeta : PartMeta
  deriving DecidableEq, Repr

variable {w : PartWriter}

/-- `newMetadata` leaves the path open; `Close` fills it in. -/
def newPartWriter (path : GoString) (level : Int) (id : GoString) : PartWriter :=
  ⟨path, [], ⟨id, level, 0, 0, 0, 0, 0, 0, 0, 0, []⟩⟩

inductive WriteError
  | mixedSeries | emptyColumn | noRows
  deriving DecidableEq, Repr

def WriteError.message : WriteError → String
  | mixedSeries => "mixed series in streaming part writer"
  | emptyColumn => "empty column in streaming part writer"
  | noRows => "part writer has no rows"

def checkSeries (seriesID : UInt64) : List ColumnData → Except WriteError Unit
  | [] => .ok ()
  | c :: cs =>
    if c.seriesID ≠ seriesID then .error .mixedSeries
    else if c.samples.isEmpty then .error .emptyColumn
    else checkSeries seriesID cs

namespace PartWriter

def addSeries (w : PartWriter) (columns : List ColumnData) : Except WriteError PartWriter :=
  match columns with
  | [] => .ok w
  | first :: _ =>
    match checkSeries first.seriesID columns with
    | .error e => .error e
    | .ok () =>
      let row := writeSeries first.seriesID columns
      .ok { w with rows := w.rows ++ [row], partMeta := updateMeta w.partMeta row }

def close (w : PartWriter) : Except WriteError Part :=
  if w.rows.isEmpty then .error .noRows
  else .ok ⟨{ w.partMeta with path := w.path }, w.rows⟩

end PartWriter

def rowVersions (rows : List IndexRow) : List Version := versions (rows.flatMap IndexRow.columns)

namespace Part

def versions (p : Part) : List Version := rowVersions p.rows

/-- The written columns, those of one series and field joined in the order they were written. -/
def columns (p : Part) : List ColumnData :=
  (groupColumns (sortColumnData (p.rows.flatMap IndexRow.columns))).map fun g =>
    { g.1 with samples := g.samples }

/-- A scan of the part, as every read path is meant to answer it. -/
def query (p : Part) (q : ColumnQuery) : List ColumnData :=
  ((p.columns.filter fun c => q.wants c.seriesID c.fieldID).map fun c =>
    { c with samples := c.samples.filter fun s => q.inWindow s.timestamp }).filter
      fun c => !c.samples.isEmpty

theorem mem_versions_columns : v ∈ Model.versions p.columns ↔ v ∈ p.versions := by
  have hgroups := groups_sortColumnData (p.rows.flatMap IndexRow.columns)
  rw [columns, versions, rowVersions]
  constructor
  · intro hv
    obtain ⟨_, hd, hs, hf, hx⟩ := by simpa only [Model.mem_versions, ColumnData.mem_versions] using hv
    obtain ⟨g, hg, rfl⟩ := mem_map.mp hd
    have := (hgroups.mem_samples hg v.sample).mp hx
    rwa [hs, hf] at this
  · intro hv
    obtain ⟨c, hc, hs, hf, -⟩ := by simpa only [Model.mem_versions, ColumnData.mem_versions] using hv
    obtain ⟨g, hg, hgc⟩ := hgroups.cover c hc
    rw [Model.mem_versions]
    refine ⟨_, mem_map_of_mem hg, ?_⟩
    rw [ColumnData.mem_versions]
    have hgs : g.1.seriesID = v.seriesID := hgc.1.trans hs
    have hgf : g.1.fieldID = v.fieldID := hgc.2.trans hf
    refine ⟨hgs, hgf, (hgroups.mem_samples hg v.sample).mpr ?_⟩
    rwa [hgs, hgf]

theorem pairwise_columnLess_columns (p : Part) : p.columns.Pairwise columnLess :=
  pairwise_map.mpr (groups_sortColumnData _).sorted

theorem mem_versions_query :
    v ∈ Model.versions (p.query q) ↔ v ∈ p.versions ∧ q.wants v.seriesID v.fieldID = true ∧
      q.inWindow v.sample.timestamp = true := by
  rw [query, mem_versions_filter_nonempty, ← mem_versions_columns]
  simp only [Model.mem_versions, mem_map, mem_filter, ColumnData.mem_versions]
  constructor
  · rintro ⟨_, ⟨c, ⟨hc, hw⟩, rfl⟩, hs, hf, hx⟩
    obtain ⟨hx, hin⟩ := mem_filter.mp hx
    rw [hs, hf] at hw
    exact ⟨⟨c, hc, hs, hf, hx⟩, hw, hin⟩
  · rintro ⟨⟨c, hc, hs, hf, hx⟩, hw, hin⟩
    rw [← hs, ← hf] at hw
    exact ⟨_, ⟨c, ⟨hc, hw⟩, rfl⟩, hs, hf, mem_filter.mpr ⟨hx, hin⟩⟩

theorem pairwise_columnLess_query (p : Part) (q : ColumnQuery) : (p.query q).Pairwise columnLess := by
  apply List.Pairwise.filter
  apply pairwise_map.mpr
  exact p.pairwise_columnLess_columns.filter _

end Part

def Part.BoundsSeqs (p : Part) : Prop := ∀ v ∈ p.versions, v.sample.writeSeq ≤ p.partMeta.maxWriteSeq

theorem foldl_max_le_iff {α : Type} (f : α → UInt64) {l : List α} :
    l.foldl (fun m x => if f x > m then f x else m) a ≤ n ↔ a ≤ n ∧ ∀ x ∈ l, f x ≤ n := by
  induction l generalizing a with
  | nil => simp
  | cons x l ih =>
    rw [foldl_cons, ih, forall_mem_cons, ← and_assoc]
    refine and_congr_left fun _ => ?_
    split
    · next h => exact ⟨fun hx => ⟨UInt64.le_trans (UInt64.le_of_lt h) hx, hx⟩, And.right⟩
    · next h => exact ⟨fun ha => ⟨ha, UInt64.le_trans (UInt64.not_lt.mp h) ha⟩, And.left⟩

theorem mem_rowVersions_append : v ∈ rowVersions (a ++ b) ↔ v ∈ rowVersions a ∨ v ∈ rowVersions b := by
  rw [rowVersions, flatMap_append, versions_append, mem_append]
  rfl

theorem mem_versions_writeSeries : v ∈ rowVersions [writeSeries seriesID columns] ↔ v ∈ versions columns := by
  simp [rowVersions, writeSeries, sortByField]

theorem checkSeries_of (h : ∀ c ∈ columns, c.seriesID = seriesID ∧ c.samples ≠ []) :
    checkSeries seriesID columns = .ok () := by
  induction columns with
  | nil => rfl
  | cons c cs ih =>
    obtain ⟨hs, hne⟩ := h c mem_cons_self
    rw [checkSeries, if_neg (not_not.mpr hs), if_neg (by simpa using hne)]
    exact ih fun d hd => h d (mem_cons_of_mem _ hd)

namespace PartWriter

variable {w' : PartWriter}

def versions (w : PartWriter) : List Version := rowVersions w.rows

theorem addSeries_ok (h : w.addSeries columns = .ok w') :
    ∀ v, v ∈ w'.versions ↔ v ∈ w.versions ∨ v ∈ Model.versions columns := by
  intro v
  cases columns with
  | nil =>
    obtain rfl : w = w' := by simpa [addSeries] using h
    simp
  | cons first rest =>
    simp only [addSeries] at h
    split at h
    · simp at h
    · cases h
      rw [versions, mem_rowVersions_append, mem_versions_writeSeries]
      rfl

def BoundsSeqs (w : PartWriter) : Prop := ∀ v ∈ w.versions, v.sample.writeSeq ≤ w.partMeta.maxWriteSeq

theorem BoundsSeqs.addSeries {columns : List ColumnData} (hw : w.BoundsSeqs) (h : w.addSeries columns = .ok w') :
    w'.BoundsSeqs := by
  intro v hv
  cases columns with
  | nil =>
    obtain rfl : w = w' := by simpa [PartWriter.addSeries] using h
    exact hw v hv
  | cons first rest =>
    simp only [PartWriter.addSeries] at h
    split at h
    · simp at h
    · cases h
      obtain ⟨hold, hnew⟩ := (foldl_max_le_iff VersionedSample.writeSeq).mp (UInt64.le_refl
        (updateMeta w.partMeta (writeSeries first.seriesID (first :: rest))).maxWriteSeq)
      rcases mem_rowVersions_append.mp hv with hv | hv
      · exact UInt64.le_trans (hw v hv) hold
      · obtain ⟨c, hc, hvc⟩ := mem_versions.mp hv
        rw [flatMap_singleton] at hc
        exact hnew _ (mem_flatMap.mpr ⟨c, hc, (ColumnData.mem_versions.mp hvc).2.2⟩)

theorem addSeries_exists (w : PartWriter) (h : ∀ d ∈ c :: rest, d.seriesID = c.seriesID ∧ d.samples ≠ []) :
    ∃ w', w.addSeries (c :: rest) = .ok w' ∧ w'.rows.length = w.rows.length + 1 := by
  simp only [addSeries, checkSeries_of h]
  exact ⟨_, rfl, by simp⟩

theorem addSeries_path (h : w.addSeries columns = .ok w') : w'.path = w.path := by
  unfold addSeries at h
  split at h
  · rw [Except.ok.inj h]
  · split at h
    · simp at h
    · rw [← Except.ok.inj h]

theorem close_path (h : w.close = .ok p) : p.partMeta.path = w.path := by
  unfold close at h
  split at h
  · simp at h
  · rw [← Except.ok.inj h]

theorem close_ok (h : w.close = .ok p) : p.versions = w.versions := by
  unfold close at h
  split at h
  · simp at h
  · cases h
    rfl

theorem BoundsSeqs.close (hw : w.BoundsSeqs) (h : w.close = .ok p) : p.BoundsSeqs := by
  unfold PartWriter.close at h
  split at h
  · simp at h
  · cases h
    exact hw

theorem close_exists (h : w.rows ≠ []) : ∃ p, w.close = .ok p := by
  rw [close, if_neg (by simpa using h)]
  exact ⟨_, rfl⟩

end PartWriter
theorem mergeTimestampsLoop_spec (fuel : Nat) (columns : List Samples)
    (hfuel : columns.flatten.length ≤ fuel) (hord : ColumnsOrdered columns) :
    (mergeTimestampsLoop fuel columns).Pairwise (· < ·) ∧
      ∀ t, t ∈ mergeTimestampsLoop fuel columns ↔ ∃ x ∈ columns.flatten, x.timestamp = t := by
  induction fuel generalizing columns with
  | zero =>
    have hnil : columns.flatten = [] := eq_nil_of_length_eq_zero (by omega)
    simp [mergeTimestampsLoop, hnil]
  | succ fuel ih =>
    rw [mergeTimestampsLoop]
    cases hn : nextMinTimestamp columns with
    | none => simp [nextMinTimestamp_none hn]
    | some t =>
      obtain ⟨⟨y, hy, hyt⟩, hall⟩ := nextMinTimestamp_some hord hn
      have hflat : (columns.map fun c => c.filter fun x => x.timestamp ≠ t).flatten =
          columns.flatten.filter fun x => x.timestamp ≠ t := filter_flatten.symm
      have hlt : (columns.flatten.filter fun x => decide (x.timestamp ≠ t)).length <
          columns.flatten.length := length_filter_lt_length_iff_exists.mpr ⟨y, hy, by simp [hyt]⟩
      simp only [consumeColumns_eq hord hall]
      obtain ⟨hsorted, hmem⟩ := ih (columns.map fun c => c.filter fun x => x.timestamp ≠ t)
        (by rw [hflat]; omega)
        (fun c hc => by
          obtain ⟨d, hd, rfl⟩ := mem_map.mp hc
          exact (hord d hd).filter _)
      simp only [hflat, mem_filter, decide_eq_true_eq] at hmem
      refine ⟨pairwise_cons.mpr ⟨fun u hu => ?_, hsorted⟩, fun u => ?_⟩
      · obtain ⟨x, ⟨hx, hne⟩, rfl⟩ := (hmem u).mp hu
        obtain ⟨c, hc, hxc⟩ := mem_flatten.mp hx
        exact Int64.lt_of_le_of_ne (hall c hc x hxc) (Ne.symm hne)
      · rw [mem_cons, hmem]
        constructor
        · rintro (rfl | ⟨x, ⟨hx, -⟩, rfl⟩)
          · exact ⟨y, hy, hyt⟩
          · exact ⟨x, hx, rfl⟩
        · rintro ⟨x, hx, rfl⟩
          by_cases hxt : x.timestamp = t
          · exact .inl hxt
          · exact .inr ⟨x, ⟨hx, hxt⟩, rfl⟩

theorem mergeColumnTimestamps_spec (hord : columnsSamplesOrdered columns = true) :
    (mergeColumnTimestamps columns).Pairwise (· < ·) ∧
      ∀ t, t ∈ mergeColumnTimestamps columns ↔ ∃ c ∈ columns, t ∈ columnTimes c := by
  have hspec := mergeTimestampsLoop_spec (columns.flatMap ColumnData.samples).length
    (columns.map ColumnData.samples) (by rw [flatMap_def]) fun c hc => by
      obtain ⟨d, hd, rfl⟩ := mem_map.mp hc
      exact (samplesOrdered_iff _).mp (all_eq_true.mp hord d hd)
  refine ⟨hspec.1, fun t => (hspec.2 t).trans ?_⟩
  simp only [← flatMap_def, mem_flatMap, columnTimes, mem_map]
  constructor
  · rintro ⟨x, ⟨c, hc, hx⟩, rfl⟩
    exact ⟨c, hc, x, hx, rfl⟩
  · rintro ⟨c, hc, x, hx, rfl⟩
    exact ⟨x, ⟨c, hc, hx⟩, rfl⟩

theorem alignedTimestamps_some (h : alignedTimestamps columns = some timestamps) :
    (∀ c ∈ columns, columnTimes c = timestamps) ∧ (columns = [] → timestamps = []) := by
  cases columns with
  | nil =>
    cases h
    simp
  | cons first rest =>
    rw [alignedTimestamps] at h
    split at h
    · next haligned =>
      cases h
      exact ⟨forall_mem_cons.mpr ⟨rfl, by simpa using haligned⟩, nofun⟩
    · simp at h

theorem mem_collectTimestamps : t ∈ collectTimestamps columns ↔ ∃ c ∈ columns, t ∈ columnTimes c := by
  unfold collectTimestamps
  split
  · next timestamps h =>
    obtain ⟨hall, hnil⟩ := alignedTimestamps_some h
    constructor
    · intro ht
      obtain ⟨c, hc⟩ := exists_mem_of_ne_nil columns fun h => by simp [hnil h] at ht
      exact ⟨c, hc, (hall c hc).symm ▸ ht⟩
    · rintro ⟨c, hc, ht⟩
      exact hall c hc ▸ ht
  · split
    · next hord => exact (mergeColumnTimestamps_spec hord).2 t
    · rw [collectTimestampsFallback, mem_insertionSort, mem_dedup, mem_flatMap]

theorem collectTimestamps_spec (hsorted : ∀ c ∈ columns, c.samples.Pairwise (·.timestamp < ·.timestamp)) :
    (collectTimestamps columns).Pairwise (· < ·) ∧
      ∀ t, t ∈ collectTimestamps columns ↔ ∃ c ∈ columns, t ∈ columnTimes c := by
  refine ⟨?_, fun t => mem_collectTimestamps⟩
  unfold collectTimestamps
  split
  · next timestamps h =>
    obtain ⟨hall, hnil⟩ := alignedTimestamps_some h
    cases columns with
    | nil => exact hnil rfl ▸ .nil
    | cons first rest => exact hall first mem_cons_self ▸ pairwise_map.mpr (hsorted first mem_cons_self)
  · have hord : columnsSamplesOrdered columns = true := by
      simp only [columnsSamplesOrdered, all_eq_true, samplesOrdered_iff]
      exact fun c hc => (hsorted c hc).imp Int64.le_of_lt
    rw [if_pos hord]
    exact (mergeColumnTimestamps_spec hord).1

theorem head_le_last_of_mem {l : List Int64} (h : l.Pairwise (· < ·)) (ht : t ∈ l) :
    l.headD 0 ≤ t ∧ t ≤ l.getLastD 0 := by
  constructor
  · cases l with
    | nil => simp at ht
    | cons a l =>
      rcases mem_cons.mp ht with rfl | ht
      · exact Int64.le_refl _
      · exact Int64.le_of_lt ((pairwise_cons.mp h).1 t ht)
  · rcases eq_nil_or_concat l with rfl | ⟨l, a, rfl⟩
    · simp at ht
    · rw [concat_eq_append] at *
      simp only [getLastD_concat]
      rcases mem_append.mp ht with ht | ht
      · exact Int64.le_of_lt ((pairwise_append.mp h).2.2 t ht a (by simp))
      · exact Int64.le_of_eq (by simpa using ht)

end Mts.Sstable
