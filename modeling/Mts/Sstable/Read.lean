import Mts.Sstable.Page

/-! The files of a part and its read paths, `sstable/read.go`, `read_index.go`, `read_page_match.go`,
`scan.go` and `series_reader.go`. An index row points to its time block and to the pages of its
columns, a series index row to an index row by position. -/

namespace Mts.Sstable
open Lib Model Engine List

variable {c : ColumnData} {rowTimestamps : List Int64} {fieldType : FieldType} {columns out : List ColumnData}
  {r : IndexRow} {v : Version} {rows : List IndexRow}

structure ColumnRef where
  fieldID : UInt32
  fieldType : FieldType
  pages : List ValuePage

structure StoredRow where
  seriesID : UInt64
  minTime : Int64
  maxTime : Int64
  timestamps : List Int64
  columns : List ColumnRef

variable {row : StoredRow} {stored : List StoredRow}

structure SeriesIndexRow where
  seriesID : UInt64
  minTime : Int64
  maxTime : Int64
  fieldIDs : List UInt32
  indexRef : Nat
  deriving DecidableEq, Repr

/-- `metaRows` holds the field IDs of each metaindex row. -/
structure StoredPart where
  partMeta : PartMeta
  metaRows : List (List UInt32)
  seriesRows : List SeriesIndexRow
  rows : List StoredRow

def storeRow (encode : ValueEncoder) (opts : CompressionOptions) (row : IndexRow) : Except PageError StoredRow := do
  let timestamps := collectTimestamps row.columns
  let columns ← row.columns.mapM fun c => do
    let pages ← writeValuePages encode opts timestamps c
    .ok (ColumnRef.mk c.fieldID c.fieldType pages)
  .ok ⟨row.seriesID, row.minTime, row.maxTime, timestamps, columns⟩

def collectRowFieldIDs (row : StoredRow) : List UInt32 := (row.columns.map ColumnRef.fieldID).insertionSort (· ≤ ·)

def collectFieldIDs (rows : List StoredRow) : List UInt32 :=
  (rows.flatMap fun r => r.columns.map ColumnRef.fieldID).dedup.insertionSort (· ≤ ·)

def seriesIndexRow (row : StoredRow) (ref : Nat) : SeriesIndexRow :=
  ⟨row.seriesID, row.minTime, row.maxTime, collectRowFieldIDs row, ref⟩

def seriesIndexFromRows (rows : List StoredRow) : List SeriesIndexRow :=
  rows.zipIdx.map fun x => seriesIndexRow x.1 x.2

def storePart (encode : ValueEncoder) (opts : CompressionOptions) (p : Part) : Except PageError StoredPart := do
  let rows ← p.rows.mapM (storeRow encode opts)
  .ok ⟨p.partMeta, [collectFieldIDs rows], seriesIndexFromRows rows, rows⟩

inductive PartError
  | write (e : WriteError)
  | page (e : PageError)
  deriving DecidableEq, Repr

/-- `NewPartWriter`, the calls of `AddSeries`, `Close` and opening the part. -/
def writePart (encode : ValueEncoder) (opts : CompressionOptions) (path : GoString) (level : Int)
    (id : GoString) (calls : List (List ColumnData)) : Except PartError StoredPart := do
  let w ← (calls.foldlM PartWriter.addSeries (newPartWriter path level id)).mapError .write
  let p ← w.close.mapError .write
  (storePart encode opts p).mapError .page

def containsID {α : Type} [BEq α] (filter : List α) (id : α) : Bool := filter.isEmpty || filter.contains id

def queryPredicateFloatValue (p : FieldPredicate) : UInt64 :=
  match p.value with
  | .float64 bits => bits
  | .int64 value => Float64.ofInt64 value
  | _ => 0

def queryPredicateIntValue (p : FieldPredicate) : Int64 :=
  match p.value with
  | .int64 value => value
  | .float64 bits => Float64.toInt64 bits
  | _ => 0

/-- The page holds a value between `minimum` and `maximum` that may satisfy the comparison. -/
def pageMayMatch {α : Type} (lt le eq : α → α → Bool) (minimum maximum value : α) : FieldComparison → Bool
  | .eq => le minimum value && le value maximum
  | .ne => !eq minimum maximum || !eq value minimum
  | .gt => lt value maximum
  | .gte => le value maximum
  | .lt => lt minimum value
  | .lte => le minimum value

def floatPageMayMatchPredicate (minimum maximum : UInt64) (p : FieldPredicate) : Bool :=
  pageMayMatch Float64.lt Float64.le Float64.eq minimum maximum (queryPredicateFloatValue p) p.kind

def intPageMayMatchPredicate (minimum maximum : Int64) (p : FieldPredicate) : Bool :=
  pageMayMatch (fun a b => decide (a < b)) (fun a b => decide (a ≤ b)) (fun a b => decide (a = b))
    minimum maximum (queryPredicateIntValue p) p.kind

def numericPageMayMatchPredicate (stats : ValuePageStats) (p : FieldPredicate) : Bool :=
  match stats with
  | .none => true
  | .float64 minimum maximum => floatPageMayMatchPredicate minimum maximum p
  | .int64 minimum maximum => intPageMayMatchPredicate minimum maximum p

def valuePageMatchesQuery (fieldID : UInt32) (q : StorageQuery) (minTime maxTime : Int64)
    (stats : ValuePageStats) : Bool :=
  !(decide (maxTime < q.start) || decide (q.stop < minTime)) &&
    (q.fieldPredicates fieldID).all (numericPageMayMatchPredicate stats)

def selectBoundaryPageRefs {α : Type} (pages : List α) : QueryBoundaryMode → List α
  | .none => pages
  | .first => pages.take 1
  | .last => pages.drop (pages.length - 1)
  | .both => if pages.length ≤ 1 then pages else pages.take 1 ++ pages.drop (pages.length - 1)

def sortSamples (samples : Samples) : Samples :=
  if samplesOrdered samples then samples
  else samples.insertionSort fun a b => a.timestamp ≤ b.timestamp

/-- `readValuePagesFromIndexPayload`: the matching pages, or the boundary pages among them. -/
def readValueColumn (row : StoredRow) (q : StorageQuery) (ref : ColumnRef) : Except PageError ColumnData := do
  let pages := ref.pages.filter fun page =>
    valuePageMatchesQuery ref.fieldID q page.minTime page.maxTime page.stats
  let samples ← (selectBoundaryPageRefs pages q.boundary).mapM fun page =>
    readValueBlock row.timestamps q.toColumnQuery page.block
  .ok ⟨row.seriesID, ref.fieldID, ref.fieldType, sortSamples samples.flatten⟩

def queryRow (q : StorageQuery) (row : StoredRow) : Except PageError (List ColumnData) := do
  let columns ← (row.columns.filter fun c => containsID q.fieldIDs c.fieldID).mapM (readValueColumn row q)
  .ok (columns.filter fun c => !c.samples.isEmpty)

/-- The query without predicates and boundary that the unfiltered paths pass on. -/
def plainQuery (q : StorageQuery) : StorageQuery :=
  { seriesIDs := [], fieldIDs := q.fieldIDs, start := q.start, stop := q.stop
    boundary := .none, fieldPredicates := fun _ => [] }

/-- `rowMatches` and `rowHeaderMatches`. -/
def rowMatches (q : ColumnQuery) (row : StoredRow) : Bool :=
  containsID q.seriesIDs row.seriesID && (decide (q.start ≤ row.maxTime) && decide (row.minTime ≤ q.stop))

def seriesIndexRowMatches (q : ColumnQuery) (row : SeriesIndexRow) : Bool :=
  !(decide (row.maxTime < q.start) || decide (q.stop < row.minTime)) &&
    (q.fieldIDs.isEmpty || row.fieldIDs.any q.fieldIDs.contains)

namespace StoredPart

def partMatches (p : StoredPart) (q : ColumnQuery) : Bool :=
  !(decide (p.partMeta.maxTime < q.start) || decide (q.stop < p.partMeta.minTime)) &&
    ((q.seriesIDs.isEmpty || q.seriesIDs.any fun id =>
      decide (p.partMeta.minSeriesID ≤ id) && decide (id ≤ p.partMeta.maxSeriesID)) &&
    (q.fieldIDs.isEmpty || p.metaRows.isEmpty || p.metaRows.any fun ids => ids.any q.fieldIDs.contains))

def readIndexRowBlock (p : StoredPart) (ref : Nat) : Except PageError StoredRow :=
  match p.rows[ref]? with
  | none => .error .missingRow
  | some row => .ok row

/-- `sort.Search` finds the first row of the series or of a later one. -/
def matchingSeriesIndexRows (p : StoredPart) (q : ColumnQuery) (seriesIDs : List UInt64) : List SeriesIndexRow :=
  seriesIDs.filterMap fun id =>
    (p.seriesRows.find? fun row => decide (id ≤ row.seriesID)).filter fun row =>
      row.seriesID = id && seriesIndexRowMatches q row

def querySeriesRows (p : StoredPart) (q : StorageQuery) (rows : List SeriesIndexRow) :
    Except PageError (List ColumnData) := do
  let columns ← rows.mapM fun row => do
    let indexRow ← p.readIndexRowBlock row.indexRef
    if rowMatches q.toColumnQuery indexRow then queryRow q indexRow else .ok []
  .ok columns.flatten

def querySeriesIndexRows (p : StoredPart) (q : StorageQuery) (seriesIDs : List UInt64) :
    Except PageError (List ColumnData) :=
  (p.querySeriesRows q (p.matchingSeriesIndexRows q.toColumnQuery seriesIDs)).map sortColumnData

def queryAllRows (p : StoredPart) (q : StorageQuery) : Except PageError (List ColumnData) := do
  let columns ← (p.rows.filter (rowMatches q.toColumnQuery)).mapM (queryRow (plainQuery q))
  .ok columns.flatten

/-- The keys of the map `query.SeriesIDs` in order. -/
def sortedQuerySeriesIDs (q : ColumnQuery) : List UInt64 := q.seriesIDs.dedup.insertionSort (· ≤ ·)

def query (p : StoredPart) (q : StorageQuery) : Except PageError (List ColumnData) :=
  if q.stop < q.start || !p.partMatches q.toColumnQuery then .ok []
  else if !q.seriesIDs.isEmpty then p.querySeriesIndexRows q (sortedQuerySeriesIDs q.toColumnQuery)
  else (p.queryAllRows q).map sortColumnData

def querySeriesIDs (p : StoredPart) (q : StorageQuery) (seriesIDs : List UInt64) :
    Except PageError (List ColumnData) :=
  if q.stop < q.start || seriesIDs.isEmpty || !p.partMatches q.toColumnQuery then .ok []
  else p.querySeriesIndexRows q seriesIDs

/-- `nextSeriesIndexRow` called until it finds no row: the position in the series index only moves
forward, and each series ID takes one row at most. -/
def nextSeriesIndexRows (q : ColumnQuery) : List SeriesIndexRow → List UInt64 → List SeriesIndexRow
  | _, [] => []
  | rows, id :: ids =>
    match rows.dropWhile fun row => decide (row.seriesID < id) with
    | [] => []
    | row :: rest =>
      if row.seriesID ≠ id || !seriesIndexRowMatches q row then nextSeriesIndexRows q (row :: rest) ids
      else row :: nextSeriesIndexRows q (row :: rest) ids

def scanColumns (p : StoredPart) (q : StorageQuery) : Except PageError (List ColumnData) :=
  if q.stop < q.start || !p.partMatches q.toColumnQuery then .ok []
  else if !q.seriesIDs.isEmpty then
    p.querySeriesRows q
      (nextSeriesIndexRows q.toColumnQuery p.seriesRows (sortedQuerySeriesIDs q.toColumnQuery))
  else p.queryAllRows q

end StoredPart

structure Writable (c : ColumnData) : Prop where
  nonempty : c.samples ≠ []
  sorted : c.samples.Pairwise fun a b => a.timestamp < b.timestamp
  typed : ∀ s ∈ c.samples, s.value.type = c.fieldType

variable {encode : ValueEncoder} {opts : CompressionOptions}

def pageWindows (opts : CompressionOptions) (c : ColumnData) : List Samples :=
  windows (resolveValuePageSamples opts.valuePageSamples) c.samples

structure PageOf (encode : ValueEncoder) (opts : CompressionOptions) (rowTimestamps : List Int64)
    (fieldType : FieldType) (samples : Samples) (page : ValuePage) : Prop where
  minTime : page.minTime = (samples.map VersionedSample.timestamp).headD 0
  maxTime : page.maxTime = (samples.map VersionedSample.timestamp).getLastD 0
  stats : page.stats = valuePageStatsFromSamples fieldType samples
  read : ∀ q, readValueBlock rowTimestamps q page.block = .ok (pageSamples encode opts fieldType samples q)

theorem writeValuePages_ok (encode : ValueEncoder) (homit : opts.omitWriteSeq = false) (hc : Writable c)
    (hrows : rowTimestamps.Pairwise (· < ·)) (hmem : ∀ s ∈ c.samples, s.timestamp ∈ rowTimestamps) :
    ∃ pages, writeValuePages encode opts rowTimestamps c = .ok pages ∧
      List.Forall₂ (PageOf encode opts rowTimestamps c.fieldType) (pageWindows opts c) pages := by
  have hpos := resolveValuePageSamples_pos opts.valuePageSamples
  apply mapM_ok
  intro w hw
  have hsub := sublist_of_mem_windows hw
  obtain ⟨block, hblock, hread⟩ := marshalValuePage_ok encode homit
    ((length_of_mem_windows hw).trans (resolveValuePageSamples_le _)) (ne_nil_of_mem_windows hpos hw)
    (pairwise_map.mpr (hc.sorted.sublist hsub)) (fun s hs => hc.typed s (hsub.subset hs)) hrows
    (fun s hs => hmem s (hsub.subset hs))
  exact ⟨_, by rw [hblock]; rfl, rfl, rfl, rfl, hread⟩

def windowMatches (fieldID : UInt32) (fieldType : FieldType) (q : StorageQuery) (samples : Samples) : Bool :=
  valuePageMatchesQuery fieldID q ((samples.map VersionedSample.timestamp).headD 0)
    ((samples.map VersionedSample.timestamp).getLastD 0) (valuePageStatsFromSamples fieldType samples)

theorem mem_sortSamples : s ∈ sortSamples samples ↔ s ∈ samples := by
  unfold sortSamples
  split
  · rfl
  · exact mem_insertionSort _

theorem PageOf.matches
    (h : PageOf encode opts rowTimestamps fieldType samples page) (fieldID : UInt32) (q : StorageQuery) :
    valuePageMatchesQuery fieldID q page.minTime page.maxTime page.stats =
      windowMatches fieldID fieldType q samples := by
  rw [windowMatches, h.minTime, h.maxTime, h.stats]

theorem forall₂_filter_matches {windows : List Samples}
    (h : List.Forall₂ (PageOf encode opts rowTimestamps fieldType) windows pages) (fieldID : UInt32)
    (q : StorageQuery) :
    List.Forall₂ (PageOf encode opts rowTimestamps fieldType) (windows.filter (windowMatches fieldID fieldType q))
      (pages.filter fun page => valuePageMatchesQuery fieldID q page.minTime page.maxTime page.stats) := by
  induction h with
  | nil => exact .nil
  | @cons w page windows pages hw _ ih =>
    rw [filter_cons, filter_cons, hw.matches]
    split
    · exact .cons hw ih
    · exact ih

theorem forall₂_selectBoundaryPageRefs {α β : Type} {R : α → β → Prop} {as : List α} {bs : List β}
    (h : List.Forall₂ R as bs) (mode : QueryBoundaryMode) :
    List.Forall₂ R (selectBoundaryPageRefs as mode) (selectBoundaryPageRefs bs mode) := by
  have hfirst := forall₂_take 1 h
  have hlast := forall₂_drop (as.length - 1) h
  rw [h.length_eq] at hlast
  cases mode with
  | none => exact h
  | first => exact hfirst
  | last => rw [selectBoundaryPageRefs, h.length_eq]; exact hlast
  | both =>
    rw [selectBoundaryPageRefs, selectBoundaryPageRefs, h.length_eq]
    split
    · exact h
    · exact rel_append hfirst hlast

theorem sublist_selectBoundaryPageRefs {α : Type} (pages : List α) (mode : QueryBoundaryMode) :
    (selectBoundaryPageRefs pages mode).Sublist pages := by
  cases mode with
  | none => exact List.Sublist.refl _
  | first => exact take_sublist ..
  | last => exact drop_sublist ..
  | both =>
    rw [selectBoundaryPageRefs]
    split
    · exact List.Sublist.refl _
    · next hlen =>
      have hdrop : pages.drop (pages.length - 1) = (pages.drop 1).drop (pages.length - 2) := by
        rw [drop_drop]
        congr 1
        omega
      rw [hdrop]
      conv_rhs => rw [← take_append_drop 1 pages]
      exact (List.Sublist.refl _).append (drop_sublist ..)

theorem mapM_readValueBlock {windows : List Samples}
    (h : List.Forall₂ (PageOf encode opts rowTimestamps fieldType) windows pages) (q : ColumnQuery) :
    pages.mapM (fun page => readValueBlock rowTimestamps q page.block) =
      .ok (windows.map fun w => pageSamples encode opts fieldType w q) := by
  induction h with
  | nil => rfl
  | cons hw _ ih =>
    rw [mapM_cons, hw.read, ih]
    rfl

def windowsRead (opts : CompressionOptions) (q : StorageQuery) (c : ColumnData) : List Samples :=
  selectBoundaryPageRefs ((pageWindows opts c).filter (windowMatches c.fieldID c.fieldType q)) q.boundary

theorem mem_windowsRead (h : w ∈ windowsRead opts q c) :
    w ∈ pageWindows opts c ∧ windowMatches c.fieldID c.fieldType q w = true :=
  mem_filter.mp ((sublist_selectBoundaryPageRefs _ _).subset h)

theorem mem_windowsRead_of_none (hb : q.boundary = .none) :
    w ∈ windowsRead opts q c ↔ w ∈ pageWindows opts c ∧ windowMatches c.fieldID c.fieldType q w = true := by
  rw [windowsRead, hb]
  exact mem_filter

def ColumnReads (encode : ValueEncoder) (opts : CompressionOptions) (q : StorageQuery) (c : ColumnData)
    (s : VersionedSample) : Prop :=
  ∃ w ∈ windowsRead opts q c, s ∈ pageSamples encode opts c.fieldType w q.toColumnQuery

structure ColumnOf (encode : ValueEncoder) (opts : CompressionOptions) (rowTimestamps : List Int64)
    (c : ColumnData) (ref : ColumnRef) : Prop where
  fieldID : ref.fieldID = c.fieldID
  fieldType : ref.fieldType = c.fieldType
  pages : List.Forall₂ (PageOf encode opts rowTimestamps c.fieldType) (pageWindows opts c) ref.pages

theorem readValueColumn_ok {ref : ColumnRef} (h : ColumnOf encode opts row.timestamps c ref) (q : StorageQuery) :
    ∃ column, readValueColumn row q ref = .ok column ∧ column.seriesID = row.seriesID ∧
      column.fieldID = c.fieldID ∧ ∀ s, s ∈ column.samples ↔ ColumnReads encode opts q c s := by
  have hread := mapM_readValueBlock (forall₂_selectBoundaryPageRefs
    (forall₂_filter_matches h.pages c.fieldID q) q.boundary) q.toColumnQuery
  rw [readValueColumn, h.fieldID, hread]
  refine ⟨_, rfl, rfl, rfl, fun s => ?_⟩
  simp only [mem_sortSamples, mem_flatten, mem_map, ColumnReads, windowsRead]
  constructor
  · rintro ⟨_, ⟨w, hw, rfl⟩, hs⟩
    exact ⟨w, hw, hs⟩
  · rintro ⟨w, hw, hs⟩
    exact ⟨_, ⟨w, hw, rfl⟩, hs⟩

def RowReads (encode : ValueEncoder) (opts : CompressionOptions) (q : StorageQuery) (r : IndexRow)
    (v : Version) : Prop :=
  v.seriesID = r.seriesID ∧ ∃ c ∈ r.columns, containsID q.fieldIDs c.fieldID = true ∧
    c.fieldID = v.fieldID ∧ ColumnReads encode opts q c v.sample

structure Stored (encode : ValueEncoder) (opts : CompressionOptions) (r : IndexRow) (row : StoredRow) :
    Prop where
  seriesID : row.seriesID = r.seriesID
  minTime : row.minTime = r.minTime
  maxTime : row.maxTime = r.maxTime
  fieldIDs : row.columns.map ColumnRef.fieldID = r.columns.map ColumnData.fieldID
  reads : ∀ q : StorageQuery,
    ∃ columns, queryRow q row = .ok columns ∧ ∀ v, v ∈ versions columns ↔ RowReads encode opts q r v

theorem fieldIDs_of_columnOf (h : List.Forall₂ (ColumnOf encode opts rowTimestamps) columns refs) :
    refs.map ColumnRef.fieldID = columns.map ColumnData.fieldID := by
  induction h with
  | nil => rfl
  | cons hc _ ih => rw [map_cons, map_cons, hc.fieldID, ih]

theorem mapM_readValueColumn (q : StorageQuery) (row : StoredRow)
    (h : List.Forall₂ (ColumnOf encode opts row.timestamps) columns refs) :
    ∃ out, (refs.filter fun c => containsID q.fieldIDs c.fieldID).mapM (readValueColumn row q) = .ok out ∧
      ∀ v, v ∈ versions out ↔ v.seriesID = row.seriesID ∧
        ∃ c ∈ columns, containsID q.fieldIDs c.fieldID = true ∧ c.fieldID = v.fieldID ∧
          ColumnReads encode opts q c v.sample := by
  induction h with
  | nil => exact ⟨[], rfl, by simp⟩
  | @cons c ref columns refs hc _ ih =>
    obtain ⟨out, hok, hmem⟩ := ih
    rw [filter_cons, hc.fieldID]
    split
    · next hwant =>
      obtain ⟨column, hcol, hs, hf, hsamples⟩ := readValueColumn_ok hc q
      refine ⟨column :: out, by rw [mapM_cons, hcol, hok]; rfl, fun v => ?_⟩
      have hcons : versions (column :: out) = column.versions ++ versions out := rfl
      rw [hcons, mem_append, hmem, ColumnData.mem_versions, hs, hf, hsamples]
      simp only [mem_cons, exists_eq_or_imp, hwant, true_and]
      rw [and_or_left, eq_comm]
    · next hwant =>
      refine ⟨out, hok, fun v => ?_⟩
      simp [hmem, exists_eq_or_imp, hwant]

theorem storeRow_ok (encode : ValueEncoder) (homit : opts.omitWriteSeq = false) (hr : ∀ c ∈ r.columns, Writable c) :
    ∃ row, storeRow encode opts r = .ok row ∧ Stored encode opts r row := by
  obtain ⟨hsorted, htimes⟩ := collectTimestamps_spec fun c hc => (hr c hc).sorted
  have hcolumn : ∀ c ∈ r.columns, ∃ ref, (do
      let pages ← writeValuePages encode opts (collectTimestamps r.columns) c
      .ok (ColumnRef.mk c.fieldID c.fieldType pages)) = Except.ok ref ∧
        ColumnOf encode opts (collectTimestamps r.columns) c ref := by
    intro c hc
    obtain ⟨pages, hok, hpages⟩ := writeValuePages_ok encode homit (hr c hc) hsorted
      fun s hs => (htimes _).mpr ⟨c, hc, mem_map_of_mem hs⟩
    exact ⟨_, by rw [hok]; rfl, rfl, rfl, hpages⟩
  obtain ⟨refs, hok, hrefs⟩ := mapM_ok hcolumn
  let row : StoredRow := ⟨r.seriesID, r.minTime, r.maxTime, collectTimestamps r.columns, refs⟩
  have hstore : storeRow encode opts r = .ok row := by
    rw [storeRow, hok]
    rfl
  refine ⟨row, hstore, rfl, rfl, rfl, fieldIDs_of_columnOf hrefs, fun q => ?_⟩
  obtain ⟨out, hout, hmem⟩ := mapM_readValueColumn q row hrefs
  refine ⟨_, by rw [queryRow, hout]; rfl, fun v => ?_⟩
  rw [mem_versions_filter_nonempty, hmem]
  rfl

structure WritableRow (r : IndexRow) : Prop where
  columns : ∀ c ∈ r.columns, Writable c
  series : ∀ c ∈ r.columns, c.seriesID = r.seriesID
  bounds : ∀ c ∈ r.columns, ∀ s ∈ c.samples, r.minTime ≤ s.timestamp ∧ s.timestamp ≤ r.maxTime

theorem ColumnReads.exists_sample (h : ColumnReads encode opts q c s) :
    ∃ x ∈ c.samples, x.timestamp = s.timestamp ∧ q.inWindow s.timestamp = true := by
  obtain ⟨w, hw, hs⟩ := h
  obtain ⟨-, i, x, hx, hin, rfl⟩ := mem_pageSamples.mp hs
  rw [readBack_timestamp]
  exact ⟨x, (sublist_of_mem_windows (mem_windowsRead hw).1).subset (mem_of_getElem? hx), rfl, hin⟩

theorem RowReads.exists_sample (h : RowReads encode opts q r v) :
    ∃ c ∈ r.columns, containsID q.fieldIDs c.fieldID = true ∧ c.fieldID = v.fieldID ∧
      ∃ s ∈ c.samples, s.timestamp = v.sample.timestamp ∧ q.inWindow v.sample.timestamp = true := by
  obtain ⟨-, c, hc, hwant, hf, hreads⟩ := h
  exact ⟨c, hc, hwant, hf, hreads.exists_sample⟩

theorem RowReads.overlaps (h : RowReads encode opts q r v) (hr : WritableRow r) :
    q.start ≤ r.maxTime ∧ r.minTime ≤ q.stop := by
  obtain ⟨c, hc, -, -, s, hs, ht, hin⟩ := h.exists_sample
  obtain ⟨hmin, hmax⟩ := hr.bounds c hc s hs
  obtain ⟨hstart, hstop⟩ := ColumnQuery.inWindow_iff.mp hin
  rw [ht] at hmin hmax
  exact ⟨Int64.le_trans hstart hmax, Int64.le_trans hmin hstop⟩

theorem Stored.rowMatches_iff (h : Stored encode opts r row) : rowMatches q row = true ↔
      containsID q.seriesIDs r.seriesID = true ∧ q.start ≤ r.maxTime ∧ r.minTime ≤ q.stop := by
  simp [rowMatches, h.seriesID, h.minTime, h.maxTime]

theorem any_contains_of_containsID {filter ids : List UInt32} {id : UInt32}
    (h : containsID filter id = true) (hid : id ∈ ids) : (filter.isEmpty || ids.any filter.contains) = true := by
  rw [containsID, Bool.or_eq_true] at h
  rw [Bool.or_eq_true]
  exact h.imp_right fun hc => any_eq_true.mpr ⟨id, hid, hc⟩

theorem not_or_of_overlaps {q : ColumnQuery} (h : q.start ≤ maxTime ∧ minTime ≤ q.stop) :
    (!(decide (maxTime < q.start) || decide (q.stop < minTime))) = true := by
  simp [Int64.not_lt.mpr h.1, Int64.not_lt.mpr h.2]

theorem RowReads.matches_seriesIndex {q : StorageQuery} (h : RowReads encode opts q r v) (hr : WritableRow r)
    (hs : Stored encode opts r row) (ref : Nat) :
    seriesIndexRowMatches q.toColumnQuery (seriesIndexRow row ref) = true := by
  obtain ⟨c, hc, hwant, -, -⟩ := h.exists_sample
  rw [seriesIndexRowMatches, Bool.and_eq_true]
  constructor
  · rw [seriesIndexRow, hs.minTime, hs.maxTime]
    exact not_or_of_overlaps (h.overlaps hr)
  · apply any_contains_of_containsID hwant
    rw [seriesIndexRow, collectRowFieldIDs, mem_insertionSort, hs.fieldIDs]
    exact mem_map_of_mem hc

structure PartOf (encode : ValueEncoder) (opts : CompressionOptions) (p : Part) (sp : StoredPart) : Prop where
  partMeta : sp.partMeta = p.partMeta
  metaRows : sp.metaRows = [collectFieldIDs sp.rows]
  seriesRows : sp.seriesRows = seriesIndexFromRows sp.rows
  rows : List.Forall₂ (Stored encode opts) p.rows sp.rows

theorem storePart_ok (encode : ValueEncoder) (homit : opts.omitWriteSeq = false) (hp : ∀ r ∈ p.rows, WritableRow r) :
    ∃ sp, storePart encode opts p = .ok sp ∧ PartOf encode opts p sp := by
  obtain ⟨rows, hok, hrows⟩ := mapM_ok fun r hr => storeRow_ok encode homit (hp r hr).columns
  exact ⟨_, by rw [storePart, hok]; rfl, rfl, rfl, rfl, hrows⟩

theorem find?_seriesIndexFromRows_eq_none {rows : List StoredRow} {id : UInt64} (h : ∀ r ∈ rows, r.seriesID < id) :
    (seriesIndexFromRows rows).find? (fun row => decide (id ≤ row.seriesID)) = none := by
  refine find?_eq_none.mpr fun x hx hle => ?_
  obtain ⟨⟨r, i⟩, hr, rfl⟩ := mem_map.mp hx
  have hlt := h r (mem_of_getElem? (mem_zipIdx_iff_getElem?.mp hr))
  exact UInt64.not_le.mpr hlt (of_decide_eq_true hle)

theorem find?_seriesIndexFromRows {pre post : List StoredRow} {r : StoredRow} {id : UInt64}
    (hpre : ∀ a ∈ pre, a.seriesID < id) (hr : id ≤ r.seriesID) :
    (seriesIndexFromRows (pre ++ r :: post)).find? (fun row => decide (id ≤ row.seriesID)) =
      some (seriesIndexRow r pre.length) := by
  have hnone := find?_seriesIndexFromRows_eq_none hpre
  rw [seriesIndexFromRows] at hnone ⊢
  rw [zipIdx_append, map_append, find?_append, hnone, zipIdx_cons, map_cons,
    find?_cons_of_pos (by exact decide_eq_true hr), Option.none_or, Nat.zero_add]

theorem exists_first_or_lt (rows : List StoredRow) (id : UInt64) :
    (∀ r ∈ rows, r.seriesID < id) ∨
      ∃ pre r post, rows = pre ++ r :: post ∧ (∀ a ∈ pre, a.seriesID < id) ∧ id ≤ r.seriesID := by
  cases hfind : rows.find? fun r => decide (id ≤ r.seriesID) with
  | none =>
    refine .inl fun r hr => UInt64.not_le.mp fun hle => ?_
    exact find?_eq_none.mp hfind r hr (decide_eq_true hle)
  | some r =>
    obtain ⟨hr, pre, post, hrows, hpre⟩ := find?_eq_some_iff_append.mp hfind
    refine .inr ⟨pre, r, post, hrows, fun a ha => ?_, of_decide_eq_true hr⟩
    exact UInt64.not_le.mp (by simpa using hpre a ha)

/-- The cursor of a scan visits the rows that the search finds. -/
theorem nextSeriesIndexRows_eq (q : ColumnQuery) (rows : List SeriesIndexRow) (ids : List UInt64)
    (hids : ids.Pairwise (· ≤ ·)) :
    StoredPart.nextSeriesIndexRows q rows ids = ids.filterMap fun id =>
      (rows.find? fun row => decide (id ≤ row.seriesID)).filter fun row =>
        row.seriesID = id && seriesIndexRowMatches q row := by
  induction ids generalizing rows with
  | nil => rfl
  | cons id ids ih =>
    obtain ⟨hid, hids⟩ := pairwise_cons.mp hids
    -- the rows that are dropped lie before all later series as well
    have hdrop : ∀ id' ∈ ids, (rows.dropWhile fun row => decide (row.seriesID < id)).find?
        (fun row => decide (id' ≤ row.seriesID)) = rows.find? fun row => decide (id' ≤ row.seriesID) := by
      intro id' hid'
      induction rows with
      | nil => rfl
      | cons row rows ihr =>
        rw [dropWhile_cons]
        split
        · next hlt =>
          have hlt : row.seriesID < id := by simpa using hlt
          rw [ihr, find?_cons_of_neg]
          simpa using UInt64.lt_of_lt_of_le hlt (hid id' hid')
        · rfl
    have hfind : (rows.dropWhile fun row => decide (row.seriesID < id)).head? =
        rows.find? fun row => decide (id ≤ row.seriesID) := by
      rw [← find?_not_eq_head?_dropWhile]
      congr 1
      funext row
      rw [← decide_not]
      exact decide_eq_decide.mpr UInt64.not_lt
    have hrest : (ids.filterMap fun id' => ((rows.dropWhile fun row => decide (row.seriesID < id)).find?
        fun row => decide (id' ≤ row.seriesID)).filter fun row =>
          row.seriesID = id' && seriesIndexRowMatches q row) =
        ids.filterMap fun id' => (rows.find? fun row => decide (id' ≤ row.seriesID)).filter fun row =>
          row.seriesID = id' && seriesIndexRowMatches q row :=
      filterMap_congr fun id' hid' => by rw [hdrop id' hid']
    rw [StoredPart.nextSeriesIndexRows, filterMap_cons, ← hfind, ← hrest]
    cases hrows : rows.dropWhile fun row => decide (row.seriesID < id) with
    | nil => simp
    | cons row rest =>
      dsimp only
      rw [ih _ hids, head?_cons]
      have hcond : (decide (row.seriesID ≠ id) || !seriesIndexRowMatches q row) =
          !(decide (row.seriesID = id) && seriesIndexRowMatches q row) := by
        rw [Bool.not_and, decide_not]
      rw [hcond]
      cases hmatch : (decide (row.seriesID = id) && seriesIndexRowMatches q row) with
      | false => simp [Option.filter, hmatch]
      | true => simp [Option.filter, hmatch]

theorem forall₂_append_cons {α β : Type} {R : α → β → Prop} {l : List α} {pre post : List β} {b : β}
    (h : List.Forall₂ R l (pre ++ b :: post)) :
    ∃ pre' a post', l = pre' ++ a :: post' ∧ List.Forall₂ R pre' pre ∧ R a b := by
  have htake := forall₂_take_append l pre (b :: post) h
  have hdrop := forall₂_drop_append l pre (b :: post) h
  cases hd : l.drop pre.length with
  | nil => simp [hd] at hdrop
  | cons a post' =>
    rw [hd] at hdrop
    obtain ⟨hab, -⟩ := forall₂_cons.mp hdrop
    exact ⟨l.take pre.length, a, post', by rw [← hd, take_append_drop], htake, hab⟩

def FirstRow (rows : List IndexRow) (r : IndexRow) : Prop :=
  ∃ pre post, rows = pre ++ r :: post ∧ ∀ a ∈ pre, a.seriesID ≠ r.seriesID

theorem forall₂_seriesID (P : UInt64 → Prop) (h : List.Forall₂ (Stored encode opts) rows stored) :
    (∀ a ∈ stored, P a.seriesID) ↔ ∀ a ∈ rows, P a.seriesID := by
  induction h with
  | nil => simp
  | cons hab _ ih => simp only [forall_mem_cons, hab.seriesID, ih]

variable {p : Part} {sp : StoredPart} {q : StorageQuery}

theorem querySeriesRow_ok (sp : StoredPart) (ref : Nat) (href : sp.rows[ref]? = some row)
    (hs : Stored encode opts r row) (hr : WritableRow r) :
    ∃ columns, (do
        let indexRow ← sp.readIndexRowBlock ref
        if rowMatches q.toColumnQuery indexRow then queryRow q indexRow else .ok []) = Except.ok columns ∧
      {v | v ∈ versions columns} =
        {v | containsID q.seriesIDs v.seriesID = true ∧ RowReads encode opts q r v} := by
  have hblock : sp.readIndexRowBlock ref = .ok row := by rw [StoredPart.readIndexRowBlock, href]
  obtain ⟨columns, hok, hmem⟩ := hs.reads q
  by_cases hmatch : rowMatches q.toColumnQuery row = true
  · refine ⟨columns, by rw [hblock]; simpa [bind, Except.bind, hmatch] using hok, ?_⟩
    ext v
    have hcontains := (hs.rowMatches_iff.mp hmatch).1
    simp only [Set.mem_ofPred_eq, hmem]
    constructor
    · intro hv
      exact ⟨by rw [hv.1]; exact hcontains, hv⟩
    · exact And.right
  · refine ⟨[], by rw [hblock]; simp [bind, Except.bind, hmatch], ?_⟩
    ext v
    simp only [Set.mem_ofPred_eq, versions_nil, not_mem_nil, false_iff]
    rintro ⟨hcontains, hv⟩
    exact hmatch (hs.rowMatches_iff.mpr ⟨hv.1 ▸ hcontains, hv.overlaps hr⟩)

theorem mem_matchingSeriesIndexRows (h : PartOf encode opts p sp) {ids : List UInt64} {x : SeriesIndexRow} :
    x ∈ sp.matchingSeriesIndexRows q.toColumnQuery ids ↔ ∃ id ∈ ids, ∃ pre row post,
      sp.rows = pre ++ row :: post ∧ (∀ a ∈ pre, a.seriesID < id) ∧ row.seriesID = id ∧
        x = seriesIndexRow row pre.length ∧ seriesIndexRowMatches q.toColumnQuery x = true := by
  rw [StoredPart.matchingSeriesIndexRows, mem_filterMap]
  refine exists_congr fun id => and_congr_right fun hid => ?_
  rw [h.seriesRows, Option.filter_eq_some_iff, Bool.and_eq_true, decide_eq_true_eq]
  constructor
  · rintro ⟨hfind, hid, hmatch⟩
    rcases exists_first_or_lt sp.rows id with hlt | ⟨pre, row, post, hrows, hpre, hle⟩
    · rw [find?_seriesIndexFromRows_eq_none hlt] at hfind
      simp at hfind
    · rw [hrows, find?_seriesIndexFromRows hpre hle] at hfind
      cases hfind
      exact ⟨pre, row, post, hrows, hpre, hid, rfl, hmatch⟩
  · rintro ⟨pre, row, post, hrows, hpre, hrow, rfl, hmatch⟩
    rw [hrows, find?_seriesIndexFromRows hpre (UInt64.le_of_eq hrow.symm)]
    exact ⟨rfl, hrow, hmatch⟩

/-- A scan through the series index reads the first row of each series. -/
theorem mem_querySeriesRows (h : PartOf encode opts p sp) (hp : ∀ r ∈ p.rows, WritableRow r)
    (hsorted : p.rows.Pairwise (·.seriesID ≤ ·.seriesID))
    (ids : List UInt64) :
    ∃ out, sp.querySeriesRows q (sp.matchingSeriesIndexRows q.toColumnQuery ids) = .ok out ∧
      ∀ v, v ∈ versions out ↔ v.seriesID ∈ ids ∧ containsID q.seriesIDs v.seriesID = true ∧
        ∃ r, FirstRow p.rows r ∧ RowReads encode opts q r v := by
  let added : SeriesIndexRow → Set Version := fun x => {v | ∃ r, p.rows[x.indexRef]? = some r ∧
    containsID q.seriesIDs v.seriesID = true ∧ RowReads encode opts q r v}
  have hround : ∀ x ∈ sp.matchingSeriesIndexRows q.toColumnQuery ids, ∃ columns, (do
      let indexRow ← sp.readIndexRowBlock x.indexRef
      if rowMatches q.toColumnQuery indexRow then queryRow q indexRow else .ok []) = Except.ok columns ∧
        {v | v ∈ versions columns} = added x := by
    intro x hx
    obtain ⟨id, -, pre, row, post, hrows, -, -, rfl, -⟩ := (mem_matchingSeriesIndexRows h).mp hx
    have hall := h.rows
    rw [hrows] at hall
    obtain ⟨pre', r, post', hprows, hpre', hs⟩ := forall₂_append_cons hall
    have hget : p.rows[pre.length]? = some r := by
      rw [hprows, ← hpre'.length_eq]
      simp
    obtain ⟨columns, hok, hmem⟩ := querySeriesRow_ok sp pre.length
      (by rw [hrows]; simp) hs (hp r (mem_of_getElem? hget))
    refine ⟨columns, hok, hmem.trans ?_⟩
    ext v
    simp [added, seriesIndexRow, hget]
  obtain ⟨results, hok, hmem⟩ := mapM_collects (fun columns => {v | v ∈ versions columns}) added hround
  refine ⟨results.flatten, by rw [StoredPart.querySeriesRows, hok]; rfl, fun v => ?_⟩
  rw [mem_versions_flatten]
  refine (hmem v).trans ⟨?_, ?_⟩
  · rintro ⟨x, hx, r, hget, hcontains, hv⟩
    obtain ⟨id, hid, pre, row, post, hrows, hpre, hrow, rfl, -⟩ := (mem_matchingSeriesIndexRows h).mp hx
    have hall := h.rows
    rw [hrows] at hall
    obtain ⟨pre', r', post', hprows, hpre', hs⟩ := forall₂_append_cons hall
    obtain rfl : r' = r := by
      rw [seriesIndexRow, hprows, ← hpre'.length_eq] at hget
      simpa using hget
    have hseries : r'.seriesID = id := hs.seriesID.symm.trans hrow
    refine ⟨?_, hcontains, r', ⟨pre', post', hprows, fun a ha => ?_⟩, hv⟩
    · rw [hv.1, hseries]
      exact hid
    · rw [hseries]
      exact UInt64.ne_of_lt ((forall₂_seriesID (· < id) hpre').mp hpre a ha)
  · rintro ⟨hid, hcontains, r, ⟨pre', post', hprows, hfirst⟩, hv⟩
    have hall := h.rows.flip
    rw [hprows] at hall
    obtain ⟨pre, row, post, hrows, hpre, hs⟩ := forall₂_append_cons hall
    have hlt : ∀ a ∈ pre', a.seriesID < v.seriesID := by
      intro a ha
      rw [hprows] at hsorted
      have hle := (pairwise_append.mp hsorted).2.2 a ha r mem_cons_self
      rw [hv.1]
      exact UInt64.lt_of_le_of_ne hle (hfirst a ha)
    have hr : WritableRow r := hp r (by rw [hprows]; simp)
    refine ⟨seriesIndexRow row pre.length, ?_, r, ?_, hcontains, hv⟩
    · exact (mem_matchingSeriesIndexRows h).mpr ⟨v.seriesID, hid, pre, row, post, hrows,
        (forall₂_seriesID (· < v.seriesID) hpre.flip).mpr hlt, hs.seriesID.trans hv.1.symm, rfl,
        hv.matches_seriesIndex hr hs _⟩
    · rw [seriesIndexRow, hprows, hpre.length_eq]
      simp

theorem mapM_queryRow (h : List.Forall₂ (Stored encode opts) rows stored) (hrows : ∀ r ∈ rows, WritableRow r) :
    ∃ out, (stored.filter (rowMatches q.toColumnQuery)).mapM (queryRow (plainQuery q)) = .ok out ∧
      ∀ v, v ∈ versions out.flatten ↔ containsID q.seriesIDs v.seriesID = true ∧
        ∃ r ∈ rows, RowReads encode opts (plainQuery q) r v := by
  induction h with
  | nil => exact ⟨[], rfl, by simp⟩
  | @cons r row rows stored hs _ ih =>
    obtain ⟨out, hok, hmem⟩ := ih fun r' hr' => hrows r' (mem_cons_of_mem _ hr')
    obtain ⟨columns, hcols, hreads⟩ := hs.reads (plainQuery q)
    rw [filter_cons]
    split
    · next hmatch =>
      have hcontains := (hs.rowMatches_iff.mp hmatch).1
      refine ⟨columns :: out, by rw [mapM_cons, hcols, hok]; rfl, fun v => ?_⟩
      rw [flatten_cons, versions_append, mem_append, hreads, hmem]
      simp only [mem_cons, exists_eq_or_imp, and_or_left]
      refine or_congr_left ⟨fun hv => ⟨?_, hv⟩, And.right⟩
      rw [hv.1]
      exact hcontains
    · next hmatch =>
      refine ⟨out, hok, fun v => ?_⟩
      simp only [hmem, mem_cons, exists_eq_or_imp, and_or_left]
      refine ⟨Or.inr, fun hv => hv.resolve_left ?_⟩
      rintro ⟨hcontains, hv⟩
      have hover : q.start ≤ r.maxTime ∧ r.minTime ≤ q.stop := hv.overlaps (hrows r mem_cons_self)
      exact hmatch (hs.rowMatches_iff.mpr ⟨hv.1 ▸ hcontains, hover⟩)

theorem mem_queryAllRows (h : PartOf encode opts p sp) (hp : ∀ r ∈ p.rows, WritableRow r) :
    ∃ out, sp.queryAllRows q = .ok out ∧ ∀ v, v ∈ versions out ↔
      containsID q.seriesIDs v.seriesID = true ∧ ∃ r ∈ p.rows, RowReads encode opts (plainQuery q) r v := by
  obtain ⟨out, hok, hmem⟩ := mapM_queryRow h.rows hp
  exact ⟨out.flatten, by rw [StoredPart.queryAllRows, hok]; rfl, hmem⟩

structure Covers (m : PartMeta) (r : IndexRow) : Prop where
  minTime : m.minTime ≤ r.minTime
  maxTime : r.maxTime ≤ m.maxTime
  minSeriesID : m.minSeriesID ≤ r.seriesID
  maxSeriesID : r.seriesID ≤ m.maxSeriesID

structure SoundPart (encode : ValueEncoder) (opts : CompressionOptions) (p : Part) (sp : StoredPart) :
    Prop extends PartOf encode opts p sp where
  writable : ∀ r ∈ p.rows, WritableRow r
  sorted : p.rows.Pairwise fun a b => a.seriesID ≤ b.seriesID
  covers : ∀ r ∈ p.rows, Covers p.partMeta r

theorem mem_collectFieldIDs (h : List.Forall₂ (Stored encode opts) rows stored) (hr : r ∈ rows) (hc : c ∈ r.columns) :
    c.fieldID ∈ collectFieldIDs stored := by
  rw [collectFieldIDs, mem_insertionSort, mem_dedup, mem_flatMap]
  induction h with
  | nil => simp at hr
  | @cons r' row rows stored hs _ ih =>
    rcases mem_cons.mp hr with rfl | hr
    · refine ⟨row, mem_cons_self, ?_⟩
      rw [hs.fieldIDs]
      exact mem_map_of_mem hc
    · obtain ⟨row', hrow, hmem⟩ := ih hr
      exact ⟨row', mem_cons_of_mem _ hrow, hmem⟩

/-- The parts a scan skips hold nothing that it asks for. -/
theorem SoundPart.partMatches (h : SoundPart encode opts p sp) (hr : r ∈ p.rows) (hv : RowReads encode opts q r v)
    (hcontains : containsID q.seriesIDs v.seriesID = true) : sp.partMatches q.toColumnQuery = true := by
  obtain ⟨hstart, hstop⟩ := hv.overlaps (h.writable r hr)
  have hcov := h.covers r hr
  obtain ⟨c, hc, hwant, -, -⟩ := hv.exists_sample
  simp only [StoredPart.partMatches, h.partMeta, Bool.and_eq_true]
  refine ⟨not_or_of_overlaps ⟨Int64.le_trans hstart hcov.maxTime, Int64.le_trans hcov.minTime hstop⟩, ?_, ?_⟩
  · rw [containsID, Bool.or_eq_true] at hcontains
    rw [Bool.or_eq_true]
    refine hcontains.imp_right fun hmem => any_eq_true.mpr ⟨v.seriesID, by simpa using hmem, ?_⟩
    rw [hv.1, Bool.and_eq_true]
    exact ⟨decide_eq_true hcov.minSeriesID, decide_eq_true hcov.maxSeriesID⟩
  · have := any_contains_of_containsID hwant (mem_collectFieldIDs h.rows hr hc)
    rw [h.metaRows]
    simpa using this

theorem start_le_stop_of_rowReads (hv : RowReads encode opts q r v) : ¬ q.stop < q.start := by
  obtain ⟨c, hc, -, -, s, hs, ht, hin⟩ := hv.exists_sample
  obtain ⟨hstart, hstop⟩ := ColumnQuery.inWindow_iff.mp hin
  exact Int64.not_lt.mpr (Int64.le_trans hstart hstop)

section
variable {ε : Type} {x : Except ε (List ColumnData)} {S : Version → Prop}
  (hx : ∃ out, x = .ok out ∧ ∀ v, v ∈ versions out ↔ S v)
include hx

theorem guarded_ok (hskip : skip = true → ∀ v, ¬ S v) :
    ∃ out, (if skip then .ok [] else x) = .ok out ∧ ∀ v, v ∈ versions out ↔ S v := by
  cases skip with
  | false => exact hx
  | true => exact ⟨[], rfl, fun v => by simpa using hskip rfl v⟩

theorem sorted_ok : ∃ out, x.map sortColumnData = .ok out ∧ ∀ v, v ∈ versions out ↔ S v := by
  obtain ⟨out, rfl, hmem⟩ := hx
  refine ⟨_, rfl, fun v => ?_⟩
  rw [← hmem]
  simp [sortColumnData]

end

theorem SoundPart.skips_nothing (h : SoundPart encode opts p sp)
    (hskip : (decide (q.stop < q.start) || !sp.partMatches q.toColumnQuery) = true)
    (hcontains : containsID q.seriesIDs v.seriesID = true) (hr : r ∈ p.rows) : ¬ RowReads encode opts q r v := by
  intro hv
  simp [start_le_stop_of_rowReads hv, h.partMatches hr hv hcontains] at hskip

theorem FirstRow.mem (h : FirstRow rows r) : r ∈ rows := by
  obtain ⟨pre, post, rfl, -⟩ := h
  simp

theorem SoundPart.mem_scanColumns (h : SoundPart encode opts p sp) (hids : q.seriesIDs ≠ []) :
    ∃ out, sp.scanColumns q = .ok out ∧ ∀ v, v ∈ versions out ↔
      v.seriesID ∈ q.seriesIDs ∧ ∃ r, FirstRow p.rows r ∧ RowReads encode opts q r v := by
  have hcontains : ∀ id, containsID q.seriesIDs id = true ↔ id ∈ q.seriesIDs := by
    simp [containsID, hids]
  have hmem : ∀ id, id ∈ StoredPart.sortedQuerySeriesIDs q.toColumnQuery ↔ id ∈ q.seriesIDs := by
    simp [StoredPart.sortedQuerySeriesIDs]
  have hsorted : (StoredPart.sortedQuerySeriesIDs q.toColumnQuery).Pairwise (· ≤ ·) := pairwise_insertionSort _ _
  apply guarded_ok
  · rw [if_pos (by simpa using hids), nextSeriesIndexRows_eq _ _ _ hsorted]
    obtain ⟨out, hok, hout⟩ := mem_querySeriesRows h.toPartOf h.writable h.sorted
      (StoredPart.sortedQuerySeriesIDs q.toColumnQuery)
    refine ⟨out, hok, fun v => ?_⟩
    rw [hout, hmem, hcontains, and_self_left]
  · rintro hskip v ⟨hv, r, hfirst, hreads⟩
    exact h.skips_nothing hskip ((hcontains _).mpr hv) hfirst.mem hreads

theorem SoundPart.mem_querySeriesIDs (h : SoundPart encode opts p sp) (ids : List UInt64) :
    ∃ out, sp.querySeriesIDs q ids = .ok out ∧ ∀ v, v ∈ versions out ↔ v.seriesID ∈ ids ∧
      containsID q.seriesIDs v.seriesID = true ∧ ∃ r, FirstRow p.rows r ∧ RowReads encode opts q r v := by
  apply guarded_ok
  · exact sorted_ok (mem_querySeriesRows h.toPartOf h.writable h.sorted ids)
  · rintro hskip v ⟨hid, hcontains, r, hfirst, hreads⟩
    refine h.skips_nothing ?_ hcontains hfirst.mem hreads
    have hne : ids.isEmpty = false := by simpa using ne_nil_of_mem hid
    simpa [hne] using hskip

theorem SoundPart.mem_query (h : SoundPart encode opts p sp) (hids : q.seriesIDs = []) :
    ∃ out, sp.query q = .ok out ∧ ∀ v, v ∈ versions out ↔
      ∃ r ∈ p.rows, RowReads encode opts (plainQuery q) r v := by
  have hcontains : ∀ id, containsID q.seriesIDs id = true := by simp [containsID, hids]
  apply guarded_ok
  · rw [if_neg (by simp [hids])]
    apply sorted_ok
    obtain ⟨out, hok, hmem⟩ := mem_queryAllRows h.toPartOf h.writable
    exact ⟨out, hok, fun v => by rw [hmem, and_iff_right (hcontains _)]⟩
  · rintro hskip v ⟨r, hr, hreads⟩
    have hplain : sp.partMatches (plainQuery q).toColumnQuery = sp.partMatches q.toColumnQuery := by
      rw [StoredPart.partMatches, StoredPart.partMatches, hids]
      rfl
    exact h.skips_nothing (by rw [hplain]; exact hskip) rfl hr hreads

theorem queryRow_sorted (hrow : (row.columns.map ColumnRef.fieldID).Pairwise (· < ·))
    (h : queryRow q row = .ok columns) :
    (columns.map ColumnData.fieldID).Pairwise (· < ·) ∧ ∀ c ∈ columns, c.seriesID = row.seriesID := by
  obtain ⟨read, hread, h⟩ := except_bind_ok h
  cases h
  have hall : List.Forall₂ (fun ref c => c.seriesID = row.seriesID ∧ c.fieldID = ColumnRef.fieldID ref)
      (row.columns.filter fun c => containsID q.fieldIDs c.fieldID) read := by
    refine (forall₂_of_mapM hread).imp fun ref c hc => ?_
    obtain ⟨samples, -, hc⟩ := except_bind_ok hc
    cases hc
    exact ⟨rfl, rfl⟩
  constructor
  · have hfields := pairwise_of_forall₂ (T := (·.fieldID < ·.fieldID)) hall
      ((pairwise_map.mp hrow).filter _) fun a b x y hx hy hlt => by rw [hx.2, hy.2]; exact hlt
    exact pairwise_map.mpr (hfields.filter _)
  · intro c hc
    obtain ⟨ref, -, hc⟩ := exists_of_forall₂ hall (mem_of_mem_filter hc)
    exact hc.1

theorem pairwise_columnLess_querySeriesRows {rows : List SeriesIndexRow}
    (hfields : ∀ row ∈ sp.rows, (row.columns.map ColumnRef.fieldID).Pairwise (· < ·))
    (hseries : ∀ x ∈ rows, ∀ row, sp.rows[x.indexRef]? = some row → row.seriesID = x.seriesID)
    (hrows : rows.Pairwise (·.seriesID < ·.seriesID)) (h : sp.querySeriesRows q rows = .ok out) :
    out.Pairwise columnLess := by
  obtain ⟨results, hread, h⟩ := except_bind_ok h
  cases h
  have hall : List.Forall₂ (fun x columns => (columns.map ColumnData.fieldID).Pairwise (· < ·) ∧
      ∀ c ∈ columns, c.seriesID = SeriesIndexRow.seriesID x) rows results := by
    refine ((forall₂_and_left _ _).mpr ⟨hseries, forall₂_of_mapM hread⟩).imp fun x columns hx => ?_
    obtain ⟨hseries, hx⟩ := hx
    obtain ⟨row, hrow, hx⟩ := except_bind_ok hx
    have hget : sp.rows[x.indexRef]? = some row := by
      unfold StoredPart.readIndexRowBlock at hrow
      split at hrow
      · simp at hrow
      · next hget => rw [hget, Except.ok.inj hrow]
    split at hx
    · obtain ⟨hsorted, hs⟩ := queryRow_sorted (hfields row (mem_of_getElem? hget)) hx
      exact ⟨hsorted, fun c hc => (hs c hc).trans (hseries row hget)⟩
    · cases hx
      simp
  refine pairwise_flatten.mpr ⟨fun columns hcolumns => ?_, ?_⟩
  · obtain ⟨x, -, hsorted, hs⟩ := exists_of_forall₂ hall hcolumns
    refine (pairwise_map.mp hsorted).imp_of_mem fun {c d} hc hd hlt => .inr ⟨?_, hlt⟩
    rw [hs c hc, hs d hd]
  · refine pairwise_of_forall₂ hall hrows fun x y cs ds hcs hds hlt c hc d hd => .inl ?_
    rw [hcs.2 c hc, hds.2 d hd]
    exact hlt

theorem pairwise_lt_sortedQuerySeriesIDs (q : ColumnQuery) : (StoredPart.sortedQuerySeriesIDs q).Pairwise (· < ·) := by
  have hnodup : (StoredPart.sortedQuerySeriesIDs q).Nodup := (perm_insertionSort _ _).nodup_iff.mpr (nodup_dedup _)
  have hsorted : (StoredPart.sortedQuerySeriesIDs q).Pairwise (· ≤ ·) := pairwise_insertionSort _ _
  exact (hsorted.and hnodup).imp fun h => UInt64.lt_of_le_of_ne h.1 h.2

theorem SoundPart.pairwise_columnLess_scanColumns (h : SoundPart encode opts p sp) (hids : q.seriesIDs ≠ [])
    (hfields : ∀ r ∈ p.rows, (r.columns.map ColumnData.fieldID).Pairwise (· < ·)) (hout : sp.scanColumns q = .ok out) :
    out.Pairwise columnLess := by
  have hsorted := pairwise_lt_sortedQuerySeriesIDs q.toColumnQuery
  unfold StoredPart.scanColumns at hout
  split at hout
  · cases hout
    exact List.Pairwise.nil
  · rw [if_pos (by simpa using hids), nextSeriesIndexRows_eq _ _ _ (hsorted.imp UInt64.le_of_lt)] at hout
    refine pairwise_columnLess_querySeriesRows ?_ ?_ ?_ hout
    · intro row hrow
      obtain ⟨r, hr, hs⟩ := exists_of_forall₂ h.rows hrow
      rw [hs.fieldIDs]
      exact hfields r hr
    · intro x hx row hget
      obtain ⟨id, -, hx⟩ := mem_filterMap.mp hx
      obtain ⟨hfind, -⟩ := Option.filter_eq_some_iff.mp hx
      rw [h.seriesRows] at hfind
      obtain ⟨⟨row', i⟩, hrow', rfl⟩ := mem_map.mp (mem_of_find?_eq_some hfind)
      have hrow : sp.rows[i]? = some row' := mem_zipIdx_iff_getElem?.mp hrow'
      exact congrArg StoredRow.seriesID (Option.some.inj (hget.symm.trans hrow))
    · refine hsorted.filterMap _ fun id id' hlt x hx y hy => ?_
      have hid : ∀ {id : UInt64} {x : SeriesIndexRow}, (sp.seriesRows.find? fun row =>
          decide (id ≤ row.seriesID)).filter (fun row =>
            row.seriesID = id && seriesIndexRowMatches q.toColumnQuery row) = some x → x.seriesID = id := by
        intro id x hx
        have := (Option.filter_eq_some_iff.mp hx).2
        rw [Bool.and_eq_true] at this
        exact of_decide_eq_true this.1
      rw [hid hx, hid hy]
      exact hlt

/-- The columns of a series-filtered scan, also of one that reads boundary pages only, have the keys of
written columns of the series asked for. -/
theorem SoundPart.exists_column_of_scanned (h : SoundPart encode opts p sp) (hids : q.seriesIDs ≠ [])
    (hout : sp.scanColumns q = .ok out) (hc : c ∈ out) :
    c.seriesID ∈ q.seriesIDs ∧
      ∃ r ∈ p.rows, r.seriesID = c.seriesID ∧ ∃ d ∈ r.columns, d.fieldID = c.fieldID := by
  unfold StoredPart.scanColumns at hout
  split at hout
  · cases hout
    cases hc
  · rw [if_pos (by simpa using hids)] at hout
    obtain ⟨results, hread, hout⟩ := except_bind_ok hout
    cases hout
    obtain ⟨columns, hcolumns, hc⟩ := mem_flatten.mp hc
    obtain ⟨x, -, hx⟩ := exists_of_forall₂ (forall₂_of_mapM hread) hcolumns
    obtain ⟨row, hrow, hx⟩ := except_bind_ok hx
    have hmem : row ∈ sp.rows := by
      unfold StoredPart.readIndexRowBlock at hrow
      split at hrow
      · simp at hrow
      · next hget => exact Except.ok.inj hrow ▸ mem_of_getElem? hget
    split at hx
    · next hmatch =>
      have hasked : row.seriesID ∈ q.seriesIDs := by
        have hcontains := (Bool.and_eq_true .. ▸ hmatch : _ ∧ _).1
        simpa [containsID, hids] using hcontains
      obtain ⟨read, hcols, hx⟩ := except_bind_ok hx
      cases hx
      obtain ⟨ref, href, hcol⟩ := exists_of_forall₂ (forall₂_of_mapM hcols) (mem_of_mem_filter hc)
      obtain ⟨samples, -, hcol⟩ := except_bind_ok hcol
      cases hcol
      obtain ⟨r, hr, hs⟩ := exists_of_forall₂ h.rows hmem
      have hfield : ref.fieldID ∈ r.columns.map ColumnData.fieldID := by
        rw [← hs.fieldIDs]
        exact mem_map_of_mem (mem_of_mem_filter href)
      obtain ⟨d, hd, hdf⟩ := mem_map.mp hfield
      exact ⟨hasked, r, hr, hs.seriesID.symm, d, hd, hdf⟩
    · cases hx
      cases hc

end Mts.Sstable
