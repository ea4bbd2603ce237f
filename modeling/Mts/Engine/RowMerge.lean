import Mts.Engine.Flush
import Mts.Lib.Float64
import Mts.Lib.Int64
import Mts.Lib.Join

/-! Rows of a query, `queryexec/row_merge.go` and `filter.go`: columns of one series are joined by
timestamp, then the field predicates filter the rows. Fields go by ID, the catalog gives each field of
a measurement one name; measurement and tags belong to the series. -/

namespace Mts.Engine
open Lib Model List

variable {V : Set Version} {columns : List ColumnData} {c d : ColumnData}

/-- A Go map is the function that looks up its keys. -/
structure Row where
  seriesID : UInt64
  timestamp : Int64
  fields : UInt32 → Option FieldValue

variable {row : Row}

def alignedSeriesColumns : List ColumnData → Bool
  | [] => true
  | first :: rest => rest.all fun c =>
    c.samples.map VersionedSample.timestamp = first.samples.map VersionedSample.timestamp

def alignedRowsFromSeriesColumns (columns : List ColumnData) : List Row :=
  match columns with
  | [] => []
  | first :: _ => first.samples.zipIdx.map fun (s, index) =>
    { seriesID := first.seriesID
      timestamp := s.timestamp
      fields := columns.foldl (fun fields c =>
        Function.update fields c.fieldID (c.samples[index]?.map VersionedSample.value)) fun _ => none }

/-- One step of `appendColumnRows`: the row of the timestamp gets the field, or a new row does. -/
def appendRowField (rows : List Row) (v : Version) : List Row :=
  if rows.any fun row => row.timestamp = v.sample.timestamp then
    rows.map fun row =>
      if row.timestamp = v.sample.timestamp then
        { row with fields := Function.update row.fields v.fieldID (some v.sample.value) }
      else row
  else rows ++ [⟨v.seriesID, v.sample.timestamp,
    Function.update (fun _ => none) v.fieldID (some v.sample.value)⟩]

def appendColumnRows (rows : List Row) (column : ColumnData) : List Row := column.versions.foldl appendRowField rows

def mappedRowsFromSeriesColumns (columns : List ColumnData) : List Row :=
  (columns.foldl appendColumnRows []).insertionSort fun a b => a.timestamp ≤ b.timestamp

def rowsFromSeriesColumns (columns : List ColumnData) : List Row :=
  if columns.isEmpty then []
  else if alignedSeriesColumns columns then alignedRowsFromSeriesColumns columns
  else mappedRowsFromSeriesColumns columns

/-- All rows of `NewRowMergeStream` without limit and offset. -/
def rowMergeStream (columns : List ColumnData) : List Row := (Shard.seriesRuns columns).flatMap rowsFromSeriesColumns

def isNumericFieldValue : FieldValue → Bool
  | .float64 _ | .int64 _ => true
  | _ => false

def fieldValueAsFloat : FieldValue → UInt64
  | .float64 bits => bits
  | .int64 value => Float64.ofInt64 value
  | _ => Float64.ofInt64 0

/-- `compareFloat`; a NaN compares equal to everything. -/
def compareFloat (left right : UInt64) : Int :=
  if Float64.lt left right then -1 else if Float64.lt right left then 1 else 0

def compareString (left right : GoString) : Int :=
  if left < right then -1 else if right < left then 1 else 0

def compareBool (left right : Bool) : Int :=
  if left = right then 0 else if !left && right then -1 else 1

def fieldValuesCompare (left right : FieldValue) : Int :=
  if isNumericFieldValue left && isNumericFieldValue right then
    compareFloat (fieldValueAsFloat left) (fieldValueAsFloat right)
  else
    match left, right with
    | .string l, .string r => compareString l r
    | .bool l, .bool r => compareBool l r
    | _, _ => -1

theorem fieldValuesCompare_int (x y : Int64) : fieldValuesCompare (.int64 x) (.int64 y) =
    if Float64.rank (Float64.ofInt64 x) < Float64.rank (Float64.ofInt64 y) then -1
    else if Float64.rank (Float64.ofInt64 y) < Float64.rank (Float64.ofInt64 x) then 1 else 0 := by
  simp [fieldValuesCompare, isNumericFieldValue, compareFloat, fieldValueAsFloat, Float64.lt_ofInt64]

def valueMatchesPredicate (value : FieldValue) (predicate : FieldPredicate) : Bool :=
  let order := fieldValuesCompare value predicate.value
  match predicate.kind with
  | .eq => order = 0
  | .ne => order ≠ 0
  | .gt => order > 0
  | .gte => order ≥ 0
  | .lt => order < 0
  | .lte => order ≤ 0

def rowMatchesPredicates (predicates : List (UInt32 × FieldPredicate)) (row : Row) : Bool :=
  predicates.all fun p =>
    match row.fields p.1 with
    | none => false
    | some value => valueMatchesPredicate value p.2

structure RowOf (V : Set Version) (row : Row) : Prop where
  exists_version : ∃ v ∈ V, v.seriesID = row.seriesID ∧ v.sample.timestamp = row.timestamp
  fields_iff : ∀ f x, row.fields f = some x ↔
    ∃ v ∈ V, Versioned.key v = (row.seriesID, f, row.timestamp) ∧ v.sample.value = x

theorem RowOf.eq (h : RowOf V row) (h' : RowOf V row') (hs : row.seriesID = row'.seriesID)
    (ht : row.timestamp = row'.timestamp) : row = row' := by
  have hfields : row.fields = row'.fields := by
    funext f
    apply Option.ext
    intro x
    rw [h.fields_iff, h'.fields_iff, hs, ht]
  cases row
  cases row'
  simp_all

structure RowsOf (V : Set Version) (rows : List Row) : Prop where
  sound : ∀ row ∈ rows, RowOf V row
  complete : ∀ v ∈ V, ∃ row ∈ rows, row.seriesID = v.seriesID ∧ row.timestamp = v.sample.timestamp

theorem RowsOf.mem_iff (h : RowsOf V rows) : row ∈ rows ↔ RowOf V row := by
  refine ⟨h.sound row, fun hrow => ?_⟩
  obtain ⟨v, hv, hs, ht⟩ := hrow.exists_version
  obtain ⟨row', hmem, hs', ht'⟩ := h.complete v hv
  rw [hrow.eq (h.sound row' hmem) (hs.symm.trans hs'.symm) (ht.symm.trans ht'.symm)]
  exact hmem

theorem RowOf.congr (h : RowOf V row)
    (hV : ∀ v : Version, v.seriesID = row.seriesID → v.sample.timestamp = row.timestamp → (v ∈ V ↔ v ∈ V')) :
    RowOf V' row where
  exists_version := by
    obtain ⟨v, hv, hs, ht⟩ := h.exists_version
    exact ⟨v, (hV v hs ht).mp hv, hs, ht⟩
  fields_iff f x := by
    rw [h.fields_iff]
    refine exists_congr fun v => ?_
    simp only [Version.key_eq, Prod.mk.injEq]
    constructor
    · rintro ⟨hv, ⟨hs, hf, ht⟩, hx⟩
      exact ⟨(hV v hs ht).mp hv, ⟨hs, hf, ht⟩, hx⟩
    · rintro ⟨hv, ⟨hs, hf, ht⟩, hx⟩
      exact ⟨(hV v hs ht).mpr hv, ⟨hs, hf, ht⟩, hx⟩

structure ColumnsSorted (columns : List ColumnData) : Prop where
  keys : columns.Pairwise columnLess
  times : ∀ c ∈ columns, c.samples.Pairwise fun a b => a.timestamp < b.timestamp

theorem ColumnsSorted.eq_of_key (h : ColumnsSorted columns) (hc : c ∈ columns) (hd : d ∈ columns)
    (hs : c.seriesID = d.seriesID) (hf : c.fieldID = d.fieldID) : c = d := by
  by_contra hne
  have hsymm : Std.Symm fun a b => ¬ sameColumn a b := ⟨fun a b h hs => h ⟨hs.1.symm, hs.2.symm⟩⟩
  exact (h.keys.imp columnLess.ne).forall hc hd hne ⟨hs, hf⟩

theorem ColumnsSorted.nodup_keys (h : ColumnsSorted columns) : ((versions columns).map Versioned.key).Nodup := by
  rw [versions, map_flatMap, nodup_flatMap]
  constructor
  · intro c hc
    simp only [ColumnData.versions, map_map]
    refine (pairwise_map.mpr ((h.times c hc).imp fun {a b} hlt => ?_))
    intro hk
    have : a.timestamp = b.timestamp := (Prod.mk.inj (Prod.mk.inj hk).2).2
    exact Int64.lt_irrefl (this ▸ hlt)
  · refine h.keys.imp fun {c d} hlt k hc hd => ?_
    obtain ⟨u, hu, rfl⟩ := mem_map.mp hc
    obtain ⟨w, hw, hk⟩ := mem_map.mp hd
    obtain ⟨hus, huf, -⟩ := ColumnData.mem_versions.mp hu
    obtain ⟨hws, hwf, -⟩ := ColumnData.mem_versions.mp hw
    obtain ⟨hs, hf⟩ := Prod.mk.inj hk
    exact hlt.ne ⟨hus.trans (hs.symm.trans hws.symm), huf.trans ((Prod.mk.inj hf).1.symm.trans hwf.symm)⟩

section Join

def ofColumnData (c : ColumnData) : Column UInt64 UInt32 Int64 FieldValue :=
  ⟨c.seriesID, c.fieldID, c.samples.map fun s => (s.timestamp, s.value)⟩

def Row.ofJoined (r : JoinedRow UInt64 UInt32 Int64 FieldValue) : Row := ⟨r.head, r.time, r.fields⟩

theorem appendColumnRows_ofJoined (rows : List (JoinedRow UInt64 UInt32 Int64 FieldValue)) (c : ColumnData) :
    appendColumnRows (rows.map Row.ofJoined) c = (insertColumn rows (ofColumnData c)).map Row.ofJoined := by
  rw [appendColumnRows, insertColumn, ColumnData.versions, ofColumnData, foldl_map, foldl_map]
  refine foldl_hom (List.map Row.ofJoined) fun rows s => ?_
  have hany : (rows.map Row.ofJoined).any (fun row => row.timestamp = s.timestamp) =
      rows.any fun row => row.time = s.timestamp := any_map
  rw [appendRowField, insertCell]
  rw [hany]
  split
  · rw [map_map, map_map]
    refine map_congr_left fun row _ => ?_
    rcases eq_or_ne row.time s.timestamp with ht | ht
    · simp [Row.ofJoined, ht]
    · simp [Row.ofJoined, ht]
  · rw [map_append]
    rfl

theorem rowsFromSeriesColumns_eq (columns : List ColumnData) :
    rowsFromSeriesColumns columns = (joinColumns (columns.map ofColumnData)).map Row.ofJoined := by
  have haligned : aligned (columns.map ofColumnData) = alignedSeriesColumns columns := by
    cases columns with
    | nil => rfl
    | cons first rest => simp [aligned, alignedSeriesColumns, ofColumnData, Function.comp_def]
  have hpath : alignedRowsFromSeriesColumns columns = (joinAligned (columns.map ofColumnData)).map Row.ofJoined := by
    cases columns with
    | nil => rfl
    | cons first rest =>
      rw [alignedRowsFromSeriesColumns, map_cons, joinAligned, ← map_cons]
      simp [ofColumnData, Row.ofJoined, foldl_map, zipIdx_map, Function.comp_def]
  have hmapped : mappedRowsFromSeriesColumns columns = (joinMapped (columns.map ofColumnData)).map Row.ofJoined := by
    have hfold : columns.foldl appendColumnRows (List.map Row.ofJoined []) =
        (columns.foldl (fun rows c => insertColumn rows (ofColumnData c)) []).map Row.ofJoined :=
      foldl_hom (List.map Row.ofJoined) appendColumnRows_ofJoined
    have hsort := map_insertionSort (fun a b => a.time ≤ b.time)
      (fun a b => a.timestamp ≤ b.timestamp) Row.ofJoined
      (columns.foldl (fun rows c => insertColumn rows (ofColumnData c)) []) fun _ _ _ _ => Iff.rfl
    rw [joinMapped, foldl_map, hsort, ← hfold]
    rfl
  rw [rowsFromSeriesColumns, joinColumns, haligned, hpath, hmapped, isEmpty_map]
  split_ifs <;> rfl

variable (h : ColumnsSorted columns) (hone : ∀ c ∈ columns, ∀ d ∈ columns, c.seriesID = d.seriesID)
include h hone

theorem joinable_ofColumnData : Joinable (columns.map ofColumnData) := by
  have htimes : ∀ c ∈ columns, (ofColumnData c).points.Pairwise (·.1 < ·.1) :=
    fun c hc => pairwise_map.mpr (h.times c hc)
  constructor
  · intro _ hcol
    obtain ⟨c, hc, rfl⟩ := mem_map.mp hcol
    exact pairwise_map.mpr ((htimes c hc).imp Int64.le_of_lt)
  · intro _ hcol
    obtain ⟨c, hc, rfl⟩ := mem_map.mp hcol
    exact nodup_times (htimes c hc)
  · rintro t f x y ⟨_, hcol, hf, hx⟩ ⟨_, hcol', hf', hy⟩
    obtain ⟨c, hc, rfl⟩ := mem_map.mp hcol
    obtain ⟨d, hd, rfl⟩ := mem_map.mp hcol'
    obtain rfl := h.eq_of_key hc hd (hone c hc d hd) (hf.trans hf'.symm)
    exact congrArg Prod.snd (inj_on_of_nodup_map (nodup_times (htimes c hc)) hx hy rfl)

theorem rowsFromSeriesColumns_rowsOf : RowsOf {v | v ∈ versions columns} (rowsFromSeriesColumns columns) := by
  have hjoin := joinColumns_joinOf (joinable_ofColumnData h hone)
  rw [rowsFromSeriesColumns_eq]
  have hrow : ∀ r ∈ joinColumns (columns.map ofColumnData), ∃ c ∈ columns, r.head = c.seriesID ∧
      ∃ s ∈ c.samples, s.timestamp = r.time := by
    intro r hr
    obtain ⟨_, hcol, hhead, htime⟩ := hjoin.head r hr
    obtain ⟨c, hc, rfl⟩ := mem_map.mp hcol
    obtain ⟨s, hs, ht⟩ : ∃ s ∈ c.samples, s.timestamp = r.time := by simpa [ofColumnData] using htime
    exact ⟨c, hc, hhead, s, hs, ht⟩
  refine ⟨fun row hmem => ?_, fun v hv => ?_⟩
  · obtain ⟨r, hr, rfl⟩ := mem_map.mp hmem
    obtain ⟨c, hc, hhead, s, hs, ht⟩ := hrow r hr
    refine ⟨⟨⟨c.seriesID, c.fieldID, s⟩, mem_versions.mpr ⟨c, hc, by simp [hs]⟩, hhead.symm, ht⟩, fun f x => ?_⟩
    refine (hjoin.fields r hr f x).trans ⟨?_, ?_⟩
    · rintro ⟨_, hcol, rfl, hx⟩
      obtain ⟨d, hd, rfl⟩ := mem_map.mp hcol
      obtain ⟨y, hy, heq⟩ := mem_map.mp hx
      obtain ⟨ht, rfl⟩ := Prod.mk.inj heq
      refine ⟨⟨d.seriesID, d.fieldID, y⟩, mem_versions.mpr ⟨d, hd, by simp [hy]⟩, ?_, rfl⟩
      simp [Row.ofJoined, ofColumnData, hhead, hone d hd c hc, ht]
    · rintro ⟨v, hv, hk, rfl⟩
      obtain ⟨d, hd, hv⟩ := mem_versions.mp hv
      obtain ⟨-, hf, hx⟩ := ColumnData.mem_versions.mp hv
      obtain ⟨hvf, ht⟩ := Prod.mk.inj (Prod.mk.inj hk).2
      exact ⟨ofColumnData d, mem_map_of_mem hd, hf.trans hvf, mem_map.mpr ⟨_, hx, Prod.ext ht rfl⟩⟩
  · obtain ⟨c, hc, hv⟩ := mem_versions.mp hv
    obtain ⟨hs, -, hx⟩ := ColumnData.mem_versions.mp hv
    obtain ⟨r, hr, ht⟩ := hjoin.complete (ofColumnData c) (mem_map_of_mem hc) v.sample.timestamp
      (by simpa [ofColumnData] using ⟨_, hx, rfl⟩)
    obtain ⟨d, hd, hhead, -⟩ := hrow r hr
    exact ⟨_, mem_map_of_mem hr, hhead.trans ((hone d hd c hc).trans hs), ht⟩

end Join

theorem ColumnsSorted.sublist (h : ColumnsSorted columns) (hsub : columns'.Sublist columns) : ColumnsSorted columns' :=
  ⟨h.keys.sublist hsub, fun c hc => h.times c (hsub.subset hc)⟩

theorem columnLess.series_le (h : columnLess c d) : c.seriesID ≤ d.seriesID := by
  rcases h with h | h
  · exact UInt64.le_of_lt h
  · exact UInt64.le_of_eq h.1

theorem rowMergeStream_rowsOf (h : ColumnsSorted columns) :
    RowsOf {v | v ∈ versions columns} (rowMergeStream columns) := by
  have hflat := Shard.seriesRuns_flatten columns
  have hsorted := h.keys.imp columnLess.series_le
  have hrun : ∀ run ∈ Shard.seriesRuns columns, RowsOf {v | v ∈ versions run} (rowsFromSeriesColumns run) := by
    intro run hr
    refine rowsFromSeriesColumns_rowsOf (h.sublist (hflat ▸ sublist_flatten_of_mem hr)) fun c hc d hd => ?_
    obtain ⟨first, rest, -, hall⟩ := Shard.seriesRuns_series columns run hr
    rw [hall c hc, hall d hd]
  have hmem : ∀ v, v ∈ versions columns ↔ ∃ run ∈ Shard.seriesRuns columns, v ∈ versions run := by
    intro v
    rw [← mem_versions_flatten, hflat]
  refine ⟨fun row hrow => ?_, fun v hv => ?_⟩
  · obtain ⟨run, hr, hrow⟩ := mem_flatMap.mp hrow
    have hof := (hrun run hr).sound row hrow
    refine hof.congr fun v hs ht => ⟨fun hv => (hmem v).mpr ⟨run, hr, hv⟩, fun hv => ?_⟩
    obtain ⟨u, hu, hus, -⟩ := hof.exists_version
    obtain ⟨c, hc, hu⟩ := mem_versions.mp hu
    obtain ⟨d, hd, hvd⟩ := mem_versions.mp hv
    refine mem_versions.mpr ⟨d, ?_, hvd⟩
    rw [Shard.seriesRuns_eq] at hr
    refine mem_of_mem_runsBy (fun _ _ => UInt64.le_antisymm) hsorted hr hc hd ?_
    rw [(ColumnData.mem_versions.mp hu).1, (ColumnData.mem_versions.mp hvd).1, hus, hs]
  · obtain ⟨run, hr, hv⟩ := (hmem v).mp hv
    obtain ⟨row, hrow, hk⟩ := (hrun run hr).complete v hv
    exact ⟨row, mem_flatMap.mpr ⟨run, hr, hrow⟩, hk⟩

end Mts.Engine
