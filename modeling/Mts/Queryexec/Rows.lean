import Mts.Queryexec.Plan

/-! Decorated columns and their rows, `queryexec/row_merge.go`, `expression_column_filter.go`,
`project.go` and the row streams of `engine/query.go`. The columns of one series are joined by timestamp
under their field names: `joinColumns` is `rowsFromSeriesColumns` with its aligned and its mapped path.
The two slices of a column have one length, so that a column is a list of points. -/

namespace Mts.Queryexec
open Lib Model List

variable {expr : QueryExpr} {row : Row} {pt : Int64 × FieldValue}

/-- `fieldType` is `none` where the code leaves the zero type. -/
structure ColumnSeries where
  seriesID : UInt64
  tags : TagMap
  fieldID : UInt32
  fieldName : GoString
  fieldType : Option FieldType
  points : List (Int64 × FieldValue)
  deriving DecidableEq

variable {columns run : List ColumnSeries} {c : ColumnSeries} {d : ColumnSeries}

def ColumnSeries.column (c : ColumnSeries) : Column (UInt64 × TagMap) GoString Int64 FieldValue :=
  ⟨(c.seriesID, c.tags), c.fieldName, c.points⟩

def Row.ofJoined (r : JoinedRow (UInt64 × TagMap) GoString Int64 FieldValue) : Row :=
  ⟨r.head.1, r.head.2, r.time, r.fields⟩

def rowsFromSeriesColumns (columns : List ColumnSeries) : List Row :=
  (joinColumns (columns.map ColumnSeries.column)).map Row.ofJoined

/-- All rows of `NewRowMergeStream` without limit and offset. -/
def rowMergeStream (columns : List ColumnSeries) : List Row :=
  (runsBy ColumnSeries.seriesID columns).flatMap rowsFromSeriesColumns

def rowMatchesPredicates (predicates : List QueryPredicate) (row : Row) : Bool :=
  predicates.all fun p =>
    match row.fields p.name with
    | none => false
    | some value => valueMatchesPredicate value p

/-- `NewExprFilteredRowStream` where there is an expression, otherwise `NewFilteredRowStream`. -/
def filteredRowStream (expr : QueryExpr) (postFilters : List QueryPredicate) (rows : List Row) : List Row :=
  match expr with
  | .none => rows.filter (rowMatchesPredicates postFilters)
  | expr => rows.filter fun row => rowMatchesExpr row expr

def projectRow (fields : List GoString) (row : Row) : Row :=
  { row with fields := fun name => if fields.contains name then row.fields name else none }

/-- `newProjectedRowStream`; no name stands for all fields. -/
def projectedRowStream (fields : List GoString) (rows : List Row) : List Row :=
  if fields.isEmpty then rows else rows.map (projectRow fields)

def columnsFromFilteredRows (templates : List ColumnSeries) (rows : List Row) : List ColumnSeries :=
  if rows.isEmpty then []
  else
    (templates.map fun template =>
      { template with points := rows.filterMap fun row =>
          (row.fields template.fieldName).map fun value => (row.timestamp, value) }).filter
      fun column => !column.points.isEmpty

def filterSeriesColumnsByExpr (expr : QueryExpr) (columns : List ColumnSeries) : List ColumnSeries :=
  columnsFromFilteredRows columns ((rowsFromSeriesColumns columns).filter fun row => rowMatchesExpr row expr)

/-- `NewExprFilteredColumnStream`. -/
def exprFilteredColumnStream (expr : QueryExpr) (columns : List ColumnSeries) : List ColumnSeries :=
  match expr with
  | .none => columns
  | expr => (runsBy ColumnSeries.seriesID columns).flatMap (filterSeriesColumnsByExpr expr)

def andExprFromPredicates : List QueryPredicate → QueryExpr
  | [] => .none
  | [p] => .leaf p
  | predicates => .and (predicates.map .leaf)

/-- `NewProjectedColumnStream`. -/
def projectedColumnStream (fields : List GoString) (columns : List ColumnSeries) : List ColumnSeries :=
  if fields.isEmpty then columns else columns.filter fun c => fields.contains c.fieldName

def HasValue (columns : List ColumnSeries) (id : UInt64) (t : Int64) (name : GoString) (x : FieldValue) : Prop :=
  ∃ c ∈ columns, c.seriesID = id ∧ c.fieldName = name ∧ (t, x) ∈ c.points

structure MergeableColumns (columns : List ColumnSeries) : Prop where
  sorted : columns.Pairwise fun c d => c.seriesID ≤ d.seriesID
  tags : ∀ c ∈ columns, ∀ d ∈ columns, c.seriesID = d.seriesID → c.tags = d.tags
  times : ∀ c ∈ columns, c.points.Pairwise fun a b => a.1 < b.1
  names : ∀ c ∈ columns, ∀ d ∈ columns, c.seriesID = d.seriesID → c.fieldName = d.fieldName → c = d

structure RowOf (columns : List ColumnSeries) (row : Row) : Prop where
  source : ∃ c ∈ columns, c.seriesID = row.seriesID ∧ c.tags = row.tags ∧
    row.timestamp ∈ c.points.map Prod.fst
  fields : ∀ name x, row.fields name = some x ↔ HasValue columns row.seriesID row.timestamp name x

theorem MergeableColumns.values (h : MergeableColumns columns) {id : UInt64} (hx : HasValue columns id t name x) (hy : HasValue columns id t name y) : x = y := by
  obtain ⟨c, hc, hcid, hcname, hx⟩ := hx
  obtain ⟨d, hd, hdid, hdname, hy⟩ := hy
  obtain rfl := h.names c hc d hd (hcid.trans hdid.symm) (hcname.trans hdname.symm)
  exact congrArg Prod.snd (inj_on_of_nodup_map (nodup_times (h.times c hc)) hx hy rfl)

theorem RowOf.eq (h : MergeableColumns columns) (hrow : RowOf columns row)
    (hrow' : RowOf columns row') (hid : row.seriesID = row'.seriesID) (ht : row.timestamp = row'.timestamp) :
    row = row' := by
  obtain ⟨c, hc, hcid, hctags, -⟩ := hrow.source
  obtain ⟨d, hd, hdid, hdtags, -⟩ := hrow'.source
  have htags : row.tags = row'.tags := by
    rw [← hctags, ← hdtags]
    exact h.tags c hc d hd (hcid.trans (hid.trans hdid.symm))
  have hfields : row.fields = row'.fields := by
    funext name
    apply Option.ext
    intro x
    rw [hrow.fields, hrow'.fields, hid, ht]
  cases row
  cases row'
  simp_all

theorem mem_of_mem_run (hrun : run ∈ runsBy ColumnSeries.seriesID columns) (hc : c ∈ run) : c ∈ columns := by
  rw [← flatten_runsBy ColumnSeries.seriesID columns]
  exact mem_flatten.mpr ⟨run, hrun, hc⟩

section
variable (h : MergeableColumns columns) (hrun : run ∈ runsBy ColumnSeries.seriesID columns)
include h hrun

theorem joinable_run : Joinable (run.map ColumnSeries.column) := by
  obtain ⟨first, rest, -, hkey⟩ := runsBy_key ColumnSeries.seriesID hrun
  have hcell : ∀ {t : Int64} {name : GoString} {x : FieldValue},
      HasCell (run.map ColumnSeries.column) t name x → HasValue columns first.seriesID t name x := by
    rintro t name x ⟨_, hcol, hname, hx⟩
    obtain ⟨c, hc, rfl⟩ := mem_map.mp hcol
    exact ⟨c, mem_of_mem_run hrun hc, hkey c hc, hname, hx⟩
  constructor
  · intro _ hcol
    obtain ⟨c, hc, rfl⟩ := mem_map.mp hcol
    exact pairwise_map.mpr ((h.times c (mem_of_mem_run hrun hc)).imp Int64.le_of_lt)
  · intro _ hcol
    obtain ⟨c, hc, rfl⟩ := mem_map.mp hcol
    exact nodup_times (h.times c (mem_of_mem_run hrun hc))
  · intro t name x y hx hy
    exact h.values (hcell hx) (hcell hy)

theorem rowsFromSeriesColumns_spec :
    JoinOf (run.map ColumnSeries.column) (joinColumns (run.map ColumnSeries.column)) :=
  joinColumns_joinOf (joinable_run h hrun)

theorem pairwise_rowsFromSeriesColumns : (rowsFromSeriesColumns run).Pairwise (·.timestamp < ·.timestamp) := by
  have hjoin := rowsFromSeriesColumns_spec h hrun
  have hnodup := pairwise_map.mp hjoin.nodup
  exact pairwise_map.mpr ((hjoin.sorted.and hnodup).imp fun {a b} hab => Int64.lt_of_le_of_ne hab.1 hab.2)

theorem seriesID_of_mem_rowsFromSeriesColumns (hrow : row ∈ rowsFromSeriesColumns run) (hc : c ∈ run) :
    row.seriesID = c.seriesID := by
  obtain ⟨r, hr, rfl⟩ := mem_map.mp hrow
  obtain ⟨_, hcol, hhead, -⟩ := (rowsFromSeriesColumns_spec h hrun).head r hr
  obtain ⟨d, hd, rfl⟩ := mem_map.mp hcol
  obtain ⟨first, rest, -, hkey⟩ := runsBy_key ColumnSeries.seriesID hrun
  rw [hkey c hc, ← hkey d hd]
  exact congrArg Prod.fst hhead

end

theorem mem_rowMergeStream (h : MergeableColumns columns) : row ∈ rowMergeStream columns ↔ RowOf columns row := by
  -- the run of a series holds all its columns
  have hrow : ∀ run ∈ runsBy ColumnSeries.seriesID columns,
      ∀ r ∈ joinColumns (run.map ColumnSeries.column), RowOf columns (Row.ofJoined r) := by
    intro run hrun r hr
    have hjoin := rowsFromSeriesColumns_spec h hrun
    obtain ⟨_, hcol, hhead, htime⟩ := hjoin.head r hr
    obtain ⟨c, hc, rfl⟩ := mem_map.mp hcol
    have hid : (Row.ofJoined r).seriesID = c.seriesID := congrArg Prod.fst hhead
    refine ⟨⟨c, mem_of_mem_run hrun hc, hid.symm, (congrArg Prod.snd hhead).symm, htime⟩, fun name x => ?_⟩
    refine (hjoin.fields r hr name x).trans ?_
    constructor
    · rintro ⟨_, hcol, hname, hx⟩
      obtain ⟨d, hd, rfl⟩ := mem_map.mp hcol
      obtain ⟨first, rest, -, hkey⟩ := runsBy_key ColumnSeries.seriesID hrun
      refine ⟨d, mem_of_mem_run hrun hd, ?_, hname, hx⟩
      rw [hid, hkey c hc, hkey d hd]
    · rintro ⟨d, hd, hdid, hname, hx⟩
      have hdrun : d ∈ run := mem_of_mem_runsBy (fun _ _ => UInt64.le_antisymm)
        h.sorted hrun hc hd (hid.symm.trans hdid.symm)
      exact ⟨d.column, mem_map_of_mem hdrun, hname, hx⟩
  constructor
  · intro hmem
    obtain ⟨run, hrun, hmem⟩ := mem_flatMap.mp hmem
    obtain ⟨r, hr, rfl⟩ := mem_map.mp hmem
    exact hrow run hrun r hr
  · intro hof
    obtain ⟨c, hc, hid, htags, htime⟩ := hof.source
    rw [← flatten_runsBy ColumnSeries.seriesID columns] at hc
    obtain ⟨run, hrun, hc⟩ := mem_flatten.mp hc
    obtain ⟨r, hr, hrt⟩ := (rowsFromSeriesColumns_spec h hrun).complete c.column
      (mem_map_of_mem hc) row.timestamp htime
    have hof' := hrow run hrun r hr
    have heq : Row.ofJoined r = row := by
      have hid' := seriesID_of_mem_rowsFromSeriesColumns h hrun (mem_map_of_mem hr) hc
      exact hof'.eq h hof (hid'.trans hid) hrt
    exact mem_flatMap.mpr ⟨run, hrun, mem_map.mpr ⟨r, hr, heq⟩⟩

theorem pairwise_rowMergeStream (h : MergeableColumns columns) :
    (rowMergeStream columns).Pairwise fun a b => a.seriesID ≠ b.seriesID ∨ a.timestamp ≠ b.timestamp := by
  refine pairwise_flatMap.mpr ⟨fun run hrun => ?_, ?_⟩
  · have htimes := pairwise_map.mp (rowsFromSeriesColumns_spec h hrun).nodup
    exact pairwise_map.mpr (htimes.imp .inr)
  · have hdistinct := runsBy_distinct (fun _ _ => UInt64.le_antisymm) h.sorted
    refine hdistinct.imp_of_mem fun {run run'} hrun hrun' hne a ha b hb => .inl ?_
    obtain ⟨c, cs, rfl, -⟩ := runsBy_key ColumnSeries.seriesID hrun
    obtain ⟨d, ds, rfl, -⟩ := runsBy_key ColumnSeries.seriesID hrun'
    have hc : c ∈ c :: cs := mem_cons_self
    have hd : d ∈ d :: ds := mem_cons_self
    rw [seriesID_of_mem_rowsFromSeriesColumns h hrun ha hc, seriesID_of_mem_rowsFromSeriesColumns h hrun' hb hd]
    exact hne c hc d hd

section
variable (h : MergeableColumns columns) (hrun : run ∈ runsBy ColumnSeries.seriesID columns) (hc : c ∈ run)
include h hrun hc

theorem filterMap_rowsFromSeriesColumns :
    (rowsFromSeriesColumns run).filterMap (fun row =>
      (row.fields c.fieldName).map fun value => (row.timestamp, value)) = c.points := by
  have hjoin := rowsFromSeriesColumns_spec h hrun
  obtain ⟨first, rest, -, hkey⟩ := runsBy_key ColumnSeries.seriesID hrun
  have hcell : ∀ {t : Int64} {x : FieldValue},
      HasCell (run.map ColumnSeries.column) t c.fieldName x ↔ (t, x) ∈ c.points := by
    intro t x
    constructor
    · rintro ⟨_, hcol, hname, hx⟩
      obtain ⟨d, hd, rfl⟩ := mem_map.mp hcol
      obtain rfl := h.names d (mem_of_mem_run hrun hd) c (mem_of_mem_run hrun hc)
        ((hkey d hd).trans (hkey c hc).symm) hname
      exact hx
    · intro hx
      exact ⟨c.column, mem_map_of_mem hc, rfl, hx⟩
  -- both lists are in time order
  refine List.Pairwise.eq_of_mem_iff (r := (·.1 < ·.1)) ?_ (h.times c (mem_of_mem_run hrun hc)) fun pt => ?_
  · refine List.Pairwise.filterMap _ (fun row row' hlt pt hpt pt' hpt' => ?_) (pairwise_rowsFromSeriesColumns h hrun)
    obtain ⟨x, -, rfl⟩ := Option.map_eq_some_iff.mp hpt
    obtain ⟨x', -, rfl⟩ := Option.map_eq_some_iff.mp hpt'
    exact hlt
  · rw [mem_filterMap]
    constructor
    · rintro ⟨row, hrow, hpt⟩
      obtain ⟨x, hx, rfl⟩ := Option.map_eq_some_iff.mp hpt
      obtain ⟨r, hr, rfl⟩ := mem_map.mp hrow
      exact hcell.mp ((hjoin.fields r hr c.fieldName x).mp hx)
    · intro hpt
      obtain ⟨r, hr, ht⟩ := hjoin.complete c.column (mem_map_of_mem hc) pt.1 (mem_map_of_mem hpt)
      have hx := (hjoin.fields r hr c.fieldName pt.2).mpr (ht ▸ hcell.mpr hpt)
      refine ⟨Row.ofJoined r, mem_map_of_mem hr, Option.map_eq_some_iff.mpr ⟨pt.2, hx, ?_⟩⟩
      exact Prod.ext ht rfl

theorem exists_row_of_point (hpt : pt ∈ c.points) :
    ∃ row ∈ rowsFromSeriesColumns run, RowOf columns row ∧ row.seriesID = c.seriesID ∧ row.timestamp = pt.1 ∧
      (row.fields c.fieldName).map (fun value => (row.timestamp, value)) = some pt := by
  rw [← filterMap_rowsFromSeriesColumns h hrun hc] at hpt
  obtain ⟨row, hrow, hpt⟩ := mem_filterMap.mp hpt
  refine ⟨row, hrow, (mem_rowMergeStream h).mp (mem_flatMap.mpr ⟨run, hrun, hrow⟩),
    seriesID_of_mem_rowsFromSeriesColumns h hrun hrow hc, ?_, hpt⟩
  obtain ⟨x, -, rfl⟩ := Option.map_eq_some_iff.mp hpt
  rfl

end

theorem exists_run (hc : c ∈ columns) : ∃ run ∈ runsBy ColumnSeries.seriesID columns, c ∈ run := by
  rw [← flatten_runsBy ColumnSeries.seriesID columns] at hc
  exact mem_flatten.mp hc

structure FilteredColumn (expr : QueryExpr) (columns : List ColumnSeries) (c d : ColumnSeries) : Prop where
  frame : d = { c with points := d.points }
  nonempty : d.points ≠ []
  times : d.points.Pairwise fun a b => a.1 < b.1
  points : ∀ pt, pt ∈ d.points ↔ pt ∈ c.points ∧ ∃ row, RowOf columns row ∧ row.seriesID = c.seriesID ∧
    row.timestamp = pt.1 ∧ rowMatchesExpr row expr = true

theorem FilteredColumn.eq (h : FilteredColumn expr columns c d) (h' : FilteredColumn expr columns c d') : d = d' := by
  have hpoints : d.points = d'.points := List.Pairwise.eq_of_mem_iff h.times h'.times fun pt =>
    (h.points pt).trans (h'.points pt).symm
  rw [h.frame, h'.frame, hpoints]

def filteredColumn (expr : QueryExpr) (run : List ColumnSeries) (c : ColumnSeries) : ColumnSeries :=
  { c with
    points := ((rowsFromSeriesColumns run).filter fun row => rowMatchesExpr row expr).filterMap fun row =>
      (row.fields c.fieldName).map fun value => (row.timestamp, value) }

section
variable (h : MergeableColumns columns) (hrun : run ∈ runsBy ColumnSeries.seriesID columns) (hc : c ∈ run)
include h hrun hc

theorem mem_filteredColumn :
    pt ∈ (filteredColumn expr run c).points ↔ pt ∈ c.points ∧ ∃ row, RowOf columns row ∧
      row.seriesID = c.seriesID ∧ row.timestamp = pt.1 ∧ rowMatchesExpr row expr = true := by
  constructor
  · intro hpt
    obtain ⟨row, hrow, hpt⟩ := mem_filterMap.mp hpt
    obtain ⟨hrow, hmatch⟩ := mem_filter.mp hrow
    have hmem : pt ∈ c.points := by
      rw [← filterMap_rowsFromSeriesColumns h hrun hc]
      exact mem_filterMap.mpr ⟨row, hrow, hpt⟩
    refine ⟨hmem, row, (mem_rowMergeStream h).mp (mem_flatMap.mpr ⟨run, hrun, hrow⟩),
      seriesID_of_mem_rowsFromSeriesColumns h hrun hrow hc, ?_, hmatch⟩
    obtain ⟨x, -, rfl⟩ := Option.map_eq_some_iff.mp hpt
    rfl
  · rintro ⟨hpt, row, hof, hid, htime, hmatch⟩
    obtain ⟨row', hrow', hof', hid', htime', hpt⟩ := exists_row_of_point h hrun hc hpt
    obtain rfl := hof'.eq h hof (hid'.trans hid.symm) (htime'.trans htime.symm)
    exact mem_filterMap.mpr ⟨row', mem_filter.mpr ⟨hrow', hmatch⟩, hpt⟩

theorem filteredColumn_spec (hne : (filteredColumn expr run c).points ≠ []) :
    FilteredColumn expr columns c (filteredColumn expr run c) := by
  refine ⟨rfl, hne, ?_, fun pt => mem_filteredColumn h hrun hc⟩
  have hsub := (filter_sublist (p := fun row => rowMatchesExpr row expr)
    (l := rowsFromSeriesColumns run)).filterMap fun row =>
      (row.fields c.fieldName).map fun value => (row.timestamp, value)
  rw [filterMap_rowsFromSeriesColumns h hrun hc] at hsub
  exact (h.times c (mem_of_mem_run hrun hc)).sublist hsub

end

section
variable (h : MergeableColumns columns) (hne : ∀ c ∈ columns, c.points ≠ [])
include h hne

theorem filteredColumn_none (hc : c ∈ columns) : FilteredColumn .none columns c c := by
  refine ⟨rfl, hne c hc, h.times c hc, fun pt => ⟨fun hpt => ⟨hpt, ?_⟩, And.left⟩⟩
  obtain ⟨run, hrun, hc⟩ := exists_run hc
  obtain ⟨row, -, hof, hid, htime, -⟩ := exists_row_of_point h hrun hc hpt
  exact ⟨row, hof, hid, htime, rfl⟩

theorem mem_exprFilteredColumnStream :
    d ∈ exprFilteredColumnStream expr columns ↔ ∃ c ∈ columns, FilteredColumn expr columns c d := by
  have hstream : d ∈ (runsBy ColumnSeries.seriesID columns).flatMap (filterSeriesColumnsByExpr expr) ↔
      ∃ c ∈ columns, FilteredColumn expr columns c d := by
    constructor
    · intro hd
      obtain ⟨run, hrun, hd⟩ := mem_flatMap.mp hd
      rw [filterSeriesColumnsByExpr, columnsFromFilteredRows] at hd
      split at hd
      · cases hd
      · obtain ⟨hd, hpoints⟩ := mem_filter.mp hd
        obtain ⟨c, hc, rfl⟩ := mem_map.mp hd
        rw [Bool.not_eq_true', isEmpty_eq_false_iff] at hpoints
        exact ⟨c, mem_of_mem_run hrun hc, filteredColumn_spec h hrun hc hpoints⟩
    · rintro ⟨c, hc, hd⟩
      obtain ⟨run, hrun, hc⟩ := exists_run hc
      refine mem_flatMap.mpr ⟨run, hrun, ?_⟩
      have hpoints : (filteredColumn expr run c).points ≠ [] := by
        obtain ⟨pt, hpt⟩ := exists_mem_of_ne_nil _ hd.nonempty
        exact ne_nil_of_mem ((mem_filteredColumn h hrun hc).mpr ((hd.points pt).mp hpt))
      obtain rfl := hd.eq (filteredColumn_spec h hrun hc hpoints)
      rw [filterSeriesColumnsByExpr, columnsFromFilteredRows, if_neg]
      · refine mem_filter.mpr ⟨mem_map_of_mem hc, ?_⟩
        rw [Bool.not_eq_true', isEmpty_eq_false_iff]
        exact hpoints
      · intro hrows
        refine hpoints ?_
        rw [filteredColumn, List.isEmpty_iff.mp hrows, filterMap_nil]
  cases expr with
  | none =>
    constructor
    · intro hd
      exact ⟨d, hd, filteredColumn_none h hne hd⟩
    · rintro ⟨c, hc, hd⟩
      rw [hd.eq (filteredColumn_none h hne hc)]
      exact hc
  | _ => exact hstream

theorem exprFilteredColumnStream_eq (hexpr : ∀ row, RowOf columns row → rowMatchesExpr row expr = true) :
    exprFilteredColumnStream expr columns = columns := by
  have hrun : ∀ run ∈ runsBy ColumnSeries.seriesID columns, filterSeriesColumnsByExpr expr run = run := by
    intro run hrun
    have hall : (rowsFromSeriesColumns run).filter (fun row => rowMatchesExpr row expr) =
        rowsFromSeriesColumns run := by
      refine filter_eq_self.mpr fun row hrow => hexpr row ((mem_rowMergeStream h).mp ?_)
      exact mem_flatMap.mpr ⟨run, hrun, hrow⟩
    have hcolumns : ∀ c ∈ run, { c with points := (rowsFromSeriesColumns run).filterMap (fun row =>
        (row.fields c.fieldName).map fun value => (row.timestamp, value)) } = c := by
      intro c hc
      rw [filterMap_rowsFromSeriesColumns h hrun hc]
    have hrows : rowsFromSeriesColumns run ≠ [] := by
      obtain ⟨first, rest, rfl, -⟩ := runsBy_key ColumnSeries.seriesID hrun
      intro hnil
      have hread := filterMap_rowsFromSeriesColumns h hrun mem_cons_self
      rw [hnil] at hread
      exact hne first (mem_of_mem_run hrun mem_cons_self) hread.symm
    rw [filterSeriesColumnsByExpr, hall, columnsFromFilteredRows, if_neg (by simpa using hrows),
      map_congr_left hcolumns, map_id']
    refine filter_eq_self.mpr fun c hc => ?_
    simpa using hne c (mem_of_mem_run hrun hc)
  have hflat : (runsBy ColumnSeries.seriesID columns).flatMap (filterSeriesColumnsByExpr expr) = columns := by
    rw [flatMap_def, map_congr_left hrun, map_id', flatten_runsBy]
  cases expr with
  | none => rfl
  | _ => exact hflat

end

end Mts.Queryexec
