import Mts.Queryexec.Rows

/-! Rows of one series and their columns, `queryexec/row_merge.go` and `expression_column_filter.go`: both ways of
joining columns give the same rows, and a filter of the rows leaves the columns their samples at the rows that match. -/

namespace Mts.Queryexec
open Lib Model List

/-- The columns of a series, one for each field. -/
structure SeriesColumns (columns : List ColumnSeries) : Prop where
  series : ∀ c ∈ columns, ∀ d ∈ columns, c.seriesID = d.seriesID ∧ c.tags = d.tags
  fields : (columns.map ColumnSeries.fieldName).Nodup
  times : ∀ c ∈ columns, c.points.Pairwise fun a b => a.1 < b.1

/-- The samples of a column in rows that satisfy the expression. -/
def matchingSamples (expr : QueryExpr) (columns : List ColumnSeries) (c : ColumnSeries) : ColumnSeries :=
  { c with points := c.points.filter fun pt =>
      (rowsFromSeriesColumns columns).any fun row => row.timestamp = pt.1 && rowMatchesExpr row expr }

structure AssemblyExact (expr : QueryExpr) (columns : List ColumnSeries) : Prop where
  paths : aligned (columns.map ColumnSeries.column) = true →
    joinAligned (columns.map ColumnSeries.column) = joinMapped (columns.map ColumnSeries.column)
  ordered : (rowsFromSeriesColumns columns).Pairwise fun a b => a.timestamp < b.timestamp
  times : ∀ t, (∃ row ∈ rowsFromSeriesColumns columns, row.timestamp = t) ↔ ∃ c ∈ columns, t ∈ c.points.map Prod.fst
  fields : ∀ row ∈ rowsFromSeriesColumns columns, ∀ name x,
    row.fields name = some x ↔ ∃ c ∈ columns, c.fieldName = name ∧ (row.timestamp, x) ∈ c.points
  filtered : filterSeriesColumnsByExpr expr columns =
    (columns.map (matchingSamples expr columns)).filter fun c => !c.points.isEmpty
  stream : (exprFilteredColumnStream expr columns).filter (fun c => !c.points.isEmpty) =
    filterSeriesColumnsByExpr expr columns

variable {expr : QueryExpr} {columns : List ColumnSeries}

theorem SeriesColumns.mergeable (h : SeriesColumns columns) : MergeableColumns columns where
  sorted := pairwise_of_forall_mem_list fun _ hc _ hd => (h.series _ hc _ hd).1 ▸ UInt64.le_refl _
  tags _ hc _ hd _ := (h.series _ hc _ hd).2
  times := h.times
  names _ hc _ hd _ hname := inj_on_of_nodup_map h.fields hc hd hname

section
variable (h : SeriesColumns columns) (hrun : columns ∈ runsBy ColumnSeries.seriesID columns)
include h hrun

theorem joinAligned_eq_joinMapped (haligned : aligned (columns.map ColumnSeries.column) = true) :
    joinAligned (columns.map ColumnSeries.column) = joinMapped (columns.map ColumnSeries.column) := by
  have hj := joinable_run h.mergeable hrun
  have hhead : ∀ c ∈ columns.map ColumnSeries.column, ∀ d ∈ columns.map ColumnSeries.column, c.head = d.head := by
    intro _ hcol _ hcol'
    obtain ⟨c, hc, rfl⟩ := mem_map.mp hcol
    obtain ⟨d, hd, rfl⟩ := mem_map.mp hcol'
    obtain ⟨hid, htags⟩ := h.series c hc d hd
    exact Prod.ext hid htags
  cases hcolumns : columns.map ColumnSeries.column with
  | nil => rfl
  | cons first rest =>
    rw [hcolumns] at haligned hj hhead
    exact (joinAligned_joinOf hj haligned).eq (joinMapped_joinOf hj) hhead

theorem matchingSamples_eq (hc : c ∈ columns) : filteredColumn expr columns c = matchingSamples expr columns c := by
  have hordered := pairwise_rowsFromSeriesColumns h.mergeable hrun
  have hnodup : ((rowsFromSeriesColumns columns).map Row.timestamp).Nodup :=
    pairwise_map.mpr (hordered.imp Int64.ne_of_lt)
  rw [filteredColumn, matchingSamples]
  congr 1
  rw [← filterMap_rowsFromSeriesColumns h.mergeable hrun hc, filterMap_filter, filter_filterMap]
  refine filterMap_congr fun row hrow => ?_
  cases row.fields c.fieldName with
  | none => simp
  | some x =>
    have hmatch : ((rowsFromSeriesColumns columns).any fun row' =>
        row'.timestamp = row.timestamp && rowMatchesExpr row' expr) = rowMatchesExpr row expr := by
      rw [Bool.eq_iff_iff, any_eq_true]
      constructor
      · rintro ⟨row', hrow', hrow''⟩
        obtain ⟨ht, hm⟩ := Bool.and_eq_true_iff.mp hrow''
        rwa [← inj_on_of_nodup_map hnodup hrow' hrow (of_decide_eq_true ht)]
      · exact fun hm => ⟨row, hrow, by simp [hm]⟩
    simp [Option.filter, hmatch]

theorem filterSeriesColumnsByExpr_eq : filterSeriesColumnsByExpr expr columns =
    (columns.map (matchingSamples expr columns)).filter fun c => !c.points.isEmpty := by
  have hcolumn : columns.map (filteredColumn expr columns) = columns.map (matchingSamples expr columns) :=
    map_congr_left fun c hc => matchingSamples_eq h hrun hc
  rw [← hcolumn, filterSeriesColumnsByExpr, columnsFromFilteredRows]
  split
  · next hempty =>
    refine (filter_eq_nil_iff.mpr fun d hd => ?_).symm
    obtain ⟨c, -, rfl⟩ := mem_map.mp hd
    simp [filteredColumn, List.isEmpty_iff.mp hempty]
  · rfl

end

theorem assemblyExact (expr : QueryExpr) (h : SeriesColumns columns) : AssemblyExact expr columns := by
  by_cases hne : columns = []
  · subst hne
    exact ⟨fun _ => rfl, List.Pairwise.nil, fun t => by simp [rowsFromSeriesColumns, joinColumns], by
      simp [rowsFromSeriesColumns, joinColumns], rfl, by cases expr <;> rfl⟩
  have hruns : runsBy ColumnSeries.seriesID columns = [columns] :=
    runsBy_of_const _ (fun c hc d hd => (h.series c hc d hd).1) hne
  have hrun : columns ∈ runsBy ColumnSeries.seriesID columns := by simp [hruns]
  have hjoin := rowsFromSeriesColumns_spec h.mergeable hrun
  refine ⟨joinAligned_eq_joinMapped h hrun, pairwise_rowsFromSeriesColumns h.mergeable hrun, fun t => ⟨?_, ?_⟩, ?_,
    filterSeriesColumnsByExpr_eq h hrun, ?_⟩
  · rintro ⟨_, hrow, rfl⟩
    obtain ⟨r, hr, rfl⟩ := mem_map.mp hrow
    obtain ⟨_, hcol, -, ht⟩ := hjoin.head r hr
    obtain ⟨c, hc, rfl⟩ := mem_map.mp hcol
    exact ⟨c, hc, ht⟩
  · rintro ⟨c, hc, ht⟩
    obtain ⟨r, hr, ht⟩ := hjoin.complete c.column (mem_map_of_mem hc) t ht
    exact ⟨_, mem_map_of_mem hr, ht⟩
  · intro row hrow name x
    obtain ⟨r, hr, rfl⟩ := mem_map.mp hrow
    refine (hjoin.fields r hr name x).trans ?_
    simp [HasCell, ColumnSeries.column, Row.ofJoined]
  · have hstream : (filterSeriesColumnsByExpr expr columns).filter (fun c => !c.points.isEmpty) =
        filterSeriesColumnsByExpr expr columns := by
      rw [filterSeriesColumnsByExpr_eq h hrun, filter_filter]
      simp
    cases expr with
    | none =>
      have hall : ((rowsFromSeriesColumns columns).filter fun row => rowMatchesExpr row .none) =
          rowsFromSeriesColumns columns := filter_eq_self.mpr fun _ _ => rfl
      have hcolumn : ∀ c ∈ columns, matchingSamples .none columns c = c := by
        intro c hc
        rw [← matchingSamples_eq h hrun hc, filteredColumn, hall, filterMap_rowsFromSeriesColumns h.mergeable hrun hc]
      rw [filterSeriesColumnsByExpr_eq h hrun, map_congr_left hcolumn, map_id']
      rfl
    | _ =>
      rw [exprFilteredColumnStream, hruns, flatMap_singleton]
      · exact hstream
      · simp

def sparseColumns : List ColumnSeries :=
  [⟨1, TagMap.empty, 1, [97], some .int64, [(1, .int64 10), (2, .int64 20)]⟩,
    ⟨1, TagMap.empty, 2, [98], some .int64, [(2, .int64 5)]⟩]

theorem assemblyExact_sparse :
    AssemblyExact (.not [.leaf { kind := .field .gt, name := [98], value := .int64 3 }]) sparseColumns :=
  assemblyExact _ ⟨by decide, by decide, by decide⟩

end Mts.Queryexec
