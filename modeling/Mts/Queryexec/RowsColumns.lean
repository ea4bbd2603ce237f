import Mts.Queryexec.ExprRows

/-! Row and column queries with aggregates. The column query filters before it aggregates and does not
project; the row query aggregates unfiltered columns and filters and projects the aggregated rows. -/

namespace Mts.Queryexec
open Lib Model Sstable List

variable {encode : ValueEncoder} {opts : CompressionOptions} {e : QueryEngine encode opts} {q : Query}
  {expr : QueryExpr} {fields : List GoString}

/-- The rows are those of the columns, one for each series and timestamp, or both queries fail alike. -/
inductive Agree : Except QueryError (List Row) → Except QueryError (List ColumnSeries) → Prop
  | ok {rows : List Row} {columns : List ColumnSeries} (mem : ∀ row, row ∈ rows ↔ RowOf columns row)
      (once : rows.Pairwise fun a b => a.seriesID ≠ b.seriesID ∨ a.timestamp ≠ b.timestamp) :
      Agree (.ok rows) (.ok columns)
  | error (e : QueryError) : Agree (.error e) (.error e)

namespace QueryEngine

variable {plan : QueryPlan} {rows : List Row} {raw : List ColumnData}

/-- Filter and projection of the query keep everything, and no window ends past the last timestamp. -/
structure KeepsAggregates (go : GoLib) (e : QueryEngine encode opts) (q : Query) : Prop where
  predicates : q.expr = .none → fieldPredicates q.predicates = []
  leaves : ∀ p ∈ q.expr.leaves, isTagPredicate p.kind = true
  series : ∀ s ∈ e.catalog.series, s.id ∈ plannedSeries e.defaults e.catalog q →
    seriesMatchesTagExpr s.tags q.expr = true
  projection : q.fields ≠ [] → ∀ spec ∈ q.aggregates, ∀ f ∈ e.catalog.fields, f.measurement = q.measurement →
    (spec.field = [] ∨ spec.field = f.name) → aggregateName (go.toLower spec.function) f.name ∈ q.fields
  windows : 0 < q.window → ∀ shard, e.Holds q shard → ∀ v ∈ stored shard.content,
    WindowFits q.window v.sample.timestamp

def aggregated (go : GoLib) (e : QueryEngine encode opts) (plan : QueryPlan) :
    Except QueryError (List ColumnSeries) := do
  let raw ← (e.queryColumnDataStream go plan).mapError .page
  (aggregateColumnStream go plan.query.aggregates plan.query.window
    (raw.map (decorateColumn e.catalog))).mapError .aggregate

theorem queryColumnsFromPlan_columnPlan (go : GoLib) (hempty : plan.empty = false)
    (haggr : plan.query.aggregates ≠ []) :
    e.queryColumnsFromPlan go plan.columnPlan = e.aggregated go plan := by
  have haggr : plan.query.aggregates.isEmpty = false := by simpa using haggr
  unfold queryColumnsFromPlan
  rw [show plan.columnPlan.empty = false from hempty, show plan.columnPlan.query.aggregates.isEmpty = false from haggr]
  rfl

theorem queryColumnsFromPlan_of_filter (go : GoLib) (hempty : plan.empty = false)
    (haggr : plan.query.aggregates ≠ []) (hfilter : ∀ raw, e.queryColumnDataStream go plan = .ok raw →
      exprFilteredColumnStream plan.columnFilter (raw.map (decorateColumn e.catalog)) =
        raw.map (decorateColumn e.catalog)) : e.queryColumnsFromPlan go plan = e.aggregated go plan := by
  have haggr : plan.query.aggregates.isEmpty = false := by simpa using haggr
  unfold queryColumnsFromPlan aggregated
  rw [hempty]
  cases hraw : e.queryColumnDataStream go plan with
  | error err => rfl
  | ok raw =>
    show (if plan.query.aggregates.isEmpty then _ else _) = _
    rw [haggr, hfilter raw hraw]
    rfl

theorem rowMatchesExpr_of_series (hleaves : ∀ p ∈ expr.leaves, isTagPredicate p.kind = true)
    (h : seriesMatchesTagExpr row.tags expr = true) : rowMatchesExpr row expr = true := by
  rw [← h]
  exact BoolExpr.eval_congr fun p hp => rowMatchesExprPredicate_of_tag (hleaves p hp)

theorem filteredRowStream_eq (hpost : expr = .none → postFilters = [])
    (hexpr : ∀ row ∈ rows, rowMatchesExpr row expr = true) :
    filteredRowStream expr postFilters rows = rows := by
  cases expr with
  | none =>
    rw [hpost rfl]
    exact filter_eq_self.mpr fun _ _ => rfl
  | _ => exact filter_eq_self.mpr hexpr

theorem projectedRowStream_eq (h : fields ≠ [] → ∀ row ∈ rows, ∀ name x, row.fields name = some x → name ∈ fields) :
    projectedRowStream fields rows = rows := by
  unfold projectedRowStream
  split
  · rfl
  · next hne =>
    have hproject : ∀ row ∈ rows, projectRow fields row = row := by
      intro row hrow
      have hfields : (fun name => if fields.contains name then row.fields name else none) = row.fields := by
        funext name
        split
        · rfl
        · next hname =>
          cases hx : row.fields name with
          | none => rfl
          | some x => exact absurd (h (by simpa using hne) row hrow name x hx) (by simpa using hname)
      rw [projectRow, hfields]
    rw [map_congr_left hproject, map_id']

theorem columnFilter_eq (h : plan.query.expr = .none → plan.postFilterPredicates = []) :
    plan.columnFilter = plan.query.expr := by
  unfold QueryPlan.columnFilter
  split
  · next hnone => rw [h hnone, hnone, andExprFromPredicates]
  · rfl

theorem plan_of_not_empty (hplan : plan = buildQueryPlan e.defaults e.catalog q) (hempty : plan.empty = false) :
    plan.seriesIDs = plannedSeries e.defaults e.catalog q ∧ plan.seriesIDs ≠ [] ∧ plan.outputFields = q.fields ∧
      plan.postFilterPredicates = fieldPredicates q.predicates ∧ plan.query.expr = q.expr ∧
      plan.query.aggregates = q.aggregates ∧ plan.query.window = q.window ∧
      ∀ shard ∈ e.shards.filter (shardMatches plan.query), e.Holds q shard := by
  obtain ⟨tags, start, stop, hframe⟩ := plannedQuery_frame e.defaults q
  rw [buildQueryPlan_eq] at hplan
  split at hplan
  · rw [hplan] at hempty
    cases hempty
  · next hne =>
    subst hplan
    refine ⟨rfl, by simpa using hne, rfl, rfl, ?_, ?_, ?_, ?_⟩
    · show (plannedQuery e.defaults q).expr = _
      rw [hframe]
      rfl
    · show (plannedQuery e.defaults q).aggregates = _
      rw [hframe]
      rfl
    · show (plannedQuery e.defaults q).window = _
      rw [hframe]
      rfl
    · intro shard hshard
      exact holds_of_shardMatches hshard

structure PlannedColumns (e : QueryEngine encode opts) (q : Query) (columns : List ColumnSeries) : Prop where
  mergeable : MergeableColumns columns
  nonempty : ∀ c ∈ columns, c.points ≠ []
  selected : ∀ c ∈ columns, seriesMatchesTagExpr c.tags q.expr = true
  named : ∀ c ∈ columns, ∃ f ∈ e.catalog.fields, f.measurement = q.measurement ∧ f.name = c.fieldName
  fits : 0 < q.window → ∀ c ∈ columns, ∀ pt ∈ c.points, WindowFits q.window pt.1

theorem RawColumns.points_ne_nil (h : e.RawColumns q ids raw) :
    ∀ d ∈ raw.map (decorateColumn e.catalog), d.points ≠ [] := by
  intro d hd
  obtain ⟨c, hc, rfl⟩ := mem_map.mp hd
  rw [(decorated (h.catalogued c hc)).points]
  simpa using h.nonempty c hc

theorem plannedColumns (homit : opts.omitWriteSeq = false) (hs : e.Sound q)
    (h : e.KeepsAggregates go q) (hempty : (buildQueryPlan e.defaults e.catalog q).empty = false)
    (hraw : e.queryColumnDataStream go (buildQueryPlan e.defaults e.catalog q) = .ok raw) :
    e.PlannedColumns q (raw.map (decorateColumn e.catalog)) := by
  obtain ⟨hids, hne, -, -, -, -, -, hmatch⟩ := plan_of_not_empty rfl hempty
  have hcolumns : e.RawColumns q (buildQueryPlan e.defaults e.catalog q).seriesIDs raw :=
    rawColumns homit hs hne hmatch hraw
  have hmem : ∀ d ∈ raw.map (decorateColumn e.catalog), ∃ c ∈ raw, Decorated e.catalog c d := by
    intro d hd
    obtain ⟨c, hc, rfl⟩ := mem_map.mp hd
    exact ⟨c, hc, decorated (hcolumns.catalogued c hc)⟩
  refine ⟨mergeable_decorated hcolumns.sorted hcolumns.catalogued, hcolumns.points_ne_nil, ?_, ?_, ?_⟩
  · intro d hd
    obtain ⟨c, hc, hdec⟩ := hmem d hd
    obtain ⟨s, hs, hid, htags, -⟩ := hdec.names
    rw [htags]
    exact h.series s hs (by rw [hid, ← hids]; exact hcolumns.planned c hc)
  · intro d hd
    obtain ⟨c, hc, hdec⟩ := hmem d hd
    obtain ⟨s, hs, hid, -, f, hf, -, hm, hname⟩ := hdec.names
    refine ⟨f, hf, ?_, hname.symm⟩
    rw [hm]
    exact measurement_of_mem_plannedSeries (hids ▸ hcolumns.planned c hc) hs hid
  · intro hw d hd pt hpt
    obtain ⟨c, hc, hdec⟩ := hmem d hd
    rw [hdec.points] at hpt
    obtain ⟨x, hx, rfl⟩ := mem_map.mp hpt
    obtain ⟨shard, hshard, v, hv, htime⟩ := hcolumns.times c hc x hx
    rw [← htime]
    exact h.windows hw shard hshard v hv

theorem aggregated_rows_kept (h : e.KeepsAggregates go q)
    (hc : e.PlannedColumns q columns) (hout : aggregateColumnStream go q.aggregates q.window columns = .ok out) :
    MergeableColumns out ∧ projectedRowStream q.fields
      (filteredRowStream q.expr (fieldPredicates q.predicates) (rowMergeStream out)) = rowMergeStream out := by
  obtain ⟨hm, hof⟩ := mergeable_aggregateColumnStream hc.mergeable hc.nonempty hc.fits hout
  refine ⟨hm, ?_⟩
  rw [filteredRowStream_eq h.predicates, projectedRowStream_eq]
  · intro hfields row hrow name x hx
    obtain ⟨d, hd, -, rfl, -⟩ := (((mem_rowMergeStream hm).mp hrow).fields name x).mp hx
    obtain ⟨c, hmem, spec, hspec, hfield, hd⟩ := hof d hd
    obtain ⟨f, hf, hfm, hfn⟩ := hc.named c hmem
    rw [hd.fieldName, ← hfn]
    exact h.projection hfields spec hspec f hf hfm (hfn ▸ hfield)
  · intro row hrow
    obtain ⟨d, hd, -, htags, -⟩ := ((mem_rowMergeStream hm).mp hrow).source
    obtain ⟨c, hmem, spec, -, -, hd⟩ := hof d hd
    refine rowMatchesExpr_of_series h.leaves ?_
    rw [← htags, hd.tags]
    exact hc.selected c hmem

end QueryEngine

section Example

def sumQuery (fields : List GoString) (predicates : List QueryPredicate) (expr : QueryExpr) (window : Int64) : Query :=
  { exprQuery fields predicates expr with
    aggregates := [⟨[97], AggregateFunction.sum.name⟩]
    window := window }

def windowSumQuery : Query :=
  sumQuery [aggregateName AggregateFunction.sum.name [97]] []
    (.leaf { kind := .tagNe, name := [104], stringValues := [[120]] }) 10

theorem keepsAggregates_windowSumQuery : (twoFieldEngine 10 1).KeepsAggregates plainGo windowSumQuery where
  predicates := nofun
  leaves := by decide
  series := by
    intro s hs _
    obtain rfl := mem_singleton.mp hs
    rfl
  projection := by
    intro _ spec hspec f hf _ hfield
    obtain rfl := mem_singleton.mp hspec
    obtain hname : [97] = f.name := hfield.resolve_left (by decide)
    rw [← hname]
    exact mem_singleton_self _
  windows := by
    intro _ shard hshard v hv
    rw [(mem_stored_twoFieldEngine hshard).1] at hv
    have htime : v.sample.timestamp = 5 := by
      simp only [versions_twoColumns, Set.mem_ofPred_eq, mem_cons, not_mem_nil, or_false] at hv
      rcases hv with rfl | rfl <;> rfl
    rw [htime]
    decide

theorem sound_sumQuery : (twoFieldEngine 10 1).Sound (sumQuery fields predicates expr window) := by
  have h : (twoFieldEngine 10 1).Sound (exprQuery fields predicates expr) := sound_twoFieldEngine 10 1
  exact ⟨h.catalogued, h.inRange, h.consistent⟩

end Example

end Mts.Queryexec
