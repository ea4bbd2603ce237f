import Mts.Queryexec.RowsColumns

/-! First and last aggregates, `engine/query_boundary.go` over `sstable/read_page_match.go`. A scan for them
reads the first or the last matching page of each column and part. Tombstones and filters remove samples
afterwards, so the pages that were read need not hold the end of the column that is left. -/

namespace Mts.Queryexec
open Lib Model Sstable List

variable {v : Version} {fn : AggregateFunction} {points : List (Int64 × FieldValue)} {pt : Int64 × FieldValue}
  {spec : AggregateSpec} {scan : StorageQuery} {raw : List ColumnData} {filter : QueryExpr} {c : ColumnData}
  {d : ColumnSeries} {w : Engine.Samples} {go : GoLib} {window : Int64} {specs : List AggregateSpec}
  {u : Version}

variable {encode : ValueEncoder} {opts : CompressionOptions}

def QueryPlan.allPages (go : GoLib) (plan : QueryPlan) : StorageQuery := { plan.scan go with boundary := .none }

namespace QueryEngine
variable (go : GoLib)

/-- `queryColumnsFromPlan` with the scan as a parameter. -/
def columnsOfScan (e : QueryEngine encode opts) (plan : QueryPlan) (scan : StorageQuery) :
    Except QueryError (List ColumnSeries) :=
  if plan.empty then .ok []
  else do
    let raw ← (e.scanShards plan.query scan).mapError .page
    let columns := exprFilteredColumnStream plan.columnFilter (raw.map (decorateColumn e.catalog))
    if plan.query.aggregates.isEmpty then .ok (projectedColumnStream plan.outputFields columns)
    else (aggregateColumnStream go plan.query.aggregates plan.query.window columns).mapError .aggregate

theorem queryColumnsFromPlan_eq (e : QueryEngine encode opts) (plan : QueryPlan) :
    e.queryColumnsFromPlan go plan = e.columnsOfScan go plan (plan.scan go) := rfl

def queryColumnsAllPages (e : QueryEngine encode opts) (query : Query) : Except QueryError (List ColumnSeries) :=
  let plan := buildQueryPlan e.defaults e.catalog query
  e.columnsOfScan go plan (plan.allPages go)

def queryRowsAllPages (e : QueryEngine encode opts) (query : Query) : Except QueryError (List Row) := do
  let plan := buildQueryPlan e.defaults e.catalog query
  let columns ← e.columnsOfScan go plan.columnPlan (plan.columnPlan.allPages go)
  .ok (projectedRowStream plan.outputFields
    (filteredRowStream plan.query.expr plan.postFilterPredicates (rowMergeStream columns)))

structure RowShown (e : QueryEngine encode opts) (shown : Version → Prop) (row : Row) : Prop where
  series : ∃ s ∈ e.catalog.series, s.id = row.seriesID ∧ s.tags = row.tags
  nonempty : ∃ name x, row.fields name = some x
  fields : ∀ name x, row.fields name = some x ↔ ∃ f ∈ e.catalog.fields, f.name = name ∧
    ∃ v, shown v ∧ Versioned.key v = (row.seriesID, f.id, row.timestamp) ∧ v.sample.value = x

/-- A scan shows the version, and the row in which it shows it satisfies the filter. -/
def Survives (e : QueryEngine encode opts) (q : Query) (filter : QueryExpr) (scan : StorageQuery) (v : Version) :
    Prop :=
  e.Shown q scan v ∧ ∃ row, e.RowShown (e.Shown q scan) row ∧ row.seriesID = v.seriesID ∧
    row.timestamp = v.sample.timestamp ∧ rowMatchesExpr row filter = true

end QueryEngine

def AggregateFunction.place (fn : AggregateFunction) (t : Int64) : Int := if fn = .last then -t.toInt else t.toInt

def EndOf (fn : AggregateFunction) (S : Version → Prop) (v : Version) : Prop :=
  S v ∧ ∀ w, S w → w.seriesID = v.seriesID → w.fieldID = v.fieldID →
    fn.place v.sample.timestamp ≤ fn.place w.sample.timestamp

/-- The versions `read` have the end of every column of the field that `all` versions have. -/
structure EndKept (fn : AggregateFunction) (all read : Version → Prop) (fieldID : UInt32) : Prop where
  kept : ∀ v, v.fieldID = fieldID → EndOf fn all v →
    ∃ u, read u ∧ Versioned.key u = Versioned.key v ∧ u.sample.value = v.sample.value
  none_before : ∀ u, u.fieldID = fieldID → read u → ∃ v, all v ∧ v.seriesID = u.seriesID ∧ v.fieldID = fieldID ∧
    fn.place v.sample.timestamp ≤ fn.place u.sample.timestamp

theorem exists_endOf (fn : AggregateFunction) (hfin : {v | S v}.Finite) (hv : S v) :
    ∃ w, EndOf fn S w ∧ w.seriesID = v.seriesID ∧ w.fieldID = v.fieldID ∧
      fn.place w.sample.timestamp ≤ fn.place v.sample.timestamp := by
  let column : Set Version := {w | S w ∧ w.seriesID = v.seriesID ∧ w.fieldID = v.fieldID}
  have hcolumn : column.Finite := hfin.subset fun w hw => hw.1
  obtain ⟨w, hw, hmin⟩ := Set.exists_min_image column (fun w => fn.place w.sample.timestamp) hcolumn ⟨v, hv, rfl, rfl⟩
  refine ⟨w, ⟨hw.1, fun u hu hs hf => hmin u ⟨hu, hs.trans hw.2.1, hf.trans hw.2.2⟩⟩, hw.2.1, hw.2.2, ?_⟩
  exact hmin v ⟨hv, rfl, rfl⟩

theorem AggregateFunction.place_inj (h : fn.place t = fn.place t') : t = t' := by
  unfold place at h
  split at h
  · exact Int64.toInt_inj.mp (Int.neg_inj.mp h)
  · exact Int64.toInt_inj.mp h

def endPoint (fn : AggregateFunction) (points : List (Int64 × FieldValue)) : Option (Int64 × FieldValue) :=
  if fn = .last then points.getLast? else points.head?

theorem endPoint_eq_some_iff (h : points.Pairwise (·.1 < ·.1)) :
    endPoint fn points = some pt ↔ pt ∈ points ∧ ∀ p ∈ points, fn.place pt.1 ≤ fn.place p.1 := by
  have hunique : ∀ {a b : Int64 × FieldValue}, a ∈ points → b ∈ points →
      fn.place a.1 ≤ fn.place b.1 → fn.place b.1 ≤ fn.place a.1 → a = b := by
    intro a b ha hb hab hba
    exact inj_on_of_nodup_map (nodup_times h) ha hb (AggregateFunction.place_inj (Int.le_antisymm hab hba))
  have hend : ∀ {a : Int64 × FieldValue}, endPoint fn points = some a →
      a ∈ points ∧ ∀ p ∈ points, fn.place a.1 ≤ fn.place p.1 := by
    intro a ha
    unfold endPoint at ha
    unfold AggregateFunction.place
    split at ha
    · next hlast =>
      obtain ⟨front, rfl⟩ := getLast?_eq_some_iff.mp ha
      refine ⟨by simp, fun p hp => ?_⟩
      rw [if_pos hlast, if_pos hlast]
      have hle : p.1 ≤ a.1 := by
        rcases mem_append.mp hp with hp | hp
        · exact Int64.le_of_lt ((pairwise_append.mp h).2.2 p hp a (mem_singleton_self a))
        · rw [mem_singleton.mp hp]
          exact Int64.le_refl _
      have := hle.toInt_le
      omega
    · next hlast =>
      obtain ⟨rest, rfl⟩ := head?_eq_some_iff.mp ha
      refine ⟨mem_cons_self, fun p hp => ?_⟩
      rw [if_neg hlast, if_neg hlast]
      rcases mem_cons.mp hp with rfl | hp
      · exact Int.le_refl _
      · exact (Int64.le_of_lt (rel_of_pairwise_cons h hp)).toInt_le
  constructor
  · exact hend
  · rintro ⟨hpt, hmin⟩
    cases hread : endPoint fn points with
    | none =>
      unfold endPoint at hread
      split at hread <;> simp_all
    | some a =>
      obtain ⟨ha, hamin⟩ := hend hread
      rw [hunique ha hpt (hamin pt hpt) (hmin a ha)]

theorem aggregateValues_end (go : GoLib) (hfn : AggregateFunction.parse name = some fn)
    (hends : fn = .first ∨ fn = .last) (hpt : endPoint fn points = some pt) :
    aggregateValues go (points.map Prod.snd) name = .ok pt.2 := by
  obtain ⟨a, rest, rfl⟩ : ∃ a rest, points = a :: rest := by
    refine exists_cons_of_ne_nil fun hnil => ?_
    rw [hnil, endPoint] at hpt
    split at hpt <;> cases hpt
  unfold aggregateValues
  split
  · next first _ last hvalues hlast =>
    rw [hfn]
    rcases hends with rfl | rfl
    · obtain rfl : a = pt := Option.some.inj hpt
      exact congrArg Except.ok (List.cons.inj hvalues).1.symm
    · have hpt : (a :: rest).getLast? = some pt := hpt
      rw [getLast?_map, hpt] at hlast
      exact congrArg Except.ok (Option.some.inj hlast).symm
  · next hnone =>
    exact (hnone a.2 (rest.map Prod.snd) ((a :: rest).getLast (cons_ne_nil _ _)).2 rfl
      (by rw [getLast?_map, getLast?_eq_some_getLast]; rfl)).elim

theorem aggregateColumnBySpec_end {c : ColumnSeries} (hwindow : window ≤ 0)
    (hfn : AggregateFunction.parse (go.toLower spec.function) = some fn) (hends : fn = .first ∨ fn = .last)
    (hpt : endPoint fn c.points = some pt) :
    aggregateColumnBySpec go c spec window = .ok { c with
      fieldName := aggregateName (go.toLower spec.function) c.fieldName
      fieldType := some pt.2.type
      points := [pt] } := by
  have hne : (go.toLower spec.function).isEmpty = false := by
    rw [isEmpty_eq_false_iff]
    intro hnil
    rw [hnil] at hfn
    cases hfn
  have hvalue : aggregateValuesByTime go c.points (go.toLower spec.function) = .ok pt.2 := by
    have hvalues := aggregateValues_end go hfn hends hpt
    rcases hends with rfl | rfl <;> simpa only [aggregateValuesByTime, hfn] using hvalues
  have htime : aggregateTimestamp c (go.toLower spec.function) = pt.1 := by
    rw [aggregateTimestamp, hfn]
    rcases hends with rfl | rfl
    · rw [if_neg (by simp), show c.points.head? = some pt from hpt]
      rfl
    · rw [if_pos rfl, show c.points.getLast? = some pt from hpt]
      rfl
  have htransform : transformAggregate (go.toLower spec.function) = false := by
    rw [transformAggregate, hfn]
    rcases hends with rfl | rfl <;> rfl
  simp only [aggregateColumnBySpec, hne, htransform, if_pos hwindow, Bool.false_eq_true, if_false,
    aggregateWholeColumn, hvalue, htime]
  rfl

def FirstOrLast (go : GoLib) (specs : List AggregateSpec) : Prop :=
  ∀ spec ∈ specs, ∃ fn, AggregateFunction.parse (go.toLower spec.function) = some fn ∧ (fn = .first ∨ fn = .last)

structure EndColumn (go : GoLib) (spec : AggregateSpec) (c d : ColumnSeries) : Prop where
  field : spec.field = [] ∨ spec.field = c.fieldName
  frame : ∃ fn pt, AggregateFunction.parse (go.toLower spec.function) = some fn ∧ endPoint fn c.points = some pt ∧
    d = { c with
      fieldName := aggregateName (go.toLower spec.function) c.fieldName
      fieldType := some pt.2.type
      points := [pt] }

theorem exists_endPoint (fn : AggregateFunction) (h : points ≠ []) : ∃ pt, endPoint fn points = some pt := by
  unfold endPoint
  split
  · exact ⟨_, getLast?_eq_some_getLast h⟩
  · exact ⟨_, head?_eq_some_head h⟩

theorem aggregateColumn_ends (hwindow : window ≤ 0) (hends : FirstOrLast go specs) {c : ColumnSeries}
    (hsorted : c.points.Pairwise (·.1 < ·.1)) (hne : c.points ≠ []) :
    ∃ out, aggregateColumn go specs window c = .ok out ∧
      {d | d ∈ out} = {d | ∃ spec ∈ specs, EndColumn go spec c d} := by
  have hspec : ∀ spec ∈ specs.filter (fun spec => spec.field.isEmpty || spec.field = c.fieldName), ∃ d,
      aggregateColumnBySpec go c spec window = .ok d ∧ ({d} : Set ColumnSeries) = {d | EndColumn go spec c d} := by
    intro spec hspec
    obtain ⟨hmem, hfield⟩ := mem_filter.mp hspec
    obtain ⟨fn, hfn, hend⟩ := hends spec hmem
    obtain ⟨pt, hpt⟩ := exists_endPoint fn hne
    refine ⟨_, aggregateColumnBySpec_end hwindow hfn hend hpt, ?_⟩
    ext d
    constructor
    · rintro rfl
      exact ⟨by simpa using hfield, fn, pt, hfn, hpt, rfl⟩
    · rintro ⟨-, fn', pt', hfn', hpt', rfl⟩
      obtain rfl := Option.some.inj (hfn.symm.trans hfn')
      obtain rfl := Option.some.inj (hpt.symm.trans hpt')
      rfl
  obtain ⟨out, hok, hmem⟩ := mapM_collects (fun d : ColumnSeries => {d}) _ hspec
  refine ⟨out, by rw [aggregateColumn, normalizeAggregateColumn_of_sorted hsorted]; exact hok, ?_⟩
  ext d
  have hd : d ∈ out ↔ ∃ b ∈ out, d ∈ ({b} : Set ColumnSeries) := by simp
  refine hd.trans ((hmem d).trans ⟨?_, ?_⟩)
  · rintro ⟨spec, hspec, hd⟩
    exact ⟨spec, mem_of_mem_filter hspec, hd⟩
  · rintro ⟨spec, hspec, hd⟩
    exact ⟨spec, mem_filter.mpr ⟨hspec, by simpa using hd.field⟩, hd⟩

theorem aggregateColumnStream_ends (go : GoLib) (hwindow : window ≤ 0) (hends : FirstOrLast go specs)
    (columns : List ColumnSeries)
    (hcolumns : ∀ c ∈ columns, c.points.Pairwise (fun a b => a.1 < b.1) ∧ c.points ≠ []) :
    ∃ out, aggregateColumnStream go specs window columns = .ok out ∧
      ∀ d, d ∈ out ↔ ∃ c ∈ columns, ∃ spec ∈ specs, EndColumn go spec c d := by
  obtain ⟨out, hok, hmem⟩ := mapM_collects (fun out : List ColumnSeries => {d | d ∈ out}) _
    fun c hc => aggregateColumn_ends hwindow hends (hcolumns c hc).1 (hcolumns c hc).2
  refine ⟨out.flatten, by rw [aggregateColumnStream, hok]; rfl, fun d => ?_⟩
  rw [mem_flatten]
  exact hmem d

namespace QueryEngine
variable {e : QueryEngine encode opts} {q : Query} {plan : QueryPlan}

structure Returned (go : GoLib) (e : QueryEngine encode opts) (spec : AggregateSpec) (v : Version)
    (d : ColumnSeries) : Prop where
  names : ∃ s ∈ e.catalog.series, s.id = v.seriesID ∧ ∃ f ∈ e.catalog.fields, f.id = v.fieldID ∧
    (spec.field = [] ∨ spec.field = f.name) ∧
    d = ⟨v.seriesID, s.tags, v.fieldID, aggregateName (go.toLower spec.function) f.name,
      some v.sample.value.type, [(v.sample.timestamp, v.sample.value)]⟩

section
variable (hraw : e.RawColumns q scan.seriesIDs raw) (hmem : ∀ v, v ∈ versions raw ↔ e.Shown q scan v)
include hraw hmem

theorem rowShown_iff : RowOf (raw.map (decorateColumn e.catalog)) row ↔ e.RowShown (e.Shown q scan) row := by
  rw [rowOf_decorated hraw.catalogued]
  simp only [hmem]
  exact ⟨fun ⟨hs, hne, hf⟩ => ⟨hs, hne, hf⟩, fun h => ⟨h.series, h.nonempty, h.fields⟩⟩

theorem mem_filtered_iff (hc : c ∈ raw)
    (hd : FilteredColumn filter (raw.map (decorateColumn e.catalog)) (decorateColumn e.catalog c) d) :
    pt ∈ d.points ↔ ∃ v, e.Survives q filter scan v ∧ v.seriesID = c.seriesID ∧ v.fieldID = c.fieldID ∧
      pt = (v.sample.timestamp, v.sample.value) := by
  have hdec := decorated (hraw.catalogued c hc)
  rw [hd.points, hdec.seriesID, hdec.points]
  simp only [rowShown_iff hraw hmem]
  constructor
  · rintro ⟨hpt, row, hrow, hid, htime, hmatch⟩
    obtain ⟨x, hx, rfl⟩ := mem_map.mp hpt
    have hv : (⟨c.seriesID, c.fieldID, x⟩ : Version) ∈ versions raw := mem_versions.mpr ⟨c, hc, by simp [hx]⟩
    exact ⟨⟨c.seriesID, c.fieldID, x⟩, ⟨(hmem _).mp hv, row, hrow, hid, htime, hmatch⟩, rfl, rfl, rfl⟩
  · rintro ⟨v, ⟨hshown, row, hrow, hid, htime, hmatch⟩, hs, hf, rfl⟩
    refine ⟨?_, row, hrow, hid.trans hs, htime, hmatch⟩
    obtain ⟨c', hc', hv⟩ := mem_versions.mp ((hmem v).mpr hshown)
    obtain ⟨hs', hf', hx⟩ := ColumnData.mem_versions.mp hv
    obtain rfl := hraw.sorted.eq_of_key hc' hc (hs'.trans hs) (hf'.trans hf)
    exact mem_map_of_mem hx

theorem exists_filtered (hv : e.Survives q filter scan v) : ∃ c ∈ raw, c.seriesID = v.seriesID ∧ c.fieldID = v.fieldID ∧
      ∃ d ∈ exprFilteredColumnStream filter (raw.map (decorateColumn e.catalog)),
        FilteredColumn filter (raw.map (decorateColumn e.catalog)) (decorateColumn e.catalog c) d := by
  have hm := mergeable_decorated hraw.sorted hraw.catalogued
  obtain ⟨c, hc, hvc⟩ := mem_versions.mp ((hmem v).mpr hv.1)
  obtain ⟨hs, hf, hx⟩ := ColumnData.mem_versions.mp hvc
  have hdec := decorated (hraw.catalogued c hc)
  have hpoint : (v.sample.timestamp, v.sample.value) ∈ (decorateColumn e.catalog c).points := by
    rw [hdec.points]
    exact mem_map_of_mem hx
  obtain ⟨run, hrun, hrunc⟩ := exists_run (mem_map_of_mem hc)
  have hleft : (v.sample.timestamp, v.sample.value) ∈
      (filteredColumn filter run (decorateColumn e.catalog c)).points := by
    obtain ⟨row, hrow, hid, htime, hmatch⟩ := hv.2
    refine (mem_filteredColumn hm hrun hrunc).mpr ⟨hpoint, row, (rowShown_iff hraw hmem).mpr hrow, ?_, htime, hmatch⟩
    rw [hid, hdec.seriesID, hs]
  have hd := filteredColumn_spec hm hrun hrunc (ne_nil_of_mem hleft)
  refine ⟨c, hc, hs, hf, _, ?_, hd⟩
  exact (mem_exprFilteredColumnStream hm hraw.points_ne_nil).mpr ⟨_, mem_map_of_mem hc, hd⟩

theorem endColumn_iff :
    (∃ c ∈ exprFilteredColumnStream filter (raw.map (decorateColumn e.catalog)), EndColumn go spec c d) ↔
      ∃ fn, AggregateFunction.parse (go.toLower spec.function) = some fn ∧
        ∃ v, EndOf fn (e.Survives q filter scan) v ∧ e.Returned go spec v d := by
  have hm := mergeable_decorated hraw.sorted hraw.catalogued
  constructor
  · rintro ⟨left, hleft, hfield, fn, pt, hfn, hpt, rfl⟩
    obtain ⟨c', hc', hfiltered⟩ := (mem_exprFilteredColumnStream hm hraw.points_ne_nil).mp hleft
    obtain ⟨c, hc, rfl⟩ := mem_map.mp hc'
    obtain ⟨hpt, hmin⟩ := (endPoint_eq_some_iff hfiltered.times).mp hpt
    obtain ⟨v, hv, hvs, hvf, rfl⟩ := (mem_filtered_iff hraw hmem hc hfiltered).mp hpt
    obtain ⟨s, hs, hsid, f, hf, hfid, -⟩ := hraw.catalogued c hc
    have hframe := hfiltered.frame
    rw [decorateColumn_eq hs hsid hf hfid] at hframe
    refine ⟨fn, hfn, v, ⟨hv, fun w hw hws hwf => ?_⟩, s, hs, hsid.trans hvs.symm, f, hf, hfid.trans hvf.symm, ?_, ?_⟩
    · exact hmin _ ((mem_filtered_iff hraw hmem hc hfiltered).mpr ⟨w, hw, hws.trans hvs, hwf.trans hvf, rfl⟩)
    · rw [hframe] at hfield
      exact hfield
    · rw [hframe, hvs, hvf]
  · rintro ⟨fn, hfn, v, hend, s, hs, hsid, f, hf, hfid, hfield, rfl⟩
    obtain ⟨c, hc, hcs, hcf, left, hleft, hfiltered⟩ := exists_filtered hraw hmem hend.1
    have hframe := hfiltered.frame
    rw [decorateColumn_eq hs (hsid.trans hcs.symm) hf (hfid.trans hcf.symm)] at hframe
    have hpt : endPoint fn left.points = some (v.sample.timestamp, v.sample.value) := by
      refine (endPoint_eq_some_iff hfiltered.times).mpr ⟨?_, fun p hp => ?_⟩
      · exact (mem_filtered_iff hraw hmem hc hfiltered).mpr ⟨v, hend.1, hcs.symm, hcf.symm, rfl⟩
      · obtain ⟨w, hw, hws, hwf, rfl⟩ := (mem_filtered_iff hraw hmem hc hfiltered).mp hp
        exact hend.2 w hw (hws.trans hcs) (hwf.trans hcf)
    refine ⟨left, hleft, ?_, fn, _, hfn, hpt, ?_⟩
    · rw [hframe]
      exact hfield
    · rw [hframe, hcs, hcf]

end

/-- What a query with first and last aggregates returns for the pages that a scan reads. -/
structure EndsOf (go : GoLib) (e : QueryEngine encode opts) (q : Query) (S : Version → Prop)
    (out : List ColumnSeries) : Prop where
  mem_iff : ∀ d, d ∈ out ↔ ∃ spec ∈ q.aggregates, ∃ fn, AggregateFunction.parse (go.toLower spec.function) = some fn ∧
    ∃ v, EndOf fn S v ∧ e.Returned go spec v d
  finite : {v | S v}.Finite
  catalogued : ∀ v, S v → Catalogued e.catalog v.seriesID v.fieldID
  values : ∀ u v, S u → S v → Versioned.key u = Versioned.key v → u = v

structure PlanOf (e : QueryEngine encode opts) (q : Query) (plan : QueryPlan) : Prop where
  nonempty : plan.empty = false
  series : plan.seriesIDs ≠ []
  aggregates : plan.query.aggregates = q.aggregates
  window : plan.query.window = q.window
  shards : ∀ shard : OpenShard encode opts,
    shardMatches plan.query shard = shardMatches (plannedQuery e.defaults q) shard

theorem planOf_buildQueryPlan (hempty : (buildQueryPlan e.defaults e.catalog q).empty = false) :
    e.PlanOf q (buildQueryPlan e.defaults e.catalog q) := by
  obtain ⟨-, hseries, -, -, -, haggr, hwin, -⟩ := plan_of_not_empty rfl hempty
  refine ⟨hempty, hseries, haggr, hwin, fun shard => ?_⟩
  rw [buildQueryPlan_eq]
  split <;> rfl

theorem PlanOf.columnPlan (h : e.PlanOf q plan) : e.PlanOf q plan.columnPlan :=
  ⟨h.nonempty, h.series, h.aggregates, h.window, h.shards⟩

theorem columnsOfScan_ends (go : GoLib) (homit : opts.omitWriteSeq = false) (hs : e.Sound q)
    (hplan : e.PlanOf q plan) (hwindow : q.window ≤ 0) (hends : FirstOrLast go q.aggregates)
    (hne : q.aggregates ≠ []) (scan : StorageQuery) (hids : scan.seriesIDs = plan.seriesIDs)
    (hc : Consistent (e.readVersions q scan)) :
    ∃ out, e.columnsOfScan go plan scan = .ok out ∧ (plan.columnFilter = .none → MergeableColumns out) ∧
      e.EndsOf go q (e.Survives q plan.columnFilter scan) out := by
  obtain ⟨raw, hok, hraw, hmem⟩ := scanShards_ok homit hs scan (by rw [hids]; exact hplan.series) hc
  have hm := mergeable_decorated hraw.sorted hraw.catalogued
  obtain ⟨out, hout, hends⟩ := aggregateColumnStream_ends go hwindow hends
    (exprFilteredColumnStream plan.columnFilter (raw.map (decorateColumn e.catalog)))
    fun c hc => by
      obtain ⟨_, _, hleft⟩ := (mem_exprFilteredColumnStream hm hraw.points_ne_nil).mp hc
      exact ⟨hleft.times, hleft.nonempty⟩
  refine ⟨out, ?_, ?_, ?_, ?_, ?_, ?_⟩
  · have haggr : plan.query.aggregates.isEmpty = false := by
      rw [hplan.aggregates]
      simpa using hne
    rw [columnsOfScan, hplan.nonempty, scanShards_congr scan hplan.shards, hok]
    show (if plan.query.aggregates.isEmpty then _ else _) = _
    rw [haggr, hplan.aggregates, hplan.window, hout]
    rfl
  · intro hnone
    rw [hnone] at hout
    exact (mergeable_aggregateColumnStream hm hraw.points_ne_nil
      (fun hw => absurd hwindow (Int64.not_le.mpr hw)) hout).1
  · intro d
    rw [hends]
    constructor
    · rintro ⟨c, hc, spec, hspec, hd⟩
      exact ⟨spec, hspec, (endColumn_iff hraw hmem).mp ⟨c, hc, hd⟩⟩
    · rintro ⟨spec, hspec, hd⟩
      obtain ⟨c, hc, hd⟩ := (endColumn_iff hraw hmem).mpr hd
      exact ⟨c, hc, spec, hspec, hd⟩
  · exact (finite_toSet (versions raw)).subset fun v hv => (hmem v).mpr hv.1
  · intro v hv
    obtain ⟨c, hc, hcs, hcf, -⟩ := exists_filtered hraw hmem hv
    have hcat := hraw.catalogued c hc
    rwa [hcs, hcf] at hcat
  · intro u v hu hv hk
    exact inj_on_of_nodup_map hraw.sorted.nodup_keys ((hmem u).mpr hu.1) ((hmem v).mpr hv.1) hk

/-- The pages that the query reads hold the end of every column that it aggregates: the first or last
version that survives among all pages survives with its value among those read, and none stands before it. -/
def BoundarySafe (go : GoLib) (e : QueryEngine encode opts) (q : Query) (plan : QueryPlan) : Prop :=
  plan.empty = false → ∀ spec ∈ q.aggregates, ∀ fn, AggregateFunction.parse (go.toLower spec.function) = some fn →
    ∀ f ∈ e.catalog.fields, (spec.field = [] ∨ spec.field = f.name) →
      EndKept fn (e.Survives q plan.columnFilter (plan.allPages go)) (e.Survives q plan.columnFilter (plan.scan go)) f.id

theorem Returned.eq_of_key (hfn : (AggregateFunction.parse (go.toLower spec.function)).isSome)
    (hfn' : (AggregateFunction.parse (go.toLower spec'.function)).isSome) (h : e.Returned go spec u d)
    (h' : e.Returned go spec' v d) :
    go.toLower spec.function = go.toLower spec'.function ∧ Versioned.key u = Versioned.key v ∧
      u.sample.value = v.sample.value := by
  obtain ⟨s, -, -, f, -, -, -, rfl⟩ := h
  obtain ⟨s', -, -, f', -, -, -, heq⟩ := h'
  obtain ⟨hseries, -, hfield, hname, -, hpoints⟩ := ColumnSeries.mk.inj heq
  obtain ⟨htime, hvalue⟩ := Prod.mk.inj (List.cons.inj hpoints).1
  refine ⟨(aggregateName_inj hfn hfn' hname).1, ?_, hvalue⟩
  simp [hseries, hfield, htime]

theorem Returned.congr (h : e.Returned go spec u d) (hkey : Versioned.key u = Versioned.key v)
    (hvalue : u.sample.value = v.sample.value) : e.Returned go spec v d := by
  obtain ⟨hs, hf, ht⟩ := Version.key_inj.mp hkey
  have hnames := h.names
  rw [hs, hf, ht, hvalue] at hnames
  exact ⟨hnames⟩

/-- Equal ends of two sets of versions give equal results, and conversely. -/
theorem mem_iff_endKept {all read : Version → Prop}
    (hall : e.EndsOf go q all outAll) (hread : e.EndsOf go q read outRead) :
    (∀ d, d ∈ outRead ↔ d ∈ outAll) ↔ ∀ spec ∈ q.aggregates, ∀ fn,
      AggregateFunction.parse (go.toLower spec.function) = some fn → ∀ f ∈ e.catalog.fields,
        (spec.field = [] ∨ spec.field = f.name) → EndKept fn all read f.id := by
  -- an end of one side that the other side returns is an end there
  have hreturned : ∀ {S T : Version → Prop} {outS outT : List ColumnSeries}, e.EndsOf go q S outS →
      e.EndsOf go q T outT → (∀ d, d ∈ outS → d ∈ outT) → ∀ spec ∈ q.aggregates, ∀ fn,
      AggregateFunction.parse (go.toLower spec.function) = some fn → ∀ f ∈ e.catalog.fields,
      (spec.field = [] ∨ spec.field = f.name) → ∀ v, v.fieldID = f.id → EndOf fn S v →
        ∃ u, T u ∧ Versioned.key u = Versioned.key v ∧ u.sample.value = v.sample.value := by
    intro S T outS outT hS hT hsub spec hspec fn hfn f hf hfield v hvf hend
    obtain ⟨s, hs, hsid, -⟩ := hS.catalogued v hend.1
    have hret : e.Returned go spec v _ := ⟨s, hs, hsid, f, hf, hvf.symm, hfield, rfl⟩
    obtain ⟨spec', -, fn', hfn', u, hendu, hret'⟩ :=
      (hT.mem_iff _).mp (hsub _ ((hS.mem_iff _).mpr ⟨spec, hspec, fn, hfn, v, hend, hret⟩))
    obtain ⟨-, hkey, hvalue⟩ := hret'.eq_of_key (by rw [hfn']; rfl) (by rw [hfn]; rfl) hret
    exact ⟨u, hendu.1, hkey, hvalue⟩
  constructor
  · intro heq spec hspec fn hfn f hf hfield
    refine ⟨fun v hvf hend => ?_, fun u huf hu => ?_⟩
    · exact hreturned hall hread (fun d => (heq d).mpr) spec hspec fn hfn f hf hfield v hvf hend
    · obtain ⟨w, hend, hws, hwf, hle⟩ := exists_endOf fn hread.finite hu
      obtain ⟨v, hv, hkey, -⟩ := hreturned hread hall (fun d => (heq d).mp) spec hspec fn hfn f hf hfield w
        (hwf.trans huf) hend
      obtain ⟨hvs, hvf, hvt⟩ := Version.key_inj.mp hkey
      exact ⟨v, hv, hvs.trans hws, hvf.trans (hwf.trans huf), by rw [hvt]; exact hle⟩
  · intro hkept d
    rw [hread.mem_iff, hall.mem_iff]
    refine exists_congr fun spec => and_congr_right fun hspec => exists_congr fun fn => and_congr_right fun hfn => ?_
    constructor
    · rintro ⟨u, hendu, hret⟩
      obtain ⟨s, -, -, f, hf, hfid, hfield, -⟩ := hret.names
      have hk := hkept spec hspec fn hfn f hf hfield
      obtain ⟨v', hv', hvs', hvf', hle'⟩ := hk.none_before u hfid.symm hendu.1
      obtain ⟨v, hendv, hvs, hvf, hle⟩ := exists_endOf fn hall.finite hv'
      obtain ⟨u', hu', hkey, hvalue⟩ := hk.kept v (hvf.trans hvf') hendv
      obtain ⟨hus, huf, hut⟩ := Version.key_inj.mp hkey
      -- `u` and `u'` are ends of one column
      have hle'' := hendu.2 u' hu' (hus.trans (hvs.trans hvs')) (huf.trans (hvf.trans (hvf'.trans hfid)))
      rw [hut] at hle''
      have htime : u'.sample.timestamp = u.sample.timestamp := by
        rw [hut]
        exact AggregateFunction.place_inj (Int.le_antisymm (hle.trans hle') hle'')
      have hsame : u' = u := by
        refine hread.values u' u hu' hendu.1 ?_
        simp [hus, hvs, hvs', huf, hvf, hvf', hfid, htime]
      subst hsame
      exact ⟨v, hendv, hret.congr hkey hvalue⟩
    · rintro ⟨v, hendv, hret⟩
      obtain ⟨s, -, -, f, hf, hfid, hfield, -⟩ := hret.names
      have hk := hkept spec hspec fn hfn f hf hfield
      obtain ⟨u, hu, hkey, hvalue⟩ := hk.kept v hfid.symm hendv
      obtain ⟨hus, huf, hut⟩ := Version.key_inj.mp hkey
      refine ⟨u, ⟨hu, fun w hw hws hwf => ?_⟩, hret.congr hkey.symm hvalue.symm⟩
      obtain ⟨v', hv', hvs', hvf', hle⟩ := hk.none_before w (hwf.trans (huf.trans hfid.symm)) hw
      rw [hut]
      exact (hendv.2 v' hv' (hvs'.trans (hws.trans hus)) (hvf'.trans hfid)).trans hle

theorem windowsRead_allPages_subset {q : StorageQuery} (h : w ∈ windowsRead opts q c) :
    w ∈ windowsRead opts { q with boundary := .none } c :=
  (mem_windowsRead_of_none rfl).mpr ⟨(mem_windowsRead h).1, (mem_windowsRead h).2⟩

theorem readVersions_subset (e : QueryEngine encode opts) (q : Query) (scan : StorageQuery) :
    e.readVersions q scan ⊆ e.readVersions q { scan with boundary := .none } := by
  rintro v ⟨shard, hshard, hv | ⟨p, hp, hid, r, hfirst, hs, c, hc, hwant, hf, w, hw, hsample⟩⟩
  · exact ⟨shard, hshard, .inl hv⟩
  · exact ⟨shard, hshard, .inr ⟨p, hp, hid, r, hfirst, hs, c, hc, hwant, hf, w,
      windowsRead_allPages_subset hw, hsample⟩⟩

theorem columnsOfScan_boundary_iff (go : GoLib) (homit : opts.omitWriteSeq = false) (hs : e.Sound q)
    (plan : QueryPlan) (hplan : plan.empty = false → e.PlanOf q plan)
    (hc : Consistent (e.readVersions q (plan.allPages go))) (hwindow : q.window ≤ 0)
    (hends : FirstOrLast go q.aggregates) (hne : q.aggregates ≠ []) :
    ∃ columns all, e.columnsOfScan go plan (plan.scan go) = .ok columns ∧
      e.columnsOfScan go plan (plan.allPages go) = .ok all ∧
      (plan.columnFilter = .none → MergeableColumns columns ∧ MergeableColumns all) ∧
      ((∀ c, c ∈ columns ↔ c ∈ all) ↔ e.BoundarySafe go q plan) := by
  cases hempty : plan.empty with
  | true =>
    have hnone : MergeableColumns [] := ⟨.nil, nofun, nofun, nofun⟩
    have hread : ∀ scan, e.columnsOfScan go plan scan = .ok [] := by
      intro scan
      rw [columnsOfScan, hempty]
      rfl
    exact ⟨[], [], hread _, hread _, fun _ => ⟨hnone, hnone⟩, fun _ hfull => absurd (hempty.symm.trans hfull) (by decide),
      fun _ _ => Iff.rfl⟩
  | false =>
    obtain ⟨all, hall, hallm, hallEnds⟩ := columnsOfScan_ends go homit hs (hplan hempty) hwindow hends hne
      (plan.allPages go) rfl hc
    obtain ⟨columns, hcolumns, hcolumnsm, hcolumnEnds⟩ := columnsOfScan_ends go homit hs (hplan hempty)
      hwindow hends hne (plan.scan go) rfl (hc.mono (e.readVersions_subset q _))
    refine ⟨columns, all, hcolumns, hall, fun hnone => ⟨hcolumnsm hnone, hallm hnone⟩, (mem_iff_endKept hallEnds hcolumnEnds).trans ?_⟩
    exact ⟨fun h _ => h, fun h => h hempty⟩

theorem mem_filteredRowStream_congr (expr : QueryExpr) (filters : List QueryPredicate)
    (h : ∀ row, row ∈ rows ↔ row ∈ rows') (row : Row) :
    row ∈ filteredRowStream expr filters rows ↔ row ∈ filteredRowStream expr filters rows' := by
  cases expr <;> simp only [filteredRowStream, mem_filter, h]

end QueryEngine

/-- The pages that a mode selects hold the sample that the aggregate takes. -/
def AggregateFunction.ReadBy (fn : AggregateFunction) : QueryBoundaryMode → Prop
  | .none | .both => True
  | .first => fn = .first
  | .last => fn = .last

theorem readBy_foldl {modes : List QueryBoundaryMode} (hmodes : ∀ m ∈ modes, m = .first ∨ m = .last)
    (acc : QueryBoundaryMode) (h : (acc ≠ .none ∧ fn.ReadBy acc) ∨ ∃ m ∈ modes, fn.ReadBy m) :
    fn.ReadBy (modes.foldl mergeBoundaryMode acc) := by
  induction modes generalizing acc with
  | nil =>
    rcases h with h | ⟨m, hm, -⟩
    · exact h.2
    · cases hm
  | cons m modes ih =>
    obtain ⟨hm, hmodes⟩ := forall_mem_cons.mp hmodes
    refine ih hmodes _ ?_
    rcases h with ⟨hacc, hfn⟩ | ⟨m', hm', hfn⟩
    · left
      cases acc <;> rcases hm with rfl | rfl <;> simp_all [mergeBoundaryMode, AggregateFunction.ReadBy]
    · rcases mem_cons.mp hm' with rfl | hm'
      · left
        cases acc <;> rcases hm with rfl | rfl <;> simp_all [mergeBoundaryMode, AggregateFunction.ReadBy]
      · exact .inr ⟨m', hm', hfn⟩

theorem readBy_queryBoundaryMode {query : Query} (hends : FirstOrLast go query.aggregates)
    (hspec : spec ∈ query.aggregates) (hfn : AggregateFunction.parse (go.toLower spec.function) = some fn) :
    fn.ReadBy (queryBoundaryMode go query) := by
  unfold queryBoundaryMode
  split
  · trivial
  dsimp only
  split
  · trivial
  refine readBy_foldl (fun m hm => ?_) _ (.inr ?_)
  · obtain ⟨m', hm', rfl⟩ := mem_filterMap.mp hm
    obtain ⟨spec', hspec', heq⟩ := mem_map.mp hm'
    obtain ⟨fn', hfn', hend⟩ := hends spec' hspec'
    rw [hfn'] at heq
    rcases hend with rfl | rfl
    · exact .inl (Option.some.inj heq).symm
    · exact .inr (Option.some.inj heq).symm
  · obtain ⟨fn', hfn', hend⟩ := hends spec hspec
    obtain rfl := Option.some.inj (hfn.symm.trans hfn')
    rcases hend with rfl | rfl
    · exact ⟨.first, mem_filterMap.mpr ⟨some .first, mem_map.mpr ⟨spec, hspec, by rw [hfn]⟩, rfl⟩, rfl⟩
    · exact ⟨.last, mem_filterMap.mpr ⟨some .last, mem_map.mpr ⟨spec, hspec, by rw [hfn]⟩, rfl⟩, rfl⟩

theorem mem_selectBoundaryPageRefs {α : Type} (hfn : fn = .first ∨ fn = .last)
    (hmode : fn.ReadBy mode) {pre post : List α} {w : α} (h : if fn = .last then post = [] else pre = []) :
    w ∈ selectBoundaryPageRefs (pre ++ w :: post) mode := by
  have hhead : pre = [] → w ∈ (pre ++ w :: post).take 1 := by
    rintro rfl
    simp
  have hlast : post = [] → w ∈ (pre ++ w :: post).drop ((pre ++ w :: post).length - 1) := by
    rintro rfl
    simp
  cases mode with
  | none => simp [selectBoundaryPageRefs]
  | first =>
    obtain rfl : fn = .first := hmode
    exact hhead h
  | last =>
    obtain rfl : fn = .last := hmode
    exact hlast h
  | both =>
    rw [selectBoundaryPageRefs]
    split
    · simp
    · rcases hfn with rfl | rfl
      · exact mem_append_left _ (hhead h)
      · exact mem_append_right _ (hlast h)

theorem pairwise_pageWindows (opts : CompressionOptions) (hc : Writable c) : (pageWindows opts c).Pairwise fun a b =>
    ∀ x ∈ a, ∀ y ∈ b, x.timestamp < y.timestamp := by
  refine pairwise_map.mpr (pairwise_lt_range.imp fun {i j} hij x hx y hy => ?_)
  obtain ⟨a, ha⟩ := getElem?_of_mem hx
  obtain ⟨b, hb⟩ := getElem?_of_mem hy
  simp only [getElem?_take, getElem?_drop] at ha hb
  split at ha
  · next halt =>
    split at hb
    · obtain ⟨hi, rfl⟩ := List.getElem?_eq_some_iff.mp ha
      obtain ⟨hj, rfl⟩ := List.getElem?_eq_some_iff.mp hb
      refine pairwise_iff_getElem.mp hc.sorted _ _ hi hj ?_
      have := Nat.mul_le_mul_right (resolveValuePageSamples opts.valuePageSamples) (Nat.succ_le_of_lt hij)
      rw [Nat.succ_mul] at this
      omega
    · cases hb
  · cases ha

theorem exists_of_windowMatches (hw : w ∈ pageWindows opts c) (h : windowMatches c.fieldID c.fieldType q w = true) :
    (∃ x ∈ w, q.start ≤ x.timestamp) ∧ ∃ x ∈ w, x.timestamp ≤ q.stop := by
  have hne := ne_nil_of_mem_windows (resolveValuePageSamples_pos _) hw
  rw [windowMatches, valuePageMatchesQuery, Bool.and_eq_true, Bool.not_eq_true', Bool.or_eq_false_iff,
    decide_eq_false_iff_not, decide_eq_false_iff_not, getLastD_eq_getLast?, getLast?_map,
    getLast?_eq_some_getLast hne, headD_eq_head?_getD, head?_map, head?_eq_some_head hne] at h
  exact ⟨⟨_, getLast_mem hne, Int64.not_lt.mp h.1.1⟩, _, head_mem hne, Int64.not_lt.mp h.1.2⟩

theorem mem_windowsRead_of_end (hfn : fn = .first ∨ fn = .last) (hmode : fn.ReadBy q.boundary)
    (hc : Writable c) (hw : w ∈ (pageWindows opts c).filter (windowMatches c.fieldID c.fieldType q))
    {x : VersionedSample} (hx : x ∈ w) (hin : q.inWindow x.timestamp = true)
    (hmin : ∀ y ∈ c.samples, q.inWindow y.timestamp = true → fn.place x.timestamp ≤ fn.place y.timestamp) :
    w ∈ windowsRead opts q c := by
  obtain ⟨pre, post, hsplit⟩ := append_of_mem hw
  have hsorted := (pairwise_pageWindows opts hc).filter (windowMatches c.fieldID c.fieldType q)
  rw [hsplit] at hsorted
  obtain ⟨-, hwpost, hpre⟩ := pairwise_append.mp hsorted
  have hmem : ∀ u ∈ pre ++ w :: post, u ∈ pageWindows opts c ∧
      (∃ y ∈ u, q.start ≤ y.timestamp) ∧ ∃ y ∈ u, y.timestamp ≤ q.stop := by
    intro u hu
    rw [← hsplit] at hu
    obtain ⟨hpage, hmatch⟩ := mem_filter.mp hu
    exact ⟨hpage, exists_of_windowMatches hpage hmatch⟩
  obtain ⟨hstart, hstop⟩ := ColumnQuery.inWindow_iff.mp hin
  rw [windowsRead, hsplit]
  refine mem_selectBoundaryPageRefs hfn hmode ?_
  rcases hfn with rfl | rfl
  · -- a page before `w` ends in the window
    rw [if_neg (by decide), eq_nil_iff_forall_not_mem]
    intro u hu
    obtain ⟨hpage, ⟨y, hy, hlast⟩, -⟩ := hmem u (mem_append_left _ hu)
    have hlt := hpre u hu w mem_cons_self y hy x hx
    have hle := hmin y ((sublist_of_mem_windows hpage).subset hy)
      (ColumnQuery.inWindow_iff.mpr ⟨hlast, Int64.le_trans (Int64.le_of_lt hlt) hstop⟩)
    have := hlt.toInt_lt
    simp [AggregateFunction.place] at hle
    omega
  · rw [if_pos rfl, eq_nil_iff_forall_not_mem]
    intro u hu
    obtain ⟨hpage, -, y, hy, hhead⟩ := hmem u (mem_append_right _ (mem_cons_of_mem _ hu))
    have hlt := (pairwise_cons.mp hwpost).1 u hu x hx y hy
    have hle := hmin y ((sublist_of_mem_windows hpage).subset hy)
      (ColumnQuery.inWindow_iff.mpr ⟨Int64.le_trans hstart (Int64.le_of_lt hlt), hhead⟩)
    have := hlt.toInt_lt
    simp [AggregateFunction.place] at hle
    omega

namespace QueryEngine
variable {e : QueryEngine encode opts} {q : Query}

structure Unobstructed (e : QueryEngine encode opts) (q : Query) : Prop where
  expr : q.expr = .none
  predicates : fieldPredicates q.predicates = []
  undeleted : ∀ shard, e.Holds q shard → ∀ v ∈ stored shard.content,
    (e.plannedScan q).wants v.seriesID v.fieldID = true → (e.plannedScan q).inWindow v.sample.timestamp = true →
      ¬ Engine.Covered shard.content.tombstones v

/-- A scan of the plan's columns and times that prunes nothing but by the boundary. -/
structure PlainScan (e : QueryEngine encode opts) (q : Query) (scan : StorageQuery) : Prop where
  columns : scan.toColumnQuery = e.plannedScan q
  unfiltered : ∀ id, scan.fieldPredicates id = []

theorem mem_stored_of_plainScan (hread : e.Readable q) (hscan : e.PlainScan q scan)
    (hshard : e.Holds q shard) (hv : v ∈ shard.content.sourceVersions scan) : v ∈ stored shard.content := by
  rcases hv with hv | ⟨p, hp, hid, r, hfirst, hs, c, hc, hwant, hf, w, hw, hsample⟩
  · exact .inl hv
  · obtain ⟨hw, hmatch⟩ := mem_windowsRead hw
    rw [hscan.columns] at hid hwant hsample
    refine .inr ⟨p, hp, ((hread shard hshard p hp).asked p.valid hfirst.mem hid ?_).1⟩
    refine ⟨hs, c, hc, hwant, hf, w, (mem_windowsRead_of_none rfl).mpr ⟨hw, ?_⟩, hsample⟩
    rw [windowMatches, valuePageMatchesQuery, hscan.columns, Bool.and_eq_true] at hmatch
    rw [windowMatches, valuePageMatchesQuery, Bool.and_eq_true]
    exact ⟨hmatch.1, rfl⟩

section
variable (homit : opts.omitWriteSeq = false)
include homit

theorem finite_sourceVersions {s : Engine.ShardContent encode opts}
    (hids : scan.seriesIDs ≠ []) : (s.sourceVersions scan).Finite := by
  have hparts : {v | ∃ p ∈ s.parts, p.Reads scan v} ⊆ ⋃ p ∈ {p | p ∈ s.parts}, {v | p.Reads scan v} := by
    rintro v ⟨p, hp, hv⟩
    exact Set.mem_biUnion hp hv
  refine (finite_toSet s.mem.versions).union (Set.Finite.subset ?_ hparts)
  refine (finite_toSet s.parts).biUnion fun p _ => ?_
  obtain ⟨out, -, -, hmem⟩ := p.scanColumns_ok homit hids
  exact (finite_toSet (versions out)).subset fun v hv => (hmem v).mpr hv

theorem finite_readVersions (scan : StorageQuery) (hids : scan.seriesIDs ≠ []) : (e.readVersions q scan).Finite := by
  have hshards : e.readVersions q scan ⊆
      ⋃ shard ∈ {shard | shard ∈ e.shards.filter (shardMatches (plannedQuery e.defaults q))},
        shard.content.sourceVersions scan := by
    rintro v ⟨shard, hshard, hv⟩
    exact Set.mem_biUnion hshard hv
  exact ((finite_toSet _).biUnion fun shard _ => finite_sourceVersions homit hids).subset hshards

theorem shown_plainScan_iff (hread : e.Readable q) (h : e.Unobstructed q)
    (hscan : e.PlainScan q scan) (hids : scan.seriesIDs ≠ []) :
    e.Shown q scan v ↔ ((e.plannedScan q).wants v.seriesID v.fieldID = true ∧
      (e.plannedScan q).inWindow v.sample.timestamp = true) ∧ IsLatest (e.readVersions q scan) v := by
  have hshown : ∀ {shard : OpenShard encode opts},
      shard ∈ e.shards.filter (shardMatches (plannedQuery e.defaults q)) → ∀ {u : Version},
      (e.plannedScan q).wants u.seriesID u.fieldID = true → (e.plannedScan q).inWindow u.sample.timestamp = true →
        IsLatest (shard.content.sourceVersions scan) u → shard.content.Shown scan u := by
    intro shard hshard u hwants hin hu
    have hholds := holds_of_shardMatches hshard
    rw [Engine.ShardContent.Shown, hscan.columns]
    exact ⟨hwants, hin, hu, h.undeleted shard hholds u (mem_stored_of_plainScan hread hscan hholds hu.1) hwants hin⟩
  constructor
  · rintro ⟨⟨shard, hshard, hv⟩, hmax⟩
    have hasked := hv
    rw [Engine.ShardContent.Shown, hscan.columns] at hasked
    obtain ⟨hwants, hin, -⟩ := hasked
    refine ⟨⟨hwants, hin⟩, ⟨shard, hshard, hv.2.2.1.1⟩, ?_⟩
    rintro f ⟨shard', hshard', hf⟩ hk
    obtain ⟨m, hm, hkm, hle⟩ := exists_isLatest (finite_sourceVersions homit hids) hf
    have hkey := Version.key_inj.mp (hkm.trans hk)
    have hm' := hshown hshard' (by rw [hkey.1, hkey.2.1]; exact hwants) (by rw [hkey.2.2]; exact hin) hm
    exact hle.trans (hmax m ⟨shard', hshard', hm'⟩ (hkm.trans hk))
  · rintro ⟨⟨hwants, hin⟩, ⟨shard, hshard, hv⟩, hmax⟩
    refine ⟨⟨shard, hshard, hshown hshard hwants hin ⟨hv, fun f hf => hmax f ⟨shard, hshard, hf⟩⟩⟩, ?_⟩
    rintro f ⟨shard', hshard', hf⟩ hk
    exact hmax f ⟨shard', hshard', hf.2.2.1.1⟩ hk

theorem survives_none_iff (hs : e.Sound q) (hids : scan.seriesIDs ≠ []) (hc : Consistent (e.readVersions q scan)) : e.Survives q .none scan v ↔ e.Shown q scan v := by
  refine ⟨And.left, fun hv => ⟨hv, ?_⟩⟩
  obtain ⟨raw, -, hraw, hmem⟩ := scanShards_ok homit hs scan hids hc
  obtain ⟨c, hcol, hvc⟩ := mem_versions.mp ((hmem v).mpr hv)
  obtain ⟨hvs, -, hx⟩ := ColumnData.mem_versions.mp hvc
  have hdec := decorated (hraw.catalogued c hcol)
  obtain ⟨run, hrun, hrunc⟩ := exists_run (mem_map_of_mem hcol)
  have hpoint : (v.sample.timestamp, v.sample.value) ∈ (decorateColumn e.catalog c).points := by
    rw [hdec.points]
    exact mem_map_of_mem hx
  obtain ⟨row, -, hof, hid, htime, -⟩ :=
    exists_row_of_point (mergeable_decorated hraw.sorted hraw.catalogued) hrun hrunc hpoint
  exact ⟨row, (rowShown_iff hraw hmem).mp hof, hid.trans (hdec.seriesID.trans hvs), htime, rfl⟩

theorem survives_plainScan_iff (hs : e.Sound q) (hread : e.Readable q) (h : e.Unobstructed q) (hscan : e.PlainScan q scan) (hids : scan.seriesIDs ≠ []) :
    e.Survives q .none scan v ↔ ((e.plannedScan q).wants v.seriesID v.fieldID = true ∧
      (e.plannedScan q).inWindow v.sample.timestamp = true) ∧ IsLatest (e.readVersions q scan) v := by
  refine (survives_none_iff homit hs hids (hs.consistent.mono ?_)).trans (shown_plainScan_iff homit hread h hscan hids)
  rintro u ⟨shard, hshard, hu⟩
  have hholds := holds_of_shardMatches hshard
  exact ⟨shard, hholds, mem_stored_of_plainScan hread hscan hholds hu⟩

end

theorem PlainScan.allPages (h : e.PlainScan q scan) :
    { scan with boundary := .none } = scanQuery (e.plannedScan q) := by
  rw [scanQuery, ← h.columns, show scan.fieldPredicates = fun _ => [] from funext h.unfiltered]

theorem reads_boundary (hfn : fn = .first ∨ fn = .last) {p : Engine.WrittenPart encode opts}
    (hmode : fn.ReadBy scan.boundary) (hv : p.Reads { scan with boundary := .none } v)
    (hmin : ∀ u ∈ versions p.calls.flatten, u.seriesID = v.seriesID → u.fieldID = v.fieldID →
      scan.inWindow u.sample.timestamp = true → fn.place v.sample.timestamp ≤ fn.place u.sample.timestamp) :
    p.Reads scan v := by
  obtain ⟨hid, r, hfirst, hs, c, hc, hwant, hf, w, hw, hsample⟩ := hv
  obtain ⟨columns, hcol, hrow⟩ := mem_filterMap.mp hfirst.mem
  have hcall := (mem_columns_callRow hrow).mp hc
  obtain ⟨hpage, hmatch⟩ := mem_windowsRead hw
  obtain ⟨-, i, x, hx, hin, hback⟩ := mem_pageSamples.mp hsample
  have htime : v.sample.timestamp = x.timestamp := by rw [hback, readBack_timestamp]
  refine ⟨hid, r, hfirst, hs, c, hc, hwant, hf, w, ?_, hsample⟩
  refine mem_windowsRead_of_end hfn hmode (p.valid.writable columns hcol c hcall)
    (mem_filter.mpr ⟨hpage, hmatch⟩) (mem_of_getElem? hx) hin fun y hy hyin => ?_
  rw [← htime]
  refine hmin ⟨r.seriesID, c.fieldID, y⟩ ?_ hs.symm hf hyin
  exact mem_versions_calls.mpr ⟨columns, hcol, c, hcall, p.valid.series_callRow hcol hrow hcall, rfl, hy⟩

theorem plainScan_of_unobstructed (go : GoLib) (h : e.Unobstructed q)
    (hempty : (buildQueryPlan e.defaults e.catalog q).empty = false) :
    e.PlainScan q ((buildQueryPlan e.defaults e.catalog q).scan go) ∧
      (buildQueryPlan e.defaults e.catalog q).columnFilter = .none := by
  obtain ⟨-, -, -, hpost, hexpr, -⟩ := plan_of_not_empty rfl hempty
  constructor
  · rw [buildQueryPlan_eq] at hempty ⊢
    split at hempty
    · cases hempty
    · next hne =>
      rw [if_neg hne]
      refine ⟨rfl, fun id => ?_⟩
      show fieldPredicatesByID e.catalog q.measurement (storageFieldPredicates q (fieldPredicates q.predicates)) id = []
      rw [h.predicates, storageFieldPredicates, ite_self]
      rfl
  · rw [columnFilter_eq (fun _ => by rw [hpost, h.predicates]), hexpr, h.expr]

/-- Boundary pages are enough where no filter and no tombstone removes samples. -/
theorem boundarySafe_of_unobstructed (go : GoLib) (homit : opts.omitWriteSeq = false) (hs : e.Sound q)
    (hread : e.Readable q) (h : e.Unobstructed q) (hends : FirstOrLast go q.aggregates) :
    e.BoundarySafe go q (buildQueryPlan e.defaults e.catalog q) := by
  intro hempty spec hspec fn hfn f _ _
  obtain ⟨hplain, hfilter⟩ := plainScan_of_unobstructed go h hempty
  obtain ⟨-, hids, -, -, -, haggr, -⟩ := plan_of_not_empty rfl hempty
  have hend : fn = .first ∨ fn = .last := by
    obtain ⟨fn', hfn', hend⟩ := hends spec hspec
    rwa [Option.some.inj (hfn.symm.trans hfn')]
  have hmode : fn.ReadBy ((buildQueryPlan e.defaults e.catalog q).scan go).boundary :=
    readBy_queryBoundaryMode (by rw [haggr]; exact hends) (by rw [haggr]; exact hspec) hfn
  generalize hscan : (buildQueryPlan e.defaults e.catalog q).scan go = scan at hplain hmode
  have hids : scan.seriesIDs ≠ [] := by
    rw [← hscan]
    exact hids
  have hall : (buildQueryPlan e.defaults e.catalog q).allPages go = scanQuery (e.plannedScan q) := by
    rw [← hplain.allPages, QueryPlan.allPages, hscan]
  have hplainAll : e.PlainScan q (scanQuery (e.plannedScan q)) := ⟨rfl, fun _ => rfl⟩
  have hidsAll : (e.plannedScan q).seriesIDs ≠ [] := hplain.columns ▸ hids
  have hsubset : e.readVersions q scan ⊆ e.readVersions q (scanQuery (e.plannedScan q)) := by
    rw [← hplain.allPages]
    exact e.readVersions_subset q scan
  -- every version that is read has a newest one of its key
  have hnewest : ∀ {u : Version}, u ∈ e.readVersions q (scanQuery (e.plannedScan q)) →
      (e.plannedScan q).wants u.seriesID u.fieldID = true → (e.plannedScan q).inWindow u.sample.timestamp = true →
      ∃ m, e.Survives q .none (scanQuery (e.plannedScan q)) m ∧ m.seriesID = u.seriesID ∧ m.fieldID = u.fieldID ∧
        m.sample.timestamp = u.sample.timestamp := by
    intro u hu hwants hin
    obtain ⟨m, hm, hk, -⟩ := exists_isLatest (finite_readVersions homit (scanQuery (e.plannedScan q)) hidsAll) hu
    have hkey := Version.key_inj.mp hk
    refine ⟨m, (survives_plainScan_iff homit hs hread h hplainAll hidsAll).mpr ⟨?_, hm⟩, hkey⟩
    rw [hkey.1, hkey.2.1, hkey.2.2]
    exact ⟨hwants, hin⟩
  rw [hfilter, hall]
  refine ⟨fun v _ hv => ⟨v, ?_, rfl, rfl⟩, fun u huf hu => ?_⟩
  · obtain ⟨⟨hwants, hin⟩, hlatest⟩ := (survives_plainScan_iff homit hs hread h hplainAll hidsAll).mp hv.1
    refine (survives_plainScan_iff homit hs hread h hplain hids).mpr ⟨⟨hwants, hin⟩, hlatest.of_subset ?_ hsubset⟩
    obtain ⟨shard, hshard, hmem | ⟨p, hp, hreads⟩⟩ := hlatest.1
    · exact ⟨shard, hshard, .inl hmem⟩
    · rw [← hplain.allPages] at hreads
      refine ⟨shard, hshard, .inr ⟨p, hp, reads_boundary hend hmode hreads fun u hu hus huf huin => ?_⟩⟩
      rw [← hus, ← huf] at hwants
      rw [hplain.columns] at huin
      -- the part gives `u` back, so that the column has a version at its time
      have hid : u.seriesID ∈ (e.plannedScan q).seriesIDs := by
        rw [hus, ← hplain.columns]
        exact hreads.1
      have hu' : p.Reads (scanQuery (e.plannedScan q)) u :=
        ⟨hid, (hread shard (holds_of_shardMatches hshard) p hp).reads p.valid ⟨hu, hwants, huin⟩⟩
      obtain ⟨m, hm, hms, hmf, hmt⟩ := hnewest ⟨shard, hshard, .inr ⟨p, hp, hu'⟩⟩ hwants huin
      rw [← hmt]
      exact hv.2 m hm (hms.trans hus) (hmf.trans huf)
  · obtain ⟨⟨hwants, hin⟩, hlatest⟩ := (survives_plainScan_iff homit hs hread h hplain hids).mp hu
    obtain ⟨m, hm, hms, hmf, hmt⟩ := hnewest (hsubset hlatest.1) hwants hin
    exact ⟨m, hm, hms, hmf.trans huf, by rw [hmt]⟩

end QueryEngine

section Example

def smallPages : CompressionOptions := { uncompressed with valuePageSamples := 64 }

def pagedSamples : Engine.Samples := (List.range 65).map fun i => ⟨Int64.ofNat i, 1, .int64 (Int64.ofNat i)⟩

def pagedColumns : List ColumnData := [⟨1, 1, .int64, pagedSamples⟩]

theorem pairwise_pagedSamples : pagedSamples.Pairwise (·.timestamp < ·.timestamp) := by
  decide +kernel

theorem versions_pagedColumns : versions [pagedColumns].flatten = pagedSamples.map fun s => ⟨1, 1, s⟩ := by
  simp [versions, ColumnData.versions, pagedColumns]

theorem addSeriesCalls_pagedColumns : AddSeriesCalls [pagedColumns] where
  writable := by
    intro columns hcol c hc
    obtain rfl := mem_singleton.mp hcol
    obtain rfl := mem_singleton.mp hc
    refine ⟨by decide, pairwise_pagedSamples, fun s hs => ?_⟩
    obtain ⟨i, -, rfl⟩ := mem_map.mp hs
    rfl
  oneSeries := by simp [pagedColumns]
  ordered := by simp [pagedColumns]
  unique := by
    rw [versions_pagedColumns, map_map]
    refine pairwise_map.mpr (pairwise_pagedSamples.imp fun {a b} hlt heq => ?_)
    have htime : a.timestamp = b.timestamp := (Prod.mk.inj (Prod.mk.inj heq).2).2
    exact Int64.lt_irrefl (htime ▸ hlt)
  nonempty := by simp [pagedColumns]

def pagedStored : StoredPart :=
  match writePart plainEncoder smallPages [] 0 [] [pagedColumns] with
  | .ok sp => sp
  | .error _ => ⟨(newPartWriter [] 0 []).partMeta, [], [], []⟩

def pagedPart : Engine.WrittenPart plainEncoder smallPages where
  calls := [pagedColumns]
  path := []
  level := 0
  id := []
  stored := pagedStored
  valid := addSeriesCalls_pagedColumns
  distinctFields := by simp [pagedColumns]
  written := by
    obtain ⟨-, sp, hsp, -⟩ := writePart_ok plainEncoder (show smallPages.omitWriteSeq = false from rfl)
      addSeriesCalls_pagedColumns [] 0 []
    rw [pagedStored, hsp]

def pagedEngine (tombstones : List Tombstone) : QueryEngine plainEncoder smallPages where
  defaults := ⟨[100], [114]⟩
  catalog := twoFieldCatalog
  shards := [⟨[100], [114], 0, 100,
    ⟨Engine.MemTable.empty, [pagedPart], tombstones, Engine.MemTable.distinctColumns_empty⟩⟩]

def firstQuery (predicates : List QueryPredicate) : Query :=
  { exprQuery [] predicates .none with aggregates := [⟨[97], AggregateFunction.first.name⟩] }

variable {tombstones : List Tombstone} {predicates : List QueryPredicate}

theorem mem_stored_pagedEngine (h : (pagedEngine tombstones).Holds q shard) :
    stored shard.content = {v | v ∈ pagedSamples.map fun s => (⟨1, 1, s⟩ : Version)} ∧
      shard.content.tombstones = tombstones ∧ shard.start = 0 ∧ shard.stop = 100 := by
  obtain rfl := mem_singleton.mp h.1
  refine ⟨?_, rfl, rfl, rfl⟩
  ext v
  rw [← versions_pagedColumns]
  simp [stored, pagedPart]

theorem eq_of_key_paged (hu : u ∈ pagedSamples.map fun s => (⟨1, 1, s⟩ : Version))
    (hv : v ∈ pagedSamples.map fun s => (⟨1, 1, s⟩ : Version)) (hk : Versioned.key u = Versioned.key v) : u = v := by
  obtain ⟨a, ha, rfl⟩ := mem_map.mp hu
  obtain ⟨b, hb, rfl⟩ := mem_map.mp hv
  obtain ⟨-, -, ht⟩ : (1 : UInt64) = 1 ∧ (1 : UInt32) = 1 ∧ a.timestamp = b.timestamp := by simpa using hk
  rw [Engine.eq_of_timestamp_eq pairwise_pagedSamples ha hb ht]

theorem sound_pagedEngine (tombstones : List Tombstone) (predicates : List QueryPredicate) :
    (pagedEngine tombstones).Sound (firstQuery predicates) where
  catalogued := by
    intro shard hshard v hv
    rw [(mem_stored_pagedEngine hshard).1] at hv
    obtain ⟨s, -, rfl⟩ := mem_map.mp hv
    exact ⟨⟨1, [109], TagMap.empty⟩, mem_singleton_self _, rfl, ⟨1, [109], [97], .int64⟩, mem_cons_self, rfl, rfl⟩
  inRange := by
    intro shard hshard v hv
    obtain ⟨hstored, -, hstart, hstop⟩ := mem_stored_pagedEngine hshard
    rw [hstored] at hv
    obtain ⟨s, hs, rfl⟩ := mem_map.mp hv
    have hall : pagedSamples.all fun s => decide (0 ≤ s.timestamp) && decide (s.timestamp ≤ 100) := by decide +kernel
    have := all_eq_true.mp hall s hs
    rw [hstart, hstop]
    simpa using this
  consistent := by
    rintro u ⟨shard, hshard, hu⟩ v ⟨shard', hshard', hv⟩ hk _
    rw [(mem_stored_pagedEngine hshard).1] at hu
    rw [(mem_stored_pagedEngine hshard').1] at hv
    exact eq_of_key_paged hu hv hk

theorem readable_pagedEngine : (pagedEngine tombstones).Readable (firstQuery predicates) := by
  intro shard hshard p hp
  obtain rfl := mem_singleton.mp hshard.1
  obtain rfl := mem_singleton.mp hp
  exact kept_of_uncompressed _ rfl _ _

theorem unobstructed_pagedEngine : (pagedEngine []).Unobstructed (firstQuery []) where
  expr := rfl
  predicates := rfl
  undeleted := by
    intro shard hshard v _ _ _
    rw [(mem_stored_pagedEngine hshard).2.1]
    exact Engine.not_covered_nil v

theorem firstOrLast_firstQuery : FirstOrLast plainGo (firstQuery predicates).aggregates := by
  intro spec hspec
  obtain rfl := mem_singleton.mp hspec
  exact ⟨.first, rfl, .inl rfl⟩

theorem consistent_pagedEngine : Consistent ((pagedEngine []).readVersions (firstQuery [])
    ((buildQueryPlan (pagedEngine []).defaults (pagedEngine []).catalog (firstQuery [])).allPages plainGo)) := by
  obtain ⟨hplain, -⟩ := QueryEngine.plainScan_of_unobstructed plainGo unobstructed_pagedEngine rfl
  refine (sound_pagedEngine [] []).consistent.mono ?_
  rintro v ⟨shard, hshard, hv⟩
  have hholds := QueryEngine.holds_of_shardMatches hshard
  rw [QueryPlan.allPages, hplain.allPages] at hv
  exact ⟨shard, hholds, QueryEngine.mem_stored_of_plainScan readable_pagedEngine ⟨rfl, fun _ => rfl⟩ hholds hv⟩

end Example

end Mts.Queryexec
