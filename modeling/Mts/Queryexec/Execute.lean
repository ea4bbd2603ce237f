import Mts.Engine.Pushdown
import Mts.Queryexec.Aggregate

/-! Execution of row and column queries over the open shards, `engine/query.go` and `query_boundary.go`,
for queries without group tags. The column query filters, aggregates and projects columns; the row query
takes the unfiltered columns of the same plan and filters and projects their rows. -/

namespace Mts.Queryexec
open Lib Model Sstable

structure OpenShard (encode : ValueEncoder) (opts : CompressionOptions) where
  database : GoString
  retentionPolicy : GoString
  start : Int64
  stop : Int64
  content : Engine.ShardContent encode opts

structure QueryEngine (encode : ValueEncoder) (opts : CompressionOptions) where
  defaults : Defaults
  catalog : Snapshot
  shards : List (OpenShard encode opts)

inductive QueryError
  | page (e : PageError)
  | aggregate (e : AggregateError)

def mergeBoundaryMode (left right : QueryBoundaryMode) : QueryBoundaryMode :=
  if left = .none then right else if left = right then left else .both

def queryBoundaryMode (go : GoLib) (query : Query) : QueryBoundaryMode :=
  if 0 < query.window || query.aggregates.isEmpty then .none
  else
    let modes := query.aggregates.map fun spec =>
      match AggregateFunction.parse (go.toLower spec.function) with
      | some .first => some QueryBoundaryMode.first
      | some .last => some QueryBoundaryMode.last
      | _ => none
    if modes.contains none then .none else (modes.filterMap id).foldl mergeBoundaryMode .none

def shardMatches {encode : ValueEncoder} {opts : CompressionOptions} (query : Query)
    (shard : OpenShard encode opts) : Bool :=
  shard.database = query.database && shard.retentionPolicy = query.retentionPolicy &&
    (decide (query.startTime ≤ shard.stop) && decide (shard.start ≤ query.endTime))

def QueryPlan.scan (go : GoLib) (plan : QueryPlan) : StorageQuery :=
  { seriesIDs := plan.seriesIDs, fieldIDs := plan.fieldIDs, start := plan.query.startTime
    stop := plan.query.endTime, boundary := queryBoundaryMode go plan.query
    fieldPredicates := plan.fieldPredicates }

/-- The plan of the columns that a row query merges: no filter and no projection. -/
def QueryPlan.columnPlan (plan : QueryPlan) : QueryPlan :=
  { plan with query := { plan.query with expr := .none }, postFilterPredicates := [], outputFields := [] }

/-- The filter of a column query: the expression, or else all field predicates. -/
def QueryPlan.columnFilter (plan : QueryPlan) : QueryExpr :=
  match plan.query.expr with
  | .none => andExprFromPredicates plan.postFilterPredicates
  | expr => expr

/-- A column that the catalog does not know is replaced by the zero column. -/
def decorateColumn (catalog : Snapshot) (c : ColumnData) : ColumnSeries :=
  match seriesByID catalog.series c.seriesID, catalog.fields.find? fun f => f.id = c.fieldID with
  | some s, some f =>
    ⟨c.seriesID, s.tags, c.fieldID, f.name, some c.fieldType, c.samples.map fun x => (x.timestamp, x.value)⟩
  | _, _ => ⟨0, TagMap.empty, 0, [], none, []⟩

namespace QueryEngine
variable {encode : ValueEncoder} {opts : CompressionOptions} (go : GoLib)

def queryColumnDataStream (e : QueryEngine encode opts) (plan : QueryPlan) : Except PageError (List ColumnData) := do
  let streams ← (e.shards.filter (shardMatches plan.query)).mapM fun shard =>
    shard.content.scanColumns (plan.scan go)
  .ok (Engine.mergeColumnDataStreams streams)

def queryColumnsFromPlan (e : QueryEngine encode opts) (plan : QueryPlan) : Except QueryError (List ColumnSeries) :=
  if plan.empty then .ok []
  else do
    let raw ← (e.queryColumnDataStream go plan).mapError .page
    let columns := exprFilteredColumnStream plan.columnFilter (raw.map (decorateColumn e.catalog))
    if plan.query.aggregates.isEmpty then .ok (projectedColumnStream plan.outputFields columns)
    else (aggregateColumnStream go plan.query.aggregates plan.query.window columns).mapError .aggregate

def queryColumns (e : QueryEngine encode opts) (query : Query) : Except QueryError (List ColumnSeries) :=
  e.queryColumnsFromPlan go (buildQueryPlan e.defaults e.catalog query)

def queryRows (e : QueryEngine encode opts) (query : Query) : Except QueryError (List Row) := do
  let plan := buildQueryPlan e.defaults e.catalog query
  let columns ← e.queryColumnsFromPlan go plan.columnPlan
  .ok (projectedRowStream plan.outputFields
    (filteredRowStream plan.query.expr plan.postFilterPredicates (rowMergeStream columns)))

end QueryEngine

end Mts.Queryexec
