import Mts.Queryexec.ExprRows
import Mts.User.State

/-! The query of the layered executor, `querylang/normalize.go`, `spec.go` and `queryservice/layered_executor.go`: it
is turned into a spec, and the engine executes the query that the spec is turned back into. -/

namespace Mts.Querylang
open Lib Model Queryexec

/-- The enumerations of both packages have the same numbers. -/
structure QueryOrder where
  orderBy : UInt8
  direction : UInt8

structure QueryBudget where
  maxShards : Int
  maxParts : Int
  maxSamples : Int

structure ModelQuery extends Query where
  groupWindow : Int64
  order : QueryOrder
  limit : Int
  offset : Int
  cursor : GoString
  budget : QueryBudget

inductive OutputKind
  | columns | rows | aggregates | explain | profile

/-- Without `output` the kind is zero. -/
structure Defaults extends Queryexec.Defaults where
  output : Option OutputKind

structure Predicate where
  kind : QueryPredicateKind
  name : GoString
  stringValues : List GoString
  value : FieldValue
  start : Int64
  stop : Int64

structure QuerySpec where
  database : GoString
  retentionPolicy : GoString
  measurement : GoString
  tags : TagMap
  fields : List GoString
  start : Int64
  stop : Int64
  predicates : List Predicate
  expr : BoolExpr Predicate
  aggregates : List AggregateSpec
  window : Int64
  groupTags : List GoString
  groupWindow : Int64
  order : QueryOrder
  limit : Int
  offset : Int
  cursor : GoString
  output : OutputKind

inductive Code
  | invalidMeasurement | invalidTimeRange | invalidPagination

structure SpecError where
  code : Code
  message : String

def firstNonEmpty (value fallback : GoString) : GoString := if value ≠ [] then value else fallback

def normalizeFunction (go : GoLib) (function : GoString) : GoString :=
  let normalized := go.toLower (User.trimSpace function)
  if normalized = Engine.asciiBytes "mean" then Engine.asciiBytes "avg" else normalized

def convertPredicate (p : QueryPredicate) : Predicate := ⟨p.kind, p.name, p.stringValues, p.value, p.start, p.stop⟩

def toModelPredicate (p : Predicate) : QueryPredicate := ⟨p.kind, p.name, p.stringValues, p.value, p.start, p.stop⟩

def validate (spec : QuerySpec) : Except SpecError Unit := do
  require (User.trimSpace spec.measurement ≠ []) ⟨.invalidMeasurement, "measurement is required"⟩
  require (¬ (spec.stop ≠ 0 ∧ spec.start > spec.stop))
    ⟨.invalidTimeRange, "start time must be less than or equal to end time"⟩
  require (¬ (spec.limit < 0 ∨ spec.offset < 0))
    ⟨.invalidPagination, "limit and offset must be greater than or equal to zero"⟩

def fromModelQuery (go : GoLib) (query : ModelQuery) (defaults : Defaults) : Except SpecError QuerySpec := do
  let spec := {
    database := firstNonEmpty query.database defaults.database
    retentionPolicy := firstNonEmpty query.retentionPolicy defaults.retentionPolicy
    measurement := query.measurement
    tags := query.tags
    fields := query.fields
    start := query.startTime
    stop := query.endTime
    predicates := query.predicates.map convertPredicate
    expr := query.expr.map convertPredicate
    aggregates := query.aggregates.map fun spec => ⟨spec.field, normalizeFunction go spec.function⟩
    window := query.window
    groupTags := query.groupTags
    groupWindow := query.groupWindow
    order := query.order
    limit := query.limit
    offset := query.offset
    cursor := []
    output := defaults.output.getD .columns }
  validate spec
  .ok spec

def QuerySpec.toModelQuery (s : QuerySpec) : ModelQuery where
  database := s.database
  retentionPolicy := s.retentionPolicy
  measurement := s.measurement
  tags := s.tags
  fields := s.fields
  startTime := s.start
  endTime := s.stop
  predicates := s.predicates.map toModelPredicate
  expr := s.expr.map toModelPredicate
  aggregates := s.aggregates.map fun aggregate => ⟨aggregate.field, aggregate.function⟩
  window := s.window
  groupTags := s.groupTags
  groupWindow := s.groupWindow
  order := s.order
  limit := s.limit
  offset := s.offset
  cursor := s.cursor
  budget := ⟨0, 0, 0⟩

/-- The query that `LayeredExecutor.Query` hands to the engine. -/
def executedQuery (go : GoLib) (defaults : Defaults) (query : ModelQuery) : Except SpecError ModelQuery := do
  let spec ← fromModelQuery go query defaults
  .ok spec.toModelQuery

structure ModelQuery.Valid (q : ModelQuery) : Prop where
  measurement : User.trimSpace q.measurement ≠ []
  timeRange : q.endTime = 0 ∨ q.startTime ≤ q.endTime
  pagination : 0 ≤ q.limit ∧ 0 ≤ q.offset

/-- The query with the default names in place of empty ones and normalised functions. -/
def ModelQuery.normalized (go : GoLib) (defaults : Defaults) (q : ModelQuery) : ModelQuery :=
  { q with
    database := firstNonEmpty q.database defaults.database
    retentionPolicy := firstNonEmpty q.retentionPolicy defaults.retentionPolicy
    aggregates := q.aggregates.map fun spec => ⟨spec.field, normalizeFunction go spec.function⟩ }

theorem executedQuery_eq (go : GoLib) (defaults : Defaults) (h : q.Valid) :
    executedQuery go defaults q = .ok { q.normalized go defaults with cursor := [], budget := ⟨0, 0, 0⟩ } := by
  have hrange : ¬ (q.endTime ≠ 0 ∧ q.startTime > q.endTime) := fun hr =>
    h.timeRange.elim hr.1 fun hle => Int64.not_lt.mpr hle hr.2
  have hpage : ¬ (q.limit < 0 ∨ q.offset < 0) := by
    have := h.pagination
    omega
  have hpredicate : ∀ p, toModelPredicate (convertPredicate p) = p := fun _ => rfl
  simp only [executedQuery, fromModelQuery, validate, require, if_pos h.measurement, if_pos hrange, if_pos hpage]
  show Except.ok (QuerySpec.toModelQuery _) = _
  simp [QuerySpec.toModelQuery, ModelQuery.normalized, Function.comp_def, hpredicate, BoolExpr.map_map_eq_self hpredicate]

/-- The spec has no budget, and its cursor is never set. -/
theorem executedQuery_normalized_iff (go : GoLib) (defaults : Defaults) {q : ModelQuery} (h : q.Valid) :
    executedQuery go defaults q = .ok (q.normalized go defaults) ↔ q.cursor = [] ∧ q.budget = ⟨0, 0, 0⟩ := by
  rw [executedQuery_eq go defaults h, Except.ok.injEq]
  constructor
  · intro heq
    exact ⟨(congrArg ModelQuery.cursor heq).symm, (congrArg ModelQuery.budget heq).symm⟩
  · rintro ⟨hcursor, hbudget⟩
    rw [← hcursor, ← hbudget]
    rfl

def boundedQuery (cursor : GoString) (maxSamples : Int) : ModelQuery :=
  { predicateQuery [] with
    groupWindow := 0, order := ⟨1, 1⟩, limit := 2, offset := 0, cursor := cursor, budget := ⟨0, 0, maxSamples⟩ }

theorem valid_boundedQuery (cursor : GoString) (maxSamples : Int) : (boundedQuery cursor maxSamples).Valid :=
  ⟨show User.trimSpace [109] ≠ [] by decide, .inl rfl, show 0 ≤ (2 : Int) by decide, Int.le_refl 0⟩

theorem first_page_executed : executedQuery plainGo ⟨emptyDefaults, none⟩ (boundedQuery [] 0) =
    .ok ((boundedQuery [] 0).normalized plainGo ⟨emptyDefaults, none⟩) :=
  (executedQuery_normalized_iff plainGo _ (valid_boundedQuery [] 0)).mpr ⟨rfl, rfl⟩

/-- The next page is the first one again, and a budget of five samples is none. -/
theorem cursor_and_budget_dropped :
    executedQuery plainGo ⟨emptyDefaults, none⟩ (boundedQuery [120] 5) =
        .ok ((boundedQuery [] 0).normalized plainGo ⟨emptyDefaults, none⟩) ∧
      (boundedQuery [120] 5).normalized plainGo ⟨emptyDefaults, none⟩ ≠
        (boundedQuery [] 0).normalized plainGo ⟨emptyDefaults, none⟩ := by
  refine ⟨executedQuery_eq _ _ (valid_boundedQuery _ _), fun h => ?_⟩
  exact absurd (congrArg ModelQuery.cursor h) (by decide)

end Mts.Querylang
