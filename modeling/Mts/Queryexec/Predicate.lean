import Mts.Engine.RowMerge
import Mts.Lib.BoolExpr

/-! Predicates and expressions of a query, `engine/query_predicates.go` and
`queryexec/expression_filter.go`: the filter of rows, and its pushdown to the tags of a series, which
knows no timestamp and lets every time range pass. -/

namespace Mts.Queryexec
open Lib Model

/-- `other` is any kind that the code has no name for. -/
inductive QueryPredicateKind
  | timeRange | tagEq | tagNe | tagExists | tagIn
  | field (comparison : FieldComparison)
  | other
  deriving DecidableEq, Repr

structure QueryPredicate where
  kind : QueryPredicateKind
  name : GoString := []
  stringValues : List GoString := []
  value : FieldValue := .bool false
  start : Int64 := 0
  stop : Int64 := 0
  deriving DecidableEq, Repr

variable {p : QueryPredicate}

abbrev QueryExpr := BoolExpr QueryPredicate

variable {expr : QueryExpr}

/-- A Go map is the function that looks up its keys. -/
structure Row where
  seriesID : UInt64
  tags : TagMap
  timestamp : Int64
  fields : GoString → Option FieldValue

def isTagPredicate : QueryPredicateKind → Bool
  | .tagEq | .tagNe | .tagExists | .tagIn => true
  | _ => false

def isTagOrTimePredicate : QueryPredicateKind → Bool
  | .timeRange | .tagEq | .tagNe | .tagExists | .tagIn => true
  | _ => false

def isFieldPredicate : QueryPredicateKind → Bool
  | .field _ => true
  | _ => false

def tagPredicateMatches (tags : TagMap) (p : QueryPredicate) : Bool :=
  match p.kind, tags.find? p.name with
  | .tagEq, some value => p.stringValues.head? = some value
  | .tagEq, none => false
  | .tagNe, some value => p.stringValues.head? ≠ some value
  | .tagNe, none => true
  | .tagExists, value => value.isSome
  | .tagIn, some value => p.stringValues.contains value
  | .tagIn, none => false
  | _, _ => true

def valueMatchesPredicate (value : FieldValue) (p : QueryPredicate) : Bool :=
  match p.kind with
  | .field comparison => Engine.valueMatchesPredicate value ⟨comparison, p.value⟩
  | _ => true

def rowMatchesExprPredicate (row : Row) (p : QueryPredicate) : Bool :=
  match p.kind with
  | .timeRange => p.start ≤ row.timestamp && row.timestamp ≤ p.stop
  | .tagEq | .tagNe | .tagExists | .tagIn => tagPredicateMatches row.tags p
  | _ =>
    match row.fields p.name with
    | none => false
    | some value => valueMatchesPredicate value p

def rowMatchesExpr (row : Row) (expr : QueryExpr) : Bool := expr.eval (rowMatchesExprPredicate row)

def seriesMatchesTagExpr (tags : TagMap) (expr : QueryExpr) : Bool := expr.eval (tagPredicateMatches tags)

def tagOnlyExpr (expr : QueryExpr) : Bool := expr.allLeaves fun p => isTagOrTimePredicate p.kind

def queryExprAllowsFlatPredicates (expr : QueryExpr) : Bool := expr.isConj

def seriesByID (series : List Series) (id : UInt64) : Option Series := series.find? fun s => s.id = id

def filterSeriesIDsByTagExpr (ids : List UInt64) (series : List Series) (expr : QueryExpr) : List UInt64 :=
  ids.filter fun id =>
    match seriesByID series id with
    | some item => seriesMatchesTagExpr item.tags expr
    | none => false

theorem mem_filterSeriesIDsByTagExpr {id : UInt64} (hseries : seriesByID series id = some item) :
    id ∈ filterSeriesIDsByTagExpr ids series expr ↔ id ∈ ids ∧ seriesMatchesTagExpr item.tags expr = true := by
  rw [filterSeriesIDsByTagExpr, List.mem_filter, hseries]

theorem rowMatchesExprPredicate_of_tag (h : isTagPredicate p.kind = true) :
    rowMatchesExprPredicate row p = tagPredicateMatches row.tags p := by
  unfold rowMatchesExprPredicate
  cases hkind : p.kind <;> simp_all [isTagPredicate]

theorem tagPredicateMatches_of_not_tag (h : isTagPredicate p.kind = false) : tagPredicateMatches tags p = true := by
  unfold tagPredicateMatches
  cases hkind : p.kind <;> simp_all [isTagPredicate]

/-- A row that matches belongs to a series that matches, if the leaves below an odd number of negations
are tag predicates. -/
theorem seriesMatchesTagExpr_of_row (hodd : ∀ p ∈ expr.leavesAt false, isTagPredicate p.kind = true)
    (h : rowMatchesExpr row expr = true) : seriesMatchesTagExpr row.tags expr = true := by
  refine BoolExpr.eval_mono (fun p _ hp => ?_) (fun p hmem hp => ?_) h
  · cases htag : isTagPredicate p.kind with
    | true => rwa [← rowMatchesExprPredicate_of_tag htag]
    | false => exact tagPredicateMatches_of_not_tag htag
  · rwa [rowMatchesExprPredicate_of_tag (hodd p hmem)]

/-- `NOT` of a time range: the pushdown takes the range for true and drops the series. -/
def outsideRange : QueryExpr := .not [.leaf { kind := .timeRange, start := 0, stop := 10 }]

def plainSeries : Series := ⟨1, [109], TagMap.empty⟩

def lateRow : Row := ⟨1, TagMap.empty, 20, fun _ => none⟩

/-- A time range under two negations, for a series without the tag that is asked for. -/
def insideRangeTagged : QueryExpr :=
  .and [.not [.not [.leaf { kind := .timeRange, start := 0, stop := 10 }]],
    .leaf { kind := .tagExists, name := [97] }]

end Mts.Queryexec
