import Mts.Queryexec.GroupAggregate
import Mts.Downsample.Windows

/-! What a downsample run writes for one window, `engine/downsample_aggregate.go`. The samples of the source columns
are gathered by the values of the group tags, one point for each group; each function of the policy keeps its own
state in a point. Seven functions collect the samples and need two of them at least. -/

namespace Mts.Downsample
open Lib Model Queryexec

inductive DownsampleError
  | requiresNumeric (fn : AggregateFunction)
  | mixedTypes (fn : AggregateFunction)
  | tooFewValues (fn : AggregateFunction)
  | notIncreasing (what : AggregateFunction)
  | emptyWindow
  | source (text : GoString)
  | write (text : GoString)
  deriving DecidableEq, Repr

structure DownsampleRunning where
  aggregate : RunningAggregate
  series : List (Int64 × FieldValue)

/-- `running` is `none` as long as the count is 0. -/
structure DownsampleAggregateState where
  fn : AggregateFunction
  running : Option DownsampleRunning

def requiresNumeric : AggregateFunction → Bool
  | .count | .first | .last | .mode => false
  | _ => true

def requiresSeries : AggregateFunction → Bool
  | .rate | .irate | .increase | .delta | .difference | .derivative | .median => true
  | _ => false

section State
variable (go : GoLib)

def downsampleFieldLess (left right : FieldValue) : Bool :=
  if Engine.isNumericFieldValue left && Engine.isNumericFieldValue right then
    Float64.lt (Engine.fieldValueAsFloat left) (Engine.fieldValueAsFloat right)
  else decide (fieldValueKey go left < fieldValueKey go right)

def addMinMax (s : RunningAggregate) (value : FieldValue) : RunningAggregate :=
  { s with
    minValue := if s.count = 1 || downsampleFieldLess go value s.minValue then value else s.minValue
    maxValue := if s.count = 1 || downsampleFieldLess go s.maxValue value then value else s.maxValue }

/-- `addNumeric`, `addFirstLast` and `addMode` are those of the grouped queries, word by word. -/
def addValue (fn : AggregateFunction) (s : DownsampleRunning) (pt : Int64 × FieldValue) : DownsampleRunning where
  aggregate := ((addMinMax go (s.aggregate.addNumeric go pt.2) pt.2).addFirstLast pt.1 pt.2).addMode go fn.name pt.2
  series := if requiresSeries fn then s.series ++ [pt] else s.series

def initialRunning (pt : Int64 × FieldValue) : DownsampleRunning where
  aggregate :=
    { valueType := pt.2.type, count := 1, sumFloat := 0, sumInt := 0, mean := 0, m2 := 0
      firstTimestamp := pt.1, lastTimestamp := pt.1, firstValue := pt.2, lastValue := pt.2
      minValue := pt.2, maxValue := pt.2, modeCounts := ∅, modeValue := none, modeCount := 0 }
  series := []

def downsampleCounterIncrease (samples : List (Int64 × FieldValue)) : UInt64 :=
  (samples.zip samples.tail).foldl (fun total pair =>
    let previous := Engine.fieldValueAsFloat pair.1.2
    let current := Engine.fieldValueAsFloat pair.2.2
    go.add total (if Float64.le previous current then go.sub current previous else current)) 0

def sampleSeconds (samples : List (Int64 × FieldValue)) : UInt64 :=
  elapsedSeconds go ((samples.head?.map Prod.fst).getD 0) ((samples.getLast?.map Prod.fst).getD 0)

def downsampleRate (samples : List (Int64 × FieldValue)) : Except DownsampleError FieldValue :=
  let increase := downsampleCounterIncrease go samples
  let seconds := sampleSeconds go samples
  if Float64.le seconds 0 then .error (.notIncreasing .rate) else .ok (.float64 (go.div increase seconds))

def downsampleDeltaValue (samples : List (Int64 × FieldValue)) : FieldValue :=
  let first := (samples.head?.map Prod.snd).getD (.int64 0)
  let last := (samples.getLast?.map Prod.snd).getD (.int64 0)
  match first, last with
  | .int64 a, .int64 b => .int64 (b - a)
  | _, _ => .float64 (go.sub (Engine.fieldValueAsFloat last) (Engine.fieldValueAsFloat first))

def downsampleDerivativeValue (samples : List (Int64 × FieldValue)) : Except DownsampleError FieldValue :=
  let delta := downsampleDeltaValue go samples
  let seconds := sampleSeconds go samples
  if Float64.le seconds 0 then .error (.notIncreasing .derivative)
  else .ok (.float64 (go.div (Engine.fieldValueAsFloat delta) seconds))

def downsampleMedianValue (samples : List (Int64 × FieldValue)) : FieldValue :=
  let values := go.sortFloats (samples.map fun s => Engine.fieldValueAsFloat s.2)
  let mid := values.length / 2
  if values.length % 2 = 1 then .float64 (values.getD mid 0)
  else .float64 (go.div (go.add (values.getD (mid - 1) 0) (values.getD mid 0)) (Float64.ofInt64 2))

def sortedSeries (series : List (Int64 × FieldValue)) : List (Int64 × FieldValue) :=
  series.insertionSort fun p q => p.1 ≤ q.1

/-- The last case does not occur: the other functions do not collect their samples. -/
def seriesValue (fn : AggregateFunction) (series : List (Int64 × FieldValue)) : Except DownsampleError FieldValue :=
  let samples := sortedSeries series
  if samples.length < 2 then .error (.tooFewValues fn)
  else
    match fn with
    | .rate => downsampleRate go samples
    | .irate => downsampleRate go (samples.drop (samples.length - 2))
    | .increase => .ok (.float64 (downsampleCounterIncrease go samples))
    | .delta | .difference => .ok (downsampleDeltaValue go samples)
    | .derivative => downsampleDerivativeValue go samples
    | .median => .ok (downsampleMedianValue go samples)
    | fn => .error (.tooFewValues fn)

def spreadValue (s : RunningAggregate) : FieldValue :=
  if s.valueType = .int64 then .int64 (int64Field s.maxValue - int64Field s.minValue)
  else .float64 (go.sub (float64Field s.maxValue) (float64Field s.minValue))

namespace DownsampleAggregateState

def add (s : DownsampleAggregateState) (pt : Int64 × FieldValue) : Except DownsampleError DownsampleAggregateState :=
  match s.running with
  | none =>
    if requiresNumeric s.fn && !Engine.isNumericFieldValue pt.2 then .error (.requiresNumeric s.fn)
    else .ok { s with running := some (addValue go s.fn (initialRunning pt) pt) }
  | some r =>
    if pt.2.type ≠ r.aggregate.valueType then .error (.mixedTypes s.fn)
    else if requiresNumeric s.fn && !Engine.isNumericFieldValue pt.2 then .error (.requiresNumeric s.fn)
    else
      let r := { r with aggregate := { r.aggregate with count := r.aggregate.count + 1 } }
      .ok { s with running := some (addValue go s.fn r pt) }

def value (s : DownsampleAggregateState) : Except DownsampleError (Option FieldValue) :=
  match s.running with
  | none => .ok none
  | some r =>
    let a := r.aggregate
    match s.fn with
    | .count => .ok (some (.int64 a.count))
    | .sum => .ok (some a.sumValue)
    | .avg => .ok (some (.float64 (go.div a.sumFloat (Float64.ofInt64 a.count))))
    | .min | .bottom => .ok (some a.minValue)
    | .max | .top => .ok (some a.maxValue)
    | .first => .ok (some a.firstValue)
    | .last => .ok (some a.lastValue)
    | .spread => .ok (some (spreadValue go a))
    -- the first value has set it
    | .mode => .ok (some (a.modeValue.getD a.firstValue))
    | .stddev | .stdvar => .ok (some (a.stdValue go s.fn.name))
    | fn => (seriesValue go fn r.series).map some

end DownsampleAggregateState

def newDownsampleAggregateState (fn : AggregateFunction) : DownsampleAggregateState := ⟨fn, none⟩

def downsampleAggregateOf (fn : AggregateFunction) (points : List (Int64 × FieldValue)) :
    Except DownsampleError (Option FieldValue) := do
  let s ← points.foldlM (DownsampleAggregateState.add go) (newDownsampleAggregateState fn)
  s.value go

end State

section Window
variable (go : GoLib)

structure DownsamplePointState where
  tags : TagMap
  timestamp : Int64
  fields : GoMap GoString DownsampleAggregateState

structure DownsamplePoint where
  tags : TagMap
  timestamp : Int64
  fields : List (GoString × FieldValue)

def downsampleGroupTags (tags : TagMap) (names : List GoString) : TagMap := projectGroupTags tags names

def downsampleTargetTags (tags : TagMap) (policy : DownsamplePolicy) : TagMap :=
  tags.set policy.policyTagName policy.name

def downsamplePointKey (tags : TagMap) (timestamp : Int64) : GoString :=
  (if timestamp < 0 then [45] else []) ++ Engine.decimal timestamp.toInt.natAbs ++
    tags.entries.flatMap fun e => 0 :: e.1 ++ 61 :: e.2

def newPointState (policy : DownsamplePolicy) (start : Int64) (tags : TagMap) : DownsamplePointState where
  tags := downsampleTargetTags (downsampleGroupTags tags policy.groupByTags) policy
  timestamp := start
  fields := ∅

def columnPointKey (policy : DownsamplePolicy) (start : Int64) (column : ColumnSeries) : GoString :=
  downsamplePointKey (downsampleTargetTags (downsampleGroupTags column.tags policy.groupByTags) policy) start

def DownsamplePointState.addFunction (pt : Int64 × FieldValue) (s : DownsamplePointState)
    (function : DownsampleFunction) : Except DownsampleError DownsamplePointState := do
  let state := (s.fields.get? function.as).getD (newDownsampleAggregateState function.function)
  let state ← state.add go pt
  .ok { s with fields := s.fields.set function.as state }

def DownsamplePointState.add (functions : List DownsampleFunction) (s : DownsamplePointState)
    (pt : Int64 × FieldValue) : Except DownsampleError DownsamplePointState :=
  functions.foldlM (DownsamplePointState.addFunction go pt) s

def downsampleFunctionsByField (functions : List DownsampleFunction) (field : GoString) : List DownsampleFunction :=
  functions.filter fun f => f.field = field

def addColumn (policy : DownsamplePolicy) (start stop : Int64) (points : GoMap GoString DownsamplePointState)
    (column : ColumnSeries) : Except DownsampleError (GoMap GoString DownsamplePointState) := do
  let functions := downsampleFunctionsByField policy.functions column.fieldName
  if functions.isEmpty then .ok points
  else
    let key := columnPointKey policy start column
    let state := (points.get? key).getD (newPointState policy start column.tags)
    let state ← (column.points.filter fun pt => start ≤ pt.1 && pt.1 < stop).foldlM
      (DownsamplePointState.add go functions) state
    .ok (points.set key state)

def DownsamplePointState.field (s : DownsamplePointState) (function : DownsampleFunction) :
    Except DownsampleError (Option (GoString × FieldValue)) :=
  match s.fields.get? function.as with
  | some state => (state.value go).map fun value => value.map fun v => (function.as, v)
  | none => .ok none

def DownsamplePointState.point (policy : DownsamplePolicy) (s : DownsamplePointState) :
    Except DownsampleError (Option DownsamplePoint) := do
  let fields ← policy.functions.mapM (s.field go)
  let fields := fields.filterMap id
  .ok (if fields.isEmpty then none else some ⟨s.tags, s.timestamp, fields⟩)

def defaultDownsampleBatchSize : Int := 1024

/-- The loop of `write` over the points in the order of their keys; `send` is `Engine.Write`. -/
def writePoints (policy : DownsamplePolicy) (send : List DownsamplePoint → Except DownsampleError Unit)
    (batchSize : Int) : List DownsamplePointState → List DownsamplePoint → Nat → Except DownsampleError Nat
  | [], batch, written =>
    if batch.isEmpty then .ok written
    else do
      send batch
      .ok (written + batch.length)
  | s :: states, batch, written => do
    match ← s.point go policy with
    | none => writePoints policy send batchSize states batch written
    | some point =>
      let batch := batch ++ [point]
      if (batch.length : Int) < batchSize then writePoints policy send batchSize states batch written
      else do
        send batch
        writePoints policy send batchSize states [] (written + batch.length)

/-- The parts of the engine that a window uses: the source query over a time range, and `Write`. -/
structure DownsampleEngine where
  queryColumns : Int64 → Int64 → Except DownsampleError (List ColumnSeries)
  write : List DownsamplePoint → Except DownsampleError Unit

def runDownsampleWindow (engine : DownsampleEngine) (policy : DownsamplePolicy) (start stop : Int64) :
    Except DownsampleError Nat := do
  if stop ≤ start then .error .emptyWindow
  else
    let columns ← engine.queryColumns start stop
    let points ← columns.foldlM (addColumn go policy start stop) ∅
    let batchSize := if policy.batchSize ≤ 0 then defaultDownsampleBatchSize else policy.batchSize
    writePoints go policy engine.write batchSize ((sortedEntries points).map Prod.snd) [] 0

end Window

end Mts.Downsample
