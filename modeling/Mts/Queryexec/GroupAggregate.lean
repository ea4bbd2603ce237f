import Mts.Lib.Feed
import Mts.Queryexec.Aggregate

/-! Aggregation grouped by tags, `queryexec/group_aggregate.go` and `group_aggregate_state.go`. The columns of
all series feed accumulators, one for each function, field and group of tag values, which are kept under a
joined key. -/

namespace Mts.Queryexec
open Lib Model
open List hiding beq_eq_decide

variable {c : ColumnSeries} {t : Int64} {fn : GoString}

structure QueryGroup where
  tags : List GoString
  window : Int64

def QueryGroup.windowOr (group : QueryGroup) (window : Int64) : Int64 :=
  if 0 < group.window then group.window else window

section State
variable (go : GoLib)

/-- The fields that are set with the first value. `modeValue` is `none` where the code leaves the zero value. -/
structure RunningAggregate where
  valueType : FieldType
  count : Int64
  sumFloat : UInt64
  sumInt : Int64
  mean : UInt64
  m2 : UInt64
  firstTimestamp : Int64
  lastTimestamp : Int64
  firstValue : FieldValue
  lastValue : FieldValue
  minValue : FieldValue
  maxValue : FieldValue
  modeCounts : GoMap GoString Nat
  modeValue : Option FieldValue
  modeCount : Nat

/-- `running` is `none` as long as the count is 0. -/
structure IncrementalAggregateState where
  fn : GoString
  running : Option RunningAggregate

def newIncrementalAggregateState (fn : GoString) : IncrementalAggregateState := ⟨fn, none⟩

def streamableGroupAggregate (fn : GoString) : Bool :=
  match AggregateFunction.parse fn with
  | some .count | some .sum | some .avg | some .min | some .max | some .first | some .last | some .spread
  | some .mode | some .stddev | some .stdvar | some .top | some .bottom => true
  | _ => false

def requiresNumeric (fn : GoString) : Bool :=
  match AggregateFunction.parse fn with
  | some .sum | some .avg | some .min | some .max | some .spread | some .stddev | some .stdvar | some .top
  | some .bottom => true
  | _ => false

namespace RunningAggregate

def addNumeric (s : RunningAggregate) (value : FieldValue) : RunningAggregate :=
  if Engine.isNumericFieldValue value then
    let number := Engine.fieldValueAsFloat value
    let delta := go.sub number s.mean
    let mean := go.add s.mean (go.div delta (Float64.ofInt64 s.count))
    { s with
      sumFloat := go.add s.sumFloat number
      sumInt := if value.type = .int64 then s.sumInt + int64Field value else s.sumInt
      mean := mean
      m2 := go.add s.m2 (go.mul delta (go.sub number mean)) }
  else s

def addMinMax (s : RunningAggregate) (value : FieldValue) : RunningAggregate :=
  { s with
    minValue := if Engine.fieldValuesCompare value s.minValue < 0 then value else s.minValue
    maxValue := if Engine.fieldValuesCompare value s.maxValue > 0 then value else s.maxValue }

def addFirstLast (s : RunningAggregate) (timestamp : Int64) (value : FieldValue) : RunningAggregate :=
  let s := if timestamp < s.firstTimestamp then { s with firstTimestamp := timestamp, firstValue := value } else s
  if s.lastTimestamp ≤ timestamp then { s with lastTimestamp := timestamp, lastValue := value } else s

def addMode (fn : GoString) (s : RunningAggregate) (value : FieldValue) : RunningAggregate :=
  if AggregateFunction.parse fn = some .mode then
    let key := fieldValueKey go value
    let count := (s.modeCounts.get? key).getD 0 + 1
    let s := { s with modeCounts := s.modeCounts.set key count }
    if s.modeCount < count then { s with modeCount := count, modeValue := some value } else s
  else s

def initial (fn : GoString) (timestamp : Int64) (value : FieldValue) : RunningAggregate :=
  let s : RunningAggregate :=
    { valueType := value.type, count := 1, sumFloat := 0, sumInt := 0, mean := 0, m2 := 0
      firstTimestamp := timestamp, lastTimestamp := timestamp, firstValue := value, lastValue := value
      minValue := value, maxValue := value, modeCounts := ∅, modeValue := none, modeCount := 0 }
  (s.addNumeric go value).addMode go fn value

def addByFunction (fn : GoString) (s : RunningAggregate) (timestamp : Int64) (value : FieldValue) : RunningAggregate :=
  (((s.addNumeric go value).addMinMax value).addFirstLast timestamp value).addMode go fn value

def numericError (s : RunningAggregate) (what : String) : Except AggregateError Unit :=
  if Engine.isNumericFieldValue s.minValue then .ok ⟨⟩ else .error (.unsupportedType what s.valueType)

def sumValue (s : RunningAggregate) : FieldValue :=
  if s.valueType = .int64 then .int64 s.sumInt else .float64 s.sumFloat

def spreadValue (s : RunningAggregate) : Except AggregateError FieldValue := do
  s.numericError "spread"
  if s.valueType = .int64 then .ok (.int64 (int64Field s.maxValue - int64Field s.minValue))
  else .ok (.float64 (go.sub (float64Field s.maxValue) (float64Field s.minValue)))

def stdValue (fn : GoString) (s : RunningAggregate) : FieldValue :=
  let variance := go.div s.m2 (Float64.ofInt64 s.count)
  if AggregateFunction.parse fn = some .stddev then .float64 (go.sqrt variance) else .float64 variance

def aggregateValue (fn : GoString) (s : RunningAggregate) : Except AggregateError FieldValue :=
  match AggregateFunction.parse fn with
  | some .count => .ok (.int64 s.count)
  | some .sum => .ok s.sumValue
  | some .avg => .ok (.float64 (go.div s.sumFloat (Float64.ofInt64 s.count)))
  | some .min => (s.numericError "min").map fun _ => s.minValue
  | some .max => (s.numericError "max").map fun _ => s.maxValue
  | some .top => (s.numericError "top").map fun _ => s.maxValue
  | some .bottom => (s.numericError "bottom").map fun _ => s.minValue
  | some .first => .ok s.firstValue
  | some .last => .ok s.lastValue
  | some .spread => s.spreadValue go
  -- the first value has set it
  | some .mode => .ok (s.modeValue.getD s.firstValue)
  | some .stddev | some .stdvar => .ok (s.stdValue go fn)
  | _ => .error (.unsupported fn)

def outputTimestamp (fn : GoString) (s : RunningAggregate) : Int64 :=
  if AggregateFunction.parse fn = some .last then s.lastTimestamp else s.firstTimestamp

end RunningAggregate

namespace IncrementalAggregateState

def add (s : IncrementalAggregateState) (pt : Int64 × FieldValue) : Except AggregateError IncrementalAggregateState :=
  match s.running with
  | none =>
    if requiresNumeric s.fn && !Engine.isNumericFieldValue pt.2 then .error (.requiresNumeric s.fn)
    else .ok { s with running := some (RunningAggregate.initial go s.fn pt.1 pt.2) }
  | some r =>
    if pt.2.type ≠ r.valueType then .error (.mixedTypes s.fn)
    else if requiresNumeric s.fn && !Engine.isNumericFieldValue pt.2 then .error (.requiresNumeric s.fn)
    else .ok { s with running := some (({ r with count := r.count + 1 }).addByFunction go s.fn pt.1 pt.2) }

def value (s : IncrementalAggregateState) : Except AggregateError (FieldValue × Int64) :=
  match s.running with
  | none => .error (.noValues s.fn)
  | some r => (r.aggregateValue go s.fn).map fun v => (v, r.outputTimestamp s.fn)

end IncrementalAggregateState

end State

section Accumulator
variable (go : GoLib)

/-- `function` is that of the spec in lower case. `state` is `none` for a function that collects its points. -/
structure GroupAccumulator where
  function : GoString
  fieldName : GoString
  tags : TagMap
  window : Int64
  state : Option IncrementalAggregateState
  windows : GoMap Int64 IncrementalAggregateState
  points : List (Int64 × FieldValue)

def newGroupAccumulator (function fieldName : GoString) (tags : TagMap) (window : Int64) : GroupAccumulator where
  function := function
  fieldName := fieldName
  tags := tags
  window := window
  state := if streamableGroupAggregate function then some (newIncrementalAggregateState function) else none
  windows := ∅
  points := []

namespace GroupAccumulator

/-- A window of 0 or less is none; the state of the whole group is then there. -/
def add (a : GroupAccumulator) (pt : Int64 × FieldValue) : Except AggregateError GroupAccumulator :=
  if a.state.isNone && a.windows.size = 0 then .ok { a with points := a.points ++ [pt] }
  else if a.window ≤ 0 then
    match a.state with
    | some s => (s.add go pt).map fun s => { a with state := some s }
    | none => .ok a
  else
    let start := windowStart a.window pt.1
    (((a.windows.get? start).getD (newIncrementalAggregateState a.function)).add go pt).map fun s =>
      { a with windows := a.windows.set start s }

def out (a : GroupAccumulator) : ColumnSeries := ⟨0, a.tags, 0, aggregateName a.function a.fieldName, none, []⟩

def materializeWindows (a : GroupAccumulator) : Except AggregateError ColumnSeries := do
  let points ← (sortedEntries a.windows).mapM fun e => do
    let value ← e.2.value go
    .ok (e.1, value.1)
  .ok { a.out with fieldType := points.getLast?.map fun pt => pt.2.type, points := points }

def materialize (a : GroupAccumulator) : Except AggregateError ColumnSeries :=
  if a.window ≤ 0 then do
    let value ← match a.state with
      | some s => s.value go
      | none => .error (.noValues a.function)
    .ok { a.out with fieldType := some value.1.type, points := [(value.2, value.1)] }
  else a.materializeWindows go

end GroupAccumulator

def groupAggregateTimestamp (points : List (Int64 × FieldValue)) (fn : GoString) : Int64 :=
  if AggregateFunction.parse fn = some .last then (points.getLast?.map Prod.fst).getD 0
  else (points.head?.map Prod.fst).getD 0

def materializeWholeGroup (out : ColumnSeries) (points : List (Int64 × FieldValue)) (fn : GoString) :
    Except AggregateError ColumnSeries := do
  let value ← aggregateValuesByTime go points fn
  .ok { out with fieldType := some value.type, points := [(groupAggregateTimestamp points fn, value)] }

/-- The loop is that of `aggregateWindowedColumn`. -/
def materializeWindowedGroup (out : ColumnSeries) (points : List (Int64 × FieldValue)) (fn : GoString)
    (window : Int64) : Except AggregateError ColumnSeries :=
  aggregateWindowedColumn go out { out with points := points } fn window

def materializeGroupAccumulator (window : Int64) (a : GroupAccumulator) : Except AggregateError ColumnSeries :=
  if a.state.isSome || 0 < a.windows.size then a.materialize go
  else
    let points := a.points.insertionSort fun p q => p.1 ≤ q.1
    if window ≤ 0 then materializeWholeGroup go a.out points a.function
    else materializeWindowedGroup go a.out points a.function window

def projectGroupTags (tags : TagMap) (names : List GoString) : TagMap :=
  names.foldl (fun out name => out.set name (tags.get name)) TagMap.empty

def groupAccumulatorKey (function fieldName : GoString) (tagNames : List GoString) (tags : TagMap) : GoString :=
  function ++ 0 :: fieldName ++ tagNames.flatMap fun name => 0 :: name ++ 61 :: tags.get name

def AggregateSpec.appliesTo (spec : AggregateSpec) (fieldName : GoString) : Bool :=
  spec.field.isEmpty || spec.field = fieldName

@[ext] structure GroupAggregate where
  function : GoString
  fieldName : GoString
  tags : TagMap
  deriving DecidableEq

def groupAggregate (names : List GoString) (column : ColumnSeries) (spec : AggregateSpec) : GroupAggregate :=
  ⟨go.toLower spec.function, column.fieldName, projectGroupTags column.tags names⟩

def GroupAggregate.key (names : List GoString) (a : GroupAggregate) : GoString :=
  groupAccumulatorKey a.function a.fieldName names a.tags

def appendColumnSpec (names : List GoString) (window : Int64) (column : ColumnSeries)
    (accumulators : GoMap GoString GroupAccumulator) (spec : AggregateSpec) :
    Except AggregateError (GoMap GoString GroupAccumulator) := do
  let target := groupAggregate go names column spec
  let key := target.key names
  let accumulator := (accumulators.get? key).getD
    (newGroupAccumulator target.function target.fieldName target.tags window)
  let accumulator ← column.points.foldlM (GroupAccumulator.add go) accumulator
  .ok (accumulators.set key accumulator)

def appendColumn (specs : List AggregateSpec) (names : List GoString) (window : Int64)
    (accumulators : GoMap GoString GroupAccumulator) (column : ColumnSeries) :
    Except AggregateError (GoMap GoString GroupAccumulator) :=
  (specs.filter fun spec => spec.appliesTo column.fieldName).foldlM (appendColumnSpec go names window column)
    accumulators

def materializeGroupAccumulators (accumulators : GoMap GoString GroupAccumulator) (window : Int64) :
    Except AggregateError (List ColumnSeries) :=
  (sortedEntries accumulators).mapM fun e => materializeGroupAccumulator go window e.2

/-- `load` of the grouped stream. -/
def groupColumns (specs : List AggregateSpec) (names : List GoString) (window : Int64)
    (columns : List ColumnSeries) : Except AggregateError (List ColumnSeries) := do
  let accumulators ← columns.foldlM (appendColumn go specs names window) ∅
  materializeGroupAccumulators go accumulators window

/-- `NewGroupAggregateColumnStream`. -/
def groupAggregateColumnStream (specs : List AggregateSpec) (group : QueryGroup) (window : Int64)
    (columns : List ColumnSeries) : Except AggregateError (List ColumnSeries) :=
  if group.tags.isEmpty then aggregateColumnStream go specs window columns
  else groupColumns go specs group.tags (group.windowOr window) columns

end Accumulator

variable {acc : GroupAccumulator}

section Specification
variable (go : GoLib)

def groupJobs (specs : List AggregateSpec) (columns : List ColumnSeries) : List (ColumnSeries × AggregateSpec) :=
  columns.flatMap fun c => (specs.filter fun spec => spec.appliesTo c.fieldName).map fun spec => (c, spec)

def groupAggregates (specs : List AggregateSpec) (names : List GoString) (columns : List ColumnSeries) :
    List GroupAggregate := (groupJobs specs columns).map fun job => groupAggregate go names job.1 job.2

def GroupAggregate.accumulator (window : Int64) (a : GroupAggregate) : GroupAccumulator :=
  newGroupAccumulator a.function a.fieldName a.tags window

def usedPoints (specs : List AggregateSpec) (names : List GoString) (columns : List ColumnSeries) (k : GoString) :
    List (Int64 × FieldValue) :=
  ((groupJobs specs columns).filter fun job => (groupAggregate go names job.1 job.2).key names = k).flatMap
    fun job => job.1.points

def repeats (specs : List AggregateSpec) (a : GroupAggregate) : Nat :=
  ((specs.filter fun spec => spec.appliesTo a.fieldName).map fun spec => go.toLower spec.function).count a.function

def groupPoints (names : List GoString) (columns : List ColumnSeries) (a : GroupAggregate) :
    List (Int64 × FieldValue) :=
  (columns.filter fun c => c.fieldName = a.fieldName && projectGroupTags c.tags names = a.tags).flatMap
    ColumnSeries.points

/-- A function that collects its points takes them in the order of time. -/
def orderedPoints (fn : GoString) (points : List (Int64 × FieldValue)) : List (Int64 × FieldValue) :=
  if streamableGroupAggregate fn then points else points.insertionSort fun p q => p.1 ≤ q.1

def windowOf (window t : Int64) : Option Int64 := if window ≤ 0 then none else some (windowStart window t)

def rowWindow (window t : Int64) : Option Int64 := if window ≤ 0 then none else some t

def aggregateOf (fn : GoString) (points : List (Int64 × FieldValue)) : Except AggregateError FieldValue :=
  if streamableGroupAggregate fn then do
    let s ← points.foldlM (IncrementalAggregateState.add go) (newIncrementalAggregateState fn)
    let value ← s.value go
    .ok value.1
  else aggregateValuesByTime go points fn

def earliest (points : List (Int64 × FieldValue)) : Option Int64 :=
  (points.insertionSort fun p q => p.1 ≤ q.1).head?.map Prod.fst

def latest (points : List (Int64 × FieldValue)) : Option Int64 :=
  (points.insertionSort fun p q => p.1 ≤ q.1).getLast?.map Prod.fst

def standing (window : Int64) (fn : GoString) (points : List (Int64 × FieldValue)) : List Int64 :=
  if window ≤ 0 then (if AggregateFunction.parse fn = some .last then latest points else earliest points).toList
  else points.map fun p => windowStart window p.1

/-- The accumulators are those of the groups: their keys tell them apart, no column feeds one twice, and the
windows of a function that collects its points are those of the timestamps. -/
structure PlainGroups (specs : List AggregateSpec) (names : List GoString) (window : Int64)
    (columns : List ColumnSeries) : Prop where
  keys : ∀ a ∈ groupAggregates go specs names columns, ∀ b ∈ groupAggregates go specs names columns,
    a.key names = b.key names → a = b
  once : ∀ c ∈ columns, ((specs.filter fun spec => spec.appliesTo c.fieldName).map fun spec =>
    go.toLower spec.function).Nodup
  windows : 0 < window → ∀ a ∈ groupAggregates go specs names columns,
    streamableGroupAggregate a.function = false →
      ∀ p ∈ groupPoints names columns a, 0 ≤ p.1 ∧ WindowFits window p.1

structure ColumnOf (window : Int64) (a : GroupAggregate) (points : List (Int64 × FieldValue)) (c : ColumnSeries) :
    Prop where
  seriesID : c.seriesID = 0
  tags : c.tags = a.tags
  fieldName : c.fieldName = aggregateName a.function a.fieldName
  times : c.points.Pairwise fun p q => p.1 < q.1
  values : ∀ t x, (t, x) ∈ c.points ↔ t ∈ standing window a.function points ∧
    aggregateOf go a.function ((orderedPoints a.function points).filter fun p =>
      windowOf window p.1 = rowWindow window t) = .ok x
  complete : ∀ t ∈ standing window a.function points, ∃ x, (t, x) ∈ c.points

end Specification

section Feeding
variable {go : GoLib} {specs : List AggregateSpec} {names : List GoString} {window : Int64}
  {columns : List ColumnSeries} {m : GoMap GoString GroupAccumulator} {a : GroupAggregate}

theorem foldlM_appendColumn (m : GoMap GoString GroupAccumulator) :
    columns.foldlM (appendColumn go specs names window) m = (groupJobs specs columns).foldlM
      (feed (fun job => (groupAggregate go names job.1 job.2).key names)
        (fun job => newGroupAccumulator (go.toLower job.2.function) job.1.fieldName
          (projectGroupTags job.1.tags names) window)
        fun acc job => job.1.points.foldlM (GroupAccumulator.add go) acc) m := by
  induction columns generalizing m with
  | nil => rfl
  | cons c columns ih =>
    rw [foldlM_cons, groupJobs, flatMap_cons, foldlM_append, foldlM_map]
    exact congrArg (appendColumn go specs names window m c >>= ·) (funext ih)

theorem foldlM_flatMap_points {jobs : List (ColumnSeries × AggregateSpec)} (acc : GroupAccumulator) :
    jobs.foldlM (fun acc job => job.1.points.foldlM (GroupAccumulator.add go) acc) acc =
      (jobs.flatMap fun job => job.1.points).foldlM (GroupAccumulator.add go) acc := by
  induction jobs generalizing acc with
  | nil => rfl
  | cons job jobs ih =>
    rw [foldlM_cons, flatMap_cons, foldlM_append]
    exact congrArg (job.1.points.foldlM (GroupAccumulator.add go) acc >>= ·) (funext ih)

theorem mem_groupAggregates : a ∈ groupAggregates go specs names columns ↔
    ∃ c ∈ columns, ∃ spec ∈ specs, spec.appliesTo c.fieldName = true ∧ a = groupAggregate go names c spec := by
  simp only [groupAggregates, groupJobs, mem_map, mem_flatMap, mem_filter]
  constructor
  · rintro ⟨_, ⟨c, hc, spec, ⟨hspec, happlies⟩, rfl⟩, rfl⟩
    exact ⟨c, hc, spec, hspec, happlies, rfl⟩
  · rintro ⟨c, hc, spec, hspec, happlies, rfl⟩
    exact ⟨(c, spec), ⟨c, hc, spec, ⟨hspec, happlies⟩, rfl⟩, rfl⟩

theorem used_of_foldlM (hm : columns.foldlM (appendColumn go specs names window) ∅ = .ok m) {k : GoString}
    (h : m.get? k = some acc) : ∃ a ∈ groupAggregates go specs names columns,
      a.key names = k ∧ (usedPoints go specs names columns k).foldlM (GroupAccumulator.add go) (a.accumulator window) =
        .ok acc := by
  rw [foldlM_appendColumn] at hm
  have hfed := fed_of_foldlM hm k
  rw [h] at hfed
  cases hfed with
  | used first rest _ hitems hfold =>
    have hmem : first ∈ (groupJobs specs columns).filter fun job =>
        (groupAggregate go names job.1 job.2).key names = k := by
      rw [hitems]
      exact mem_cons_self
    obtain ⟨hjob, hkey⟩ := mem_filter.mp hmem
    refine ⟨groupAggregate go names first.1 first.2, mem_map_of_mem hjob, of_decide_eq_true hkey, ?_⟩
    rwa [foldlM_flatMap_points, ← hitems] at hfold

theorem length_specs_eq_repeats (hfield : c.fieldName = a.fieldName) (htags : projectGroupTags c.tags names = a.tags) :
    ((specs.filter fun spec => spec.appliesTo c.fieldName).filter fun spec =>
      groupAggregate go names c spec = a).length = repeats go specs a := by
  rw [repeats, count_eq_countP, countP_map, countP_eq_length_filter, hfield]
  congr 1
  refine filter_congr fun spec _ => ?_
  rw [Function.comp_apply, beq_eq_decide, decide_eq_decide, groupAggregate, GroupAggregate.ext_iff]
  simp [hfield, htags]

theorem flatMap_jobs (a : GroupAggregate) :
    ((groupJobs specs columns).filter fun job => groupAggregate go names job.1 job.2 = a).flatMap
      (fun job => job.1.points) =
    (columns.filter fun c => c.fieldName = a.fieldName && projectGroupTags c.tags names = a.tags).flatMap
      fun c => (List.replicate (repeats go specs a) c.points).flatten := by
  induction columns with
  | nil => rfl
  | cons c columns ih =>
    rw [groupJobs, flatMap_cons, filter_append, flatMap_append, ← groupJobs, ih, filter_map, filter_cons]
    by_cases hmatch : c.fieldName = a.fieldName ∧ projectGroupTags c.tags names = a.tags
    · rw [if_pos (by simpa using hmatch), flatMap_cons, ← length_specs_eq_repeats hmatch.1 hmatch.2]
      congr 1
      simp [flatMap_def, Function.comp_def]
    · have hnone : (specs.filter fun spec => spec.appliesTo c.fieldName).filter
          ((fun job => decide (groupAggregate go names job.1 job.2 = a)) ∘ fun spec => (c, spec)) = [] := by
        refine filter_eq_nil_iff.mpr fun s _ heq => hmatch ?_
        have heq := of_decide_eq_true heq
        rw [← heq]
        exact ⟨rfl, rfl⟩
      rw [hnone, if_neg (by simpa using hmatch)]
      rfl

theorem exists_accumulator (hm : columns.foldlM (appendColumn go specs names window) ∅ = .ok m)
    (ha : a ∈ groupAggregates go specs names columns) : ∃ acc, m.get? (a.key names) = some acc := by
  rw [foldlM_appendColumn] at hm
  obtain ⟨job, hjob, rfl⟩ := mem_map.mp ha
  exact Option.isSome_iff_exists.mp ((fed_of_foldlM hm _).isSome_iff.mpr ⟨job, hjob, rfl⟩)

theorem usedPoints_key (hkeys : ∀ b ∈ groupAggregates go specs names columns, b.key names = a.key names → b = a) :
    usedPoints go specs names columns (a.key names) =
      (columns.filter fun c => c.fieldName = a.fieldName && projectGroupTags c.tags names = a.tags).flatMap
        fun c => (List.replicate (repeats go specs a) c.points).flatten := by
  have hsame : (groupJobs specs columns).filter (fun job =>
        (groupAggregate go names job.1 job.2).key names = a.key names) =
      (groupJobs specs columns).filter fun job => groupAggregate go names job.1 job.2 = a := by
    refine filter_congr fun job hjob => decide_eq_decide.mpr ⟨fun hkey => ?_, fun heq => heq ▸ rfl⟩
    exact hkeys _ (mem_map_of_mem hjob) hkey
  rw [usedPoints, hsame, flatMap_jobs]

theorem repeats_eq_one (ha : a ∈ groupAggregates go specs names columns) (hfield : c.fieldName = a.fieldName) (hnodup : ((specs.filter fun spec => spec.appliesTo c.fieldName).map
      fun spec => go.toLower spec.function).Nodup) : repeats go specs a = 1 := by
  obtain ⟨d, -, spec, hspec, happlies, rfl⟩ := mem_groupAggregates.mp ha
  rw [hfield] at hnodup
  exact count_eq_one_of_mem hnodup (mem_map.mpr ⟨spec, mem_filter.mpr ⟨hspec, happlies⟩, rfl⟩)

/-- The accumulator of each aggregate has taken in the points of its group, and there are no others. -/
theorem accumulators_spec (h : PlainGroups go specs names window columns)
    (hm : columns.foldlM (appendColumn go specs names window) ∅ = .ok m) :
    (∀ a ∈ groupAggregates go specs names columns, ∃ acc, m.get? (a.key names) = some acc) ∧
      ∀ k acc, m.get? k = some acc → ∃ a ∈ groupAggregates go specs names columns, k = a.key names ∧
        (groupPoints names columns a).foldlM (GroupAccumulator.add go)
          (newGroupAccumulator a.function a.fieldName a.tags window) = .ok acc := by
  refine ⟨fun a ha => exists_accumulator hm ha, fun k acc hget => ?_⟩
  obtain ⟨a, ha, rfl, hfold⟩ := used_of_foldlM hm hget
  obtain ⟨c, hc, spec, -, -, heq⟩ := mem_groupAggregates.mp ha
  have hone : repeats go specs a = 1 := repeats_eq_one ha (by rw [heq]; rfl) (h.once c hc)
  have hused : usedPoints go specs names columns (a.key names) = groupPoints names columns a := by
    rw [usedPoints_key fun b hb => h.keys b hb a ha, hone]
    simp [groupPoints]
  exact ⟨a, ha, rfl, hused ▸ hfold⟩

end Feeding

section Materialize
variable {go : GoLib} {window : Int64} {a : GroupAggregate} {points : List (Int64 × FieldValue)}
  {s : IncrementalAggregateState}

theorem foldlM_add_collecting (hfn : streamableGroupAggregate a.function = false) :
    points.foldlM (GroupAccumulator.add go) (a.accumulator window) =
      .ok { a.accumulator window with points := points } := by
  induction points using List.reverseRecOn with
  | nil => rfl
  | append_singleton points p ih =>
    refine foldlM_concat ih ?_
    unfold GroupAccumulator.add
    rw [if_pos (by simp [GroupAggregate.accumulator, newGroupAccumulator, hfn, GoMap.size])]

theorem foldlM_add_whole (hfn : streamableGroupAggregate a.function = true) (hwindow : window ≤ 0) :
    points.foldlM (GroupAccumulator.add go) (a.accumulator window) =
      (points.foldlM (IncrementalAggregateState.add go) (newIncrementalAggregateState a.function)).map
        fun s => { a.accumulator window with state := some s } := by
  have hstart : a.accumulator window =
      { a.accumulator window with state := some (newIncrementalAggregateState a.function) } := by
    rw [GroupAggregate.accumulator, newGroupAccumulator, if_pos hfn]
  rw [hstart]
  refine foldlM_wrap (fun s => { a.accumulator window with state := some s }) (fun s p => ?_) points _
  unfold GroupAccumulator.add
  rw [if_neg (by simp), if_pos (by exact hwindow)]

theorem foldlM_add_windowed (hfn : streamableGroupAggregate a.function = true) (hwindow : ¬ window ≤ 0) :
    points.foldlM (GroupAccumulator.add go) (a.accumulator window) =
      (points.foldlM (feed (fun p => windowStart window p.1)
        (fun _ => newIncrementalAggregateState a.function) (IncrementalAggregateState.add go)) ∅).map
        fun m => { a.accumulator window with windows := m } := by
  refine foldlM_wrap (fun m => { a.accumulator window with windows := m }) (fun m p => ?_) points ∅
  unfold GroupAccumulator.add feed
  rw [if_neg (by simp [GroupAggregate.accumulator, newGroupAccumulator, hfn]), if_neg (by exact hwindow)]
  change (IncrementalAggregateState.add go ((GoMap.get? m (windowStart window p.1)).getD
    (newIncrementalAggregateState a.function)) p).map _ = _
  cases ((GoMap.get? m (windowStart window p.1)).getD (newIncrementalAggregateState a.function)).add go p <;> rfl

section Times
variable (go : GoLib) (fn : GoString) (s : RunningAggregate) (t : Int64) (v : FieldValue)

theorem RunningAggregate.addNumeric_times : (s.addNumeric go v).firstTimestamp = s.firstTimestamp ∧
    (s.addNumeric go v).lastTimestamp = s.lastTimestamp := by
  unfold RunningAggregate.addNumeric
  split <;> exact ⟨rfl, rfl⟩

theorem RunningAggregate.addMode_times : (s.addMode go fn v).firstTimestamp = s.firstTimestamp ∧
    (s.addMode go fn v).lastTimestamp = s.lastTimestamp := by
  unfold RunningAggregate.addMode
  split
  · dsimp only
    split <;> exact ⟨rfl, rfl⟩
  · exact ⟨rfl, rfl⟩

theorem RunningAggregate.initial_times : (RunningAggregate.initial go fn t v).firstTimestamp = t ∧
    (RunningAggregate.initial go fn t v).lastTimestamp = t := by
  unfold RunningAggregate.initial
  rw [(RunningAggregate.addMode_times ..).1, (RunningAggregate.addMode_times ..).2,
    (RunningAggregate.addNumeric_times ..).1, (RunningAggregate.addNumeric_times ..).2]
  exact ⟨rfl, rfl⟩

theorem RunningAggregate.addFirstLast_times :
    (s.addFirstLast t v).firstTimestamp = (if t < s.firstTimestamp then t else s.firstTimestamp) ∧
      (s.addFirstLast t v).lastTimestamp = if s.lastTimestamp ≤ t then t else s.lastTimestamp := by
  unfold RunningAggregate.addFirstLast
  by_cases hfirst : t < s.firstTimestamp <;> by_cases hlast : s.lastTimestamp ≤ t <;> simp [hfirst, hlast]

theorem RunningAggregate.addByFunction_times :
    (s.addByFunction go fn t v).firstTimestamp = (if t < s.firstTimestamp then t else s.firstTimestamp) ∧
      (s.addByFunction go fn t v).lastTimestamp = if s.lastTimestamp ≤ t then t else s.lastTimestamp := by
  have hnumeric := RunningAggregate.addNumeric_times go s v
  unfold RunningAggregate.addByFunction
  rw [(RunningAggregate.addMode_times ..).1, (RunningAggregate.addMode_times ..).2, ← hnumeric.1, ← hnumeric.2]
  exact RunningAggregate.addFirstLast_times ((s.addNumeric go v).addMinMax v) t v

end Times

structure StateOf (fn : GoString) (points : List (Int64 × FieldValue)) (s : IncrementalAggregateState) : Prop where
  fn : s.fn = fn
  none : s.running = none → points = []
  first : ∀ r, s.running = some r → r.firstTimestamp ∈ points.map Prod.fst ∧ ∀ p ∈ points, r.firstTimestamp ≤ p.1
  last : ∀ r, s.running = some r → r.lastTimestamp ∈ points.map Prod.fst ∧ ∀ p ∈ points, p.1 ≤ r.lastTimestamp

theorem StateOf.add (h : StateOf fn points s) (hadd : s.add go p = .ok s') : StateOf fn (points ++ [p]) s' := by
  have hmem : p.1 ∈ (points ++ [p]).map Prod.fst := mem_map_of_mem (by simp)
  have hold : ∀ {t}, t ∈ points.map Prod.fst → t ∈ (points ++ [p]).map Prod.fst := by
    intro t ht
    rw [map_append]
    exact mem_append_left _ ht
  have hall : ∀ {P : Int64 × FieldValue → Prop}, (∀ q ∈ points, P q) → P p → ∀ q ∈ points ++ [p], P q := by
    intro P hpoints hp q hq
    rcases mem_append.mp hq with hq | hq
    · exact hpoints q hq
    · rwa [mem_singleton.mp hq]
  unfold IncrementalAggregateState.add at hadd
  split at hadd
  · next hrunning =>
    split_ifs at hadd
    cases hadd
    obtain rfl := h.none hrunning
    have htimes := RunningAggregate.initial_times go s.fn p.1 p.2
    refine ⟨h.fn, fun hnone => absurd hnone (by simp), ?_, ?_⟩
    · rintro _ ⟨⟩
      rw [htimes.1]
      exact ⟨hmem, hall (fun _ hq => (not_mem_nil hq).elim) (Int64.le_refl _)⟩
    · rintro _ ⟨⟩
      rw [htimes.2]
      exact ⟨hmem, hall (fun _ hq => (not_mem_nil hq).elim) (Int64.le_refl _)⟩
  · next r hrunning =>
    split_ifs at hadd
    cases hadd
    have htimes := RunningAggregate.addByFunction_times go s.fn { r with count := r.count + 1 } p.1 p.2
    obtain ⟨hfirst, hfirstLe⟩ := h.first r hrunning
    obtain ⟨hlast, hlastLe⟩ := h.last r hrunning
    refine ⟨h.fn, fun hnone => absurd hnone (by simp), ?_, ?_⟩
    · rintro _ ⟨⟩
      rw [htimes.1]
      split
      · next hlt => exact ⟨hmem, hall (fun q hq => Int64.le_trans (Int64.le_of_lt hlt) (hfirstLe q hq)) (Int64.le_refl _)⟩
      · next hge => exact ⟨hold hfirst, hall hfirstLe (Int64.not_lt.mp hge)⟩
    · rintro _ ⟨⟩
      rw [htimes.2]
      split
      · next hle => exact ⟨hmem, hall (fun q hq => Int64.le_trans (hlastLe q hq) hle) (Int64.le_refl _)⟩
      · next hlt => exact ⟨hold hlast, hall hlastLe (Int64.le_of_lt (Int64.not_le.mp hlt))⟩

theorem stateOf_foldlM
    (h : points.foldlM (IncrementalAggregateState.add go) (newIncrementalAggregateState fn) = .ok s) :
    StateOf fn points s := by
  induction points using List.reverseRecOn generalizing s with
  | nil =>
    obtain rfl : newIncrementalAggregateState fn = s := by simpa [pure, Except.pure] using h
    have hnone : (newIncrementalAggregateState fn).running = none := rfl
    refine ⟨rfl, fun _ => rfl, fun r hr => ?_, fun r hr => ?_⟩
    · rw [hnone] at hr
      cases hr
    · rw [hnone] at hr
      cases hr
  | append_singleton points p ih =>
    obtain ⟨s', hs', hadd⟩ := foldlM_concat_ok h
    exact (ih hs').add hadd

theorem earliest_eq (hmem : t ∈ points.map Prod.fst) (hle : ∀ p ∈ points, t ≤ p.1) : earliest points = some t := by
  have hsorted := pairwise_insertionSort (·.1 ≤ ·.1) points
  have hiff : ∀ p, p ∈ points.insertionSort (fun p q => p.1 ≤ q.1) ↔ p ∈ points := fun p => mem_insertionSort _
  obtain ⟨p, hp, rfl⟩ := mem_map.mp hmem
  unfold earliest
  generalize points.insertionSort (fun p q => p.1 ≤ q.1) = sorted at hsorted hiff
  cases sorted with
  | nil => exact absurd ((hiff p).mpr hp) not_mem_nil
  | cons q rest =>
    refine congrArg some (Int64.le_antisymm ?_ (hle q ((hiff q).mp mem_cons_self)))
    rcases mem_cons.mp ((hiff p).mpr hp) with rfl | hrest
    · exact Int64.le_refl _
    · exact (pairwise_cons.mp hsorted).1 p hrest

theorem latest_eq (hmem : t ∈ points.map Prod.fst) (hle : ∀ p ∈ points, p.1 ≤ t) : latest points = some t := by
  have hsorted := pairwise_insertionSort (·.1 ≤ ·.1) points
  have hiff : ∀ p, p ∈ points.insertionSort (fun p q => p.1 ≤ q.1) ↔ p ∈ points := fun p => mem_insertionSort _
  obtain ⟨p, hp, rfl⟩ := mem_map.mp hmem
  unfold latest
  generalize points.insertionSort (fun p q => p.1 ≤ q.1) = sorted at hsorted hiff
  cases hlast : sorted.getLast? with
  | none =>
    rw [getLast?_eq_none_iff] at hlast
    rw [hlast] at hiff
    exact absurd ((hiff p).mpr hp) not_mem_nil
  | some q =>
    obtain ⟨init, rfl⟩ := getLast?_eq_some_iff.mp hlast
    refine congrArg some (Int64.le_antisymm (hle q ((hiff q).mp (by simp))) ?_)
    rcases mem_append.mp ((hiff p).mpr hp) with hinit | heq
    · exact (pairwise_append.mp hsorted).2.2 p hinit q (mem_singleton_self q)
    · rw [mem_singleton.mp heq]
      exact Int64.le_refl _

end Materialize

section Windows
variable {window : Int64} {points : List (Int64 × FieldValue)}

theorem windowStart_mono (hw : 0 < window) (h : t ≤ t') : windowStart window t ≤ windowStart window t' := by
  have hpos : 0 < window.toInt := hw.toInt_lt
  rw [Int64.le_iff_toInt_le, toInt_windowStart hw, toInt_windowStart hw]
  exact Int.mul_le_mul_of_nonneg_right (Int.tdiv_le_tdiv hpos h.toInt_le) hpos.le

theorem lt_windowEnd_iff (hw : 0 < window) (h0 : 0 ≤ t) (hfits : WindowFits window t)
    (hle : t ≤ t') : t' < windowStart window t + window ↔ windowStart window t' = windowStart window t := by
  have hpos : 0 < window.toInt := hw.toInt_lt
  have h0 : 0 ≤ t.toInt := h0.toInt_le
  have hle := hle.toInt_le
  have hlow := (windowStart window t).le_toInt
  have hsum : (windowStart window t + window).toInt = (windowStart window t).toInt + window.toInt := by
    unfold WindowFits at hfits
    rw [Int64.toInt_add, Int.bmod_eq_of_le (by omega) (by omega)]
  have hstart : (windowStart window t).toInt = t.toInt / window.toInt * window.toInt := by
    rw [toInt_windowStart hw, Int.tdiv_eq_ediv_of_nonneg h0]
  have hstart' : (windowStart window t').toInt = t'.toInt / window.toInt * window.toInt := by
    rw [toInt_windowStart hw, Int.tdiv_eq_ediv_of_nonneg (h0.trans hle)]
  rw [Int64.lt_iff_toInt_lt, hsum, hstart, ← Int64.toInt_inj, hstart, hstart']
  have hmod' := Int.emod_add_mul_ediv t'.toInt window.toInt
  have hbound := Int.emod_lt_of_pos t'.toInt hpos
  have hquot := Int.ediv_le_ediv hpos hle
  constructor
  · intro hlt
    have hquot' : t'.toInt / window.toInt < t.toInt / window.toInt + 1 := by
      refine Int.ediv_lt_of_lt_mul hpos ?_
      rw [Int.add_mul, Int.one_mul]
      exact hlt
    rw [show t'.toInt / window.toInt = t.toInt / window.toInt by omega]
  · intro heq
    rw [Int.mul_comm] at hmod'
    omega

/-- Windows whose ends part the points like their starts do are the runs of points with one start. -/
theorem windowGroups_eq (hfuel : points.length ≤ fuel) (h : points.Pairwise fun p q =>
      (q.1 < windowStart window p.1 + window ↔ windowStart window q.1 = windowStart window p.1)) :
    windowGroups window fuel points = keyedRuns (fun p => windowStart window p.1) points := by
  induction fuel generalizing points with
  | zero =>
    obtain rfl := length_eq_zero_iff.mp (Nat.le_zero.mp hfuel)
    rw [windowGroups, keyedRuns]
    simp
  | succ fuel ih =>
    cases points with
    | nil => rw [windowGroups, keyedRuns]; simp
    | cons p points =>
      obtain ⟨hp, hrest⟩ := pairwise_cons.mp h
      have hsame : ∀ q ∈ points, decide (q.1 < windowStart window p.1 + window) =
          decide (windowStart window q.1 = windowStart window p.1) := fun q hq => decide_eq_decide.mpr (hp q hq)
      have hsub := dropWhile_sublist (l := points) fun q => decide (windowStart window q.1 = windowStart window p.1)
      rw [keyedRuns, windowGroups, (while_congr hsame).1, (while_congr hsame).2,
        ih (hsub.length_le.trans (Nat.le_of_succ_le_succ hfuel)) (hrest.sublist hsub)]

end Windows

section Columns
variable {go : GoLib} {window : Int64} {a : GroupAggregate} {points : List (Int64 × FieldValue)}
  {x : FieldValue}

theorem aggregateValuesByTime_ne_nil (h : aggregateValuesByTime go points fn = .ok x) : points ≠ [] := by
  rintro rfl
  unfold aggregateValuesByTime at h
  split at h
  · simp [aggregateRate] at h
  · simp [aggregateIRate] at h
  · simp [aggregateIncrease] at h
  · simp [aggregateDelta] at h
  · simp [aggregateValues] at h

theorem filter_windowOf_none (hwindow : window ≤ 0) (points : List (Int64 × FieldValue)) (t : Int64) :
    points.filter (fun p => windowOf window p.1 = rowWindow window t) = points := by
  refine filter_eq_self.mpr fun p _ => ?_
  rw [windowOf, rowWindow, if_pos hwindow, if_pos hwindow]
  rfl

theorem filter_windowOf_some (hwindow : ¬ window ≤ 0) (points : List (Int64 × FieldValue)) (t : Int64) :
    points.filter (fun p => windowOf window p.1 = rowWindow window t) =
      points.filter fun p => windowStart window p.1 = t := by
  refine filter_congr fun p _ => ?_
  rw [windowOf, rowWindow, if_neg hwindow, if_neg hwindow]
  simp

theorem columnOf_whole (hwindow : window ≤ 0) (ht : standing window a.function points = [t])
    (hx : aggregateOf go a.function (orderedPoints a.function points) = .ok x) (type : Option FieldType) :
    ColumnOf go window a points
      ⟨0, a.tags, 0, aggregateName a.function a.fieldName, type, [(t, x)]⟩ where
  seriesID := rfl
  tags := rfl
  fieldName := rfl
  times := pairwise_singleton _ _
  values := by
    intro t' x'
    rw [filter_windowOf_none hwindow, hx, ht, mem_singleton, mem_singleton, Except.ok.injEq, Prod.mk.injEq]
    exact and_congr_right fun _ => eq_comm
  complete := by
    intro t' ht'
    rw [ht, mem_singleton] at ht'
    exact ⟨x, by rw [ht']; exact mem_singleton_self _⟩

theorem columnOf_windows {ρ : Type} {entries : List (Int64 × ρ)}
    {read : Int64 × ρ → Except AggregateError (Int64 × FieldValue)} (hwindow : ¬ window ≤ 0)
    (hstrict : entries.Pairwise (·.1 < ·.1))
    (hstarts : ∀ t, t ∈ standing window a.function points ↔ ∃ e ∈ entries, e.1 = t)
    (hread : ∀ e pt, read e = .ok pt → pt.1 = e.1 ∧ (e ∈ entries → aggregateOf go a.function
      ((orderedPoints a.function points).filter fun p => windowStart window p.1 = e.1) = .ok pt.2))
    (hvalues : entries.mapM read = .ok values) (type : Option FieldType) :
    ColumnOf go window a points ⟨0, a.tags, 0, aggregateName a.function a.fieldName, type, values⟩ := by
  have hall := forall₂_of_mapM hvalues
  have hentry : ∀ t ∈ standing window a.function points, ∃ pt ∈ values, pt.1 = t ∧ aggregateOf go a.function
      ((orderedPoints a.function points).filter fun p => windowStart window p.1 = t) = .ok pt.2 := by
    intro t ht
    obtain ⟨e, he, rfl⟩ := (hstarts t).mp ht
    obtain ⟨pt, hpt, hvalue⟩ := exists_result_of_forall₂ hall he
    exact ⟨pt, hpt, (hread e pt hvalue).1, (hread e pt hvalue).2 he⟩
  refine ⟨rfl, rfl, rfl, ?_, fun t x => ?_, fun t ht => ?_⟩
  · refine pairwise_of_forall₂ hall hstrict fun e e' pt pt' h h' hlt => ?_
    rw [(hread e pt h).1, (hread e' pt' h').1]
    exact hlt
  · rw [filter_windowOf_some hwindow]
    constructor
    · intro hmem
      obtain ⟨e, he, hpt⟩ := exists_of_forall₂ hall hmem
      obtain ⟨rfl, hx⟩ := hread e (t, x) hpt
      exact ⟨(hstarts _).mpr ⟨e, he, rfl⟩, hx he⟩
    · rintro ⟨ht, hx⟩
      obtain ⟨pt, hpt, htime, hx'⟩ := hentry t ht
      obtain rfl : pt = (t, x) := Prod.ext htime (Except.ok.inj (hx'.symm.trans hx))
      exact hpt
  · obtain ⟨pt, hpt, rfl, -⟩ := hentry t ht
    exact ⟨pt.2, hpt⟩

theorem columnOf_streamed_whole (hfn : streamableGroupAggregate a.function = true) (hwindow : window ≤ 0)
    (hacc : points.foldlM (GroupAccumulator.add go) (a.accumulator window) = .ok acc)
    (hc : materializeGroupAccumulator go window acc = .ok c) : ColumnOf go window a points c := by
  rw [foldlM_add_whole hfn hwindow] at hacc
  obtain ⟨s, hs, rfl⟩ := except_map_ok hacc
  unfold materializeGroupAccumulator GroupAccumulator.materialize at hc
  rw [if_pos (by simp), if_pos (by exact hwindow)] at hc
  obtain ⟨⟨x, t⟩, hvalue, hc⟩ := except_bind_ok hc
  cases hc
  have hstate := stateOf_foldlM hs
  refine columnOf_whole hwindow ?_ ?_ _
  · cases hrunning : s.running with
    | none =>
      rw [IncrementalAggregateState.value, hrunning] at hvalue
      cases hvalue
    | some r =>
      rw [IncrementalAggregateState.value, hrunning] at hvalue
      obtain ⟨v, -, hpair⟩ := except_map_ok hvalue
      obtain ⟨-, rfl⟩ := Prod.mk.inj hpair
      obtain ⟨hfirst, hfirstLe⟩ := hstate.first r hrunning
      obtain ⟨hlast, hlastLe⟩ := hstate.last r hrunning
      rw [standing, if_pos hwindow, earliest_eq hfirst hfirstLe, latest_eq hlast hlastLe, hstate.fn,
        RunningAggregate.outputTimestamp]
      split <;> rfl
  · rw [aggregateOf, orderedPoints, if_pos hfn, if_pos hfn, hs]
    change (s.value go >>= fun value => Except.ok value.1) = _
    rw [hvalue]
    rfl

theorem columnOf_streamed_windowed (hfn : streamableGroupAggregate a.function = true) (hwindow : ¬ window ≤ 0)
    (hacc : points.foldlM (GroupAccumulator.add go) (a.accumulator window) = .ok acc)
    (hc : materializeGroupAccumulator go window acc = .ok c) : ColumnOf go window a points c := by
  rw [foldlM_add_windowed hfn hwindow] at hacc
  obtain ⟨m, hm, rfl⟩ := except_map_ok hacc
  have hfed := fed_of_foldlM hm
  unfold materializeGroupAccumulator GroupAccumulator.materialize at hc
  rw [if_pos (by simp [GroupAggregate.accumulator, newGroupAccumulator, hfn]), if_neg (by exact hwindow)] at hc
  obtain ⟨values, hvalues, hc⟩ := except_bind_ok hc
  cases hc
  have hstrict : (sortedEntries m).Pairwise (·.1 < ·.1) := by
    refine ((pairwise_sortedEntries m).and (pairwise_map.mp (nodup_sortedEntries m))).imp ?_
    exact fun {e e'} h => Int64.lt_of_le_of_ne h.1 h.2
  refine columnOf_windows hwindow hstrict (fun t => ?_) (fun e pt h => ?_) hvalues _
  · rw [standing, if_neg hwindow, mem_map, ← (hfed t).isSome_iff, Option.isSome_iff_exists]
    constructor
    · rintro ⟨s, hs⟩
      exact ⟨(t, s), mem_sortedEntries.mpr hs, rfl⟩
    · rintro ⟨e, he, rfl⟩
      exact ⟨e.2, mem_sortedEntries.mp he⟩
  · obtain ⟨⟨x, t⟩, hvalue, h⟩ := except_bind_ok h
    cases h
    refine ⟨rfl, fun he => ?_⟩
    have hk := hfed e.1
    rw [mem_sortedEntries.mp he] at hk
    cases hk with
    | used first rest _ hitems hfold =>
      rw [orderedPoints, if_pos hfn, aggregateOf, if_pos hfn, hitems, hfold]
      change (e.2.value go >>= fun value => Except.ok value.1) = _
      rw [hvalue]
      rfl

theorem columnOf_collected (hfn : streamableGroupAggregate a.function = false)
    (hfits : 0 < window → ∀ p ∈ points, 0 ≤ p.1 ∧ WindowFits window p.1)
    (hacc : points.foldlM (GroupAccumulator.add go) (a.accumulator window) = .ok acc)
    (hc : materializeGroupAccumulator go window acc = .ok c) : ColumnOf go window a points c := by
  have hfn' : ¬ streamableGroupAggregate a.function = true := by simp [hfn]
  rw [foldlM_add_collecting hfn] at hacc
  cases hacc
  have hsorted := pairwise_insertionSort (·.1 ≤ ·.1) points
  have hmem : ∀ p, p ∈ points.insertionSort (fun p q => p.1 ≤ q.1) ↔ p ∈ points := fun p => mem_insertionSort _
  unfold materializeGroupAccumulator at hc
  rw [if_neg (by simp [GroupAggregate.accumulator, newGroupAccumulator, hfn, GoMap.size])] at hc
  split at hc
  · next hwindow =>
    obtain ⟨x, hx, hc⟩ := except_bind_ok hc
    cases hc
    refine columnOf_whole hwindow ?_ ?_ _
    · have hlast : AggregateFunction.parse a.function ≠ some .last := by
        intro hparse
        simp [streamableGroupAggregate, hparse] at hfn
      have hne := aggregateValuesByTime_ne_nil hx
      rw [standing, if_pos hwindow, if_neg hlast, earliest]
      change _ = [groupAggregateTimestamp _ a.function]
      rw [groupAggregateTimestamp, if_neg hlast]
      cases hs : points.insertionSort fun p q => p.1 ≤ q.1 with
      | nil => exact absurd hs hne
      | cons p rest => rfl
    · rw [aggregateOf, orderedPoints, if_neg hfn', if_neg hfn']
      exact hx
  · next hwindow =>
    have hw : 0 < window := Int64.not_le.mp hwindow
    obtain ⟨values, hvalues, hc⟩ := except_bind_ok hc
    cases hc
    have hfits := fun p hp => hfits hw p ((hmem p).mp hp)
    rw [windowGroups_eq (Nat.le_refl _) (hsorted.imp_of_mem fun {p q} hp _ hpq =>
      lt_windowEnd_iff hw (hfits p hp).1 (hfits p hp).2 hpq)] at hvalues
    obtain ⟨hpairwise, hfilter⟩ := keyedRuns_spec (fun _ _ => Int64.le_antisymm)
      (hsorted.imp fun {p q} hpq => windowStart_mono hw hpq)
    refine columnOf_windows hwindow (hpairwise.imp fun h => Int64.lt_of_le_of_ne h.1 h.2) (fun t => ?_)
      (fun g pt h => ?_) hvalues _
    · simp only [standing, if_neg hwindow, mem_map, ← hmem]
      constructor
      · rintro ⟨p, hp, rfl⟩
        rw [← flatMap_keyedRuns (fun p => windowStart window p.1) (points.insertionSort _)] at hp
        obtain ⟨g, hg, hp⟩ := mem_flatMap.mp hp
        exact ⟨g, hg, ((mem_keyedRuns _ hg).2 p hp).symm⟩
      · rintro ⟨g, hg, rfl⟩
        obtain ⟨p, hp⟩ := exists_mem_of_ne_nil _ (mem_keyedRuns _ hg).1
        exact ⟨p, mem_of_mem_filter (hfilter g hg ▸ hp), (mem_keyedRuns _ hg).2 p hp⟩
    · obtain ⟨x, hx, h⟩ := except_bind_ok h
      cases h
      refine ⟨rfl, fun hg => ?_⟩
      rw [orderedPoints, if_neg hfn', aggregateOf, if_neg hfn', ← hfilter g hg]
      exact hx

theorem columnOf_groupColumns
    (h : PlainGroups go specs names window columns) (hout : groupColumns go specs names window columns = .ok out) :
    (∀ c ∈ out, ∃ a ∈ groupAggregates go specs names columns,
        ColumnOf go window a (groupPoints names columns a) c) ∧
      ∀ a ∈ groupAggregates go specs names columns, ∃ c ∈ out,
        ColumnOf go window a (groupPoints names columns a) c := by
  obtain ⟨m, hm, hout⟩ := except_bind_ok hout
  obtain ⟨hall, hspec⟩ := accumulators_spec h hm
  have hcolumns := forall₂_of_mapM hout
  have hcolumn : ∀ {k acc c}, (k, acc) ∈ sortedEntries m → materializeGroupAccumulator go window acc = .ok c →
      ∃ a ∈ groupAggregates go specs names columns, k = a.key names ∧
        ColumnOf go window a (groupPoints names columns a) c := by
    intro k acc c hentry hc
    obtain ⟨a, ha, hk, hfold⟩ := hspec k acc (mem_sortedEntries.mp hentry)
    refine ⟨a, ha, hk, ?_⟩
    cases hfn : streamableGroupAggregate a.function with
    | false => exact columnOf_collected hfn (fun hw => h.windows hw a ha hfn) hfold hc
    | true =>
      by_cases hwindow : window ≤ 0
      · exact columnOf_streamed_whole hfn hwindow hfold hc
      · exact columnOf_streamed_windowed hfn hwindow hfold hc
  constructor
  · intro c hc
    obtain ⟨e, he, hmat⟩ := exists_of_forall₂ hcolumns hc
    obtain ⟨a, ha, -, hof⟩ := hcolumn he hmat
    exact ⟨a, ha, hof⟩
  · intro a ha
    obtain ⟨acc, hacc⟩ := hall a ha
    have hentry := mem_sortedEntries.mpr hacc
    obtain ⟨c, hc, hmat⟩ := exists_result_of_forall₂ hcolumns hentry
    obtain ⟨b, hb, hkey, hof⟩ := hcolumn hentry hmat
    obtain rfl := h.keys a ha b hb hkey
    exact ⟨c, hc, hof⟩

end Columns

end Mts.Queryexec
