import Mts.Queryexec.Rows

/-! Aggregation of columns without grouping, `queryexec/aggregate.go`, `aggregate_numeric.go` and
`aggregate_timeseries.go`. What the code takes from Go's library is a parameter: lower case, the float
operations, the sort of floats and the `%g` format. Aggregation keeps the columns of a stream apart: an
aggregated column is known by its series, its function and its field. -/

namespace Mts.Queryexec
open Lib Model List

variable {points : List (Int64 × FieldValue)} {window : Int64} {fn : GoString} {c : ColumnSeries}

structure GoLib where
  toLower : GoString → GoString
  add : UInt64 → UInt64 → UInt64
  sub : UInt64 → UInt64 → UInt64
  mul : UInt64 → UInt64 → UInt64
  div : UInt64 → UInt64 → UInt64
  sqrt : UInt64 → UInt64
  sortFloats : List UInt64 → List UInt64
  formatFloat : UInt64 → GoString

variable {go : GoLib}

inductive AggregateFunction
  | count | sum | avg | min | max | first | last | rate | irate | increase | delta | spread | median | mode
  | stddev | stdvar | top | bottom | difference | derivative
  deriving DecidableEq, Repr

namespace AggregateFunction

def name : AggregateFunction → GoString
  | count => Engine.asciiBytes "count"
  | sum => Engine.asciiBytes "sum"
  | avg => Engine.asciiBytes "avg"
  | min => Engine.asciiBytes "min"
  | max => Engine.asciiBytes "max"
  | first => Engine.asciiBytes "first"
  | last => Engine.asciiBytes "last"
  | rate => Engine.asciiBytes "rate"
  | irate => Engine.asciiBytes "irate"
  | increase => Engine.asciiBytes "increase"
  | delta => Engine.asciiBytes "delta"
  | spread => Engine.asciiBytes "spread"
  | median => Engine.asciiBytes "median"
  | mode => Engine.asciiBytes "mode"
  | stddev => Engine.asciiBytes "stddev"
  | stdvar => Engine.asciiBytes "stdvar"
  | top => Engine.asciiBytes "top"
  | bottom => Engine.asciiBytes "bottom"
  | difference => Engine.asciiBytes "difference"
  | derivative => Engine.asciiBytes "derivative"

def all : List AggregateFunction :=
  [count, sum, avg, min, max, first, last, rate, irate, increase, delta, spread, median, mode, stddev, stdvar,
    top, bottom, difference, derivative]

def parse (fn : GoString) : Option AggregateFunction := all.find? fun f => f.name = fn

end AggregateFunction

/-- The errors of aggregation; `what` is the name that the text starts with. -/
inductive AggregateError
  | functionEmpty
  | noValues (fn : GoString)
  | unsupported (fn : GoString)
  | unsupportedType (what : String) (type : FieldType)
  | notNumeric (what : String)
  | tooFewValues (what : String)
  | notIncreasing (what : String)
  | mixedTypes (fn : GoString)
  | requiresNumeric (fn : GoString)
  deriving DecidableEq, Repr

def float64Field : FieldValue → UInt64
  | .float64 bits => bits
  | _ => 0

def int64Field : FieldValue → Int64
  | .int64 value => value
  | _ => 0

def numericValues (values : List FieldValue) : Bool := values.all Engine.isNumericFieldValue

def allIntValues (values : List FieldValue) : Bool := values.all fun v => v.type = .int64

def lenFloat (values : List FieldValue) : UInt64 := Float64.ofInt64 (Int64.ofNat values.length)

def nanosPerSecond : UInt64 := Float64.ofInt64 1000000000

section
variable (go : GoLib)

def elapsedSeconds (start stop : Int64) : UInt64 := go.div (Float64.ofInt64 (stop - start)) nanosPerSecond

def aggregateSum (values : List FieldValue) : Except AggregateError FieldValue :=
  match values with
  | .float64 _ :: _ => .ok (.float64 (values.foldl (fun sum v => go.add sum (float64Field v)) 0))
  | .int64 _ :: _ => .ok (.int64 (values.foldl (fun sum v => sum + int64Field v) 0))
  | v :: _ => .error (.unsupportedType "sum" v.type)
  | [] => .error (.noValues [])

def aggregateAvg (values : List FieldValue) : Except AggregateError FieldValue := do
  match ← aggregateSum go values with
  | .float64 sum => .ok (.float64 (go.div sum (lenFloat values)))
  | sum => .ok (.float64 (go.div (Float64.ofInt64 (int64Field sum)) (lenFloat values)))

def aggregateFloatMinMax (values : List FieldValue) (min : Bool) : FieldValue :=
  .float64 (values.tail.foldl (fun best v =>
    if (min && Float64.lt (float64Field v) best) || (!min && Float64.lt best (float64Field v)) then float64Field v
    else best) ((values.head?.map float64Field).getD 0))

def aggregateIntMinMax (values : List FieldValue) (min : Bool) : FieldValue :=
  .int64 (values.tail.foldl (fun best v =>
    if (min && decide (int64Field v < best)) || (!min && decide (best < int64Field v)) then int64Field v
    else best) ((values.head?.map int64Field).getD 0))

def aggregateMinMax (values : List FieldValue) (min : Bool) : Except AggregateError FieldValue :=
  match values with
  | .float64 _ :: _ => .ok (aggregateFloatMinMax values min)
  | .int64 _ :: _ => .ok (aggregateIntMinMax values min)
  | v :: _ => .error (.unsupportedType "min/max" v.type)
  | [] => .error (.noValues [])

def counterPairIncrease (previous current : FieldValue) : Except AggregateError UInt64 :=
  if !Engine.isNumericFieldValue previous || !Engine.isNumericFieldValue current then
    .error (.notNumeric "rate")
  else
    let left := Engine.fieldValueAsFloat previous
    let right := Engine.fieldValueAsFloat current
    .ok (if Float64.le left right then go.sub right left else right)

def counterIncrease (values : List FieldValue) : Except AggregateError UInt64 :=
  (values.zip values.tail).foldlM (fun total pair => do
    let increase ← counterPairIncrease go pair.1 pair.2
    .ok (go.add total increase)) 0

/-- `timestamps` is empty where the caller has none. -/
def aggregateRate (values : List FieldValue) (timestamps : List Int64) : Except AggregateError FieldValue :=
  if values.length < 2 then .error (.tooFewValues "rate")
  else do
    let increase ← counterIncrease go values
    let seconds :=
      if timestamps.length = values.length then
        elapsedSeconds go (timestamps.head?.getD 0) (timestamps.getLast?.getD 0)
      else Float64.ofInt64 (Int64.ofNat (values.length - 1))
    if Float64.le seconds 0 then .error (.notIncreasing "rate") else .ok (.float64 (go.div increase seconds))

def aggregateIRate (values : List FieldValue) (timestamps : List Int64) : Except AggregateError FieldValue :=
  match values.reverse with
  | current :: previous :: _ => do
    let increase ← counterPairIncrease go previous current
    let seconds :=
      if timestamps.length = values.length then
        elapsedSeconds go (timestamps.reverse.tail.headD 0) (timestamps.reverse.headD 0)
      else Float64.ofInt64 1
    if Float64.le seconds 0 then .error (.notIncreasing "irate") else .ok (.float64 (go.div increase seconds))
  | _ => .error (.tooFewValues "irate")

def aggregateIncrease (values : List FieldValue) : Except AggregateError FieldValue :=
  if values.length < 2 then .error (.tooFewValues "increase")
  else (counterIncrease go values).map .float64

def aggregateDelta (values : List FieldValue) : Except AggregateError FieldValue :=
  match values, values.getLast? with
  | first :: _ :: _, some last =>
    if !Engine.isNumericFieldValue first || !Engine.isNumericFieldValue last then .error (.notNumeric "delta")
    else
      match first, last with
      | .int64 a, .int64 b => .ok (.int64 (b - a))
      | _, _ => .ok (.float64 (go.sub (Engine.fieldValueAsFloat last) (Engine.fieldValueAsFloat first)))
  | _, _ => .error (.tooFewValues "delta")

def aggregateSpread (values : List FieldValue) : Except AggregateError FieldValue := do
  let minValue ← aggregateMinMax values true
  let maxValue ← aggregateMinMax values false
  match minValue, maxValue with
  | .int64 a, .int64 b => .ok (.int64 (b - a))
  | _, _ => .ok (.float64 (go.sub (Engine.fieldValueAsFloat maxValue) (Engine.fieldValueAsFloat minValue)))

def aggregateMedian (values : List FieldValue) : Except AggregateError FieldValue :=
  if !numericValues values then .error (.notNumeric "median")
  else
    let sorted := go.sortFloats (values.map Engine.fieldValueAsFloat)
    let mid := sorted.length / 2
    if sorted.length % 2 = 1 then .ok (.float64 (sorted.getD mid 0))
    else .ok (.float64 (go.div (go.add (sorted.getD (mid - 1) 0) (sorted.getD mid 0)) (Float64.ofInt64 2)))

def fieldValueKey : FieldValue → GoString
  | .float64 bits => Engine.asciiBytes "f:" ++ go.formatFloat bits
  | .int64 value => Engine.asciiBytes "i:" ++ (if value < 0 then [45] else []) ++ Engine.decimal value.toInt.natAbs
  | .string value => Engine.asciiBytes "s:" ++ value
  | .bool true => Engine.asciiBytes "b:true"
  | .bool false => Engine.asciiBytes "b:false"

/-- The first value whose key has been counted more often than any before; `seen` holds the keys so far. -/
def aggregateMode (values : List FieldValue) : FieldValue :=
  (values.foldl (fun (state : List GoString × FieldValue × Nat) v =>
    let seen := fieldValueKey go v :: state.1
    let count := seen.count (fieldValueKey go v)
    if state.2.2 < count then (seen, v, count) else (seen, state.2))
    ([], values.headD (.int64 0), 0)).2.1

def aggregateStd (values : List FieldValue) (sqrt : Bool) : Except AggregateError FieldValue :=
  if !numericValues values then .error (.notNumeric "stddev/stdvar")
  else do
    let mean ← aggregateAvg go values
    let total := values.foldl (fun sum v =>
      let delta := go.sub (Engine.fieldValueAsFloat v) (float64Field mean)
      go.add sum (go.mul delta delta)) 0
    let variance := go.div total (lenFloat values)
    .ok (.float64 (if sqrt then go.sqrt variance else variance))

def aggregateValues (values : List FieldValue) (fn : GoString) : Except AggregateError FieldValue :=
  match values, values.getLast? with
  | first :: _, some last =>
    match AggregateFunction.parse fn with
    | some .count => .ok (.int64 (Int64.ofNat values.length))
    | some .sum => aggregateSum go values
    | some .avg => aggregateAvg go values
    | some .min => aggregateMinMax values true
    | some .max => aggregateMinMax values false
    | some .first => .ok first
    | some .last => .ok last
    | some .rate => aggregateRate go values []
    | some .irate => aggregateIRate go values []
    | some .increase => aggregateIncrease go values
    | some .delta => aggregateDelta go values
    | some .spread => aggregateSpread go values
    | some .median => aggregateMedian go values
    | some .mode => .ok (aggregateMode go values)
    | some .stddev => aggregateStd go values true
    | some .stdvar => aggregateStd go values false
    | some .top => aggregateMinMax values false
    | some .bottom => aggregateMinMax values true
    | some .difference | some .derivative | none => .error (.unsupported fn)
  | _, _ => .error (.noValues fn)

def aggregateValuesByTime (points : List (Int64 × FieldValue)) (fn : GoString) : Except AggregateError FieldValue :=
  let values := points.map Prod.snd
  let timestamps := points.map Prod.fst
  match AggregateFunction.parse fn with
  | some .rate => aggregateRate go values timestamps
  | some .irate => aggregateIRate go values timestamps
  | some .increase => aggregateIncrease go values
  | some .delta => aggregateDelta go values
  | _ => aggregateValues go values fn

def transformAggregate (fn : GoString) : Bool :=
  match AggregateFunction.parse fn with
  | some .difference | some .derivative => true
  | _ => false

/-- `none` where the elapsed time is not positive. -/
def transformValue (previous current : Int64 × FieldValue) (fn : GoString) :
    Except AggregateError (Option FieldValue) :=
  if !Engine.isNumericFieldValue previous.2 || !Engine.isNumericFieldValue current.2 then
    .error (.notNumeric (if AggregateFunction.parse fn = some .difference then "difference" else "derivative"))
  else
    let diff := go.sub (Engine.fieldValueAsFloat current.2) (Engine.fieldValueAsFloat previous.2)
    if AggregateFunction.parse fn = some .difference then
      match previous.2, current.2 with
      | .int64 a, .int64 b => .ok (some (.int64 (b - a)))
      | _, _ => .ok (some (.float64 diff))
    else
      let seconds := elapsedSeconds go previous.1 current.1
      if Float64.le seconds 0 then .ok none else .ok (some (.float64 (go.div diff seconds)))

def aggregateTransformColumn (out column : ColumnSeries) (fn : GoString) : Except AggregateError ColumnSeries := do
  let points ← (column.points.zip column.points.tail).mapM fun pair => do
    let value ← transformValue go pair.1 pair.2 fn
    .ok (value.map fun v => (pair.2.1, v))
  .ok { out with
    fieldType := some (if AggregateFunction.parse fn = some .difference && allIntValues (column.points.map Prod.snd)
      then .int64 else .float64)
    points := points.filterMap id }

def aggregateTimestamp (column : ColumnSeries) (fn : GoString) : Int64 :=
  if AggregateFunction.parse fn = some .last then (column.points.getLast?.map Prod.fst).getD 0
  else (column.points.head?.map Prod.fst).getD 0

def aggregateWholeColumn (out column : ColumnSeries) (fn : GoString) : Except AggregateError ColumnSeries := do
  let value ← aggregateValuesByTime go column.points fn
  .ok { out with fieldType := some value.type, points := [(aggregateTimestamp column fn, value)] }

def windowStart (window t : Int64) : Int64 := t / window * window

/-- The points from one that opens a window up to the first one past it. The fuel is the number of
points, of which each window takes one at least. -/
def windowGroups (window : Int64) : Nat → List (Int64 × FieldValue) → List (Int64 × List (Int64 × FieldValue))
  | fuel + 1, pt :: points =>
    let start := windowStart window pt.1
    (start, pt :: points.takeWhile fun p => p.1 < start + window) ::
      windowGroups window fuel (points.dropWhile fun p => p.1 < start + window)
  | _, _ => []

def aggregateWindowedColumn (out column : ColumnSeries) (fn : GoString) (window : Int64) :
    Except AggregateError ColumnSeries := do
  let points ← (windowGroups window column.points.length column.points).mapM fun group => do
    let value ← aggregateValuesByTime go group.2 fn
    .ok (group.1, value)
  .ok { out with fieldType := points.getLast?.map fun pt => pt.2.type, points := points }

def aggregateColumnOrdered (points : List (Int64 × FieldValue)) : Bool :=
  (points.zip points.tail).all fun pair => decide (pair.1.1 < pair.2.1)

def keepLastOfTime : List (Int64 × FieldValue) → List (Int64 × FieldValue)
  | a :: b :: points => if a.1 = b.1 then keepLastOfTime (b :: points) else a :: keepLastOfTime (b :: points)
  | points => points

def normalizeAggregateColumn (column : ColumnSeries) : ColumnSeries :=
  if aggregateColumnOrdered column.points then column
  else { column with points := keepLastOfTime (column.points.insertionSort fun a b => a.1 ≤ b.1) }

def aggregateColumnBySpec (column : ColumnSeries) (spec : AggregateSpec) (window : Int64) :
    Except AggregateError ColumnSeries :=
  let fn := go.toLower spec.function
  if fn.isEmpty then .error .functionEmpty
  else
    let out : ColumnSeries := { column with
      fieldName := fn ++ [40] ++ column.fieldName ++ [41], fieldType := none, points := [] }
    if window ≤ 0 then
      if transformAggregate fn then aggregateTransformColumn go out column fn
      else aggregateWholeColumn go out column fn
    else aggregateWindowedColumn go out column fn window

def aggregateColumn (specs : List AggregateSpec) (window : Int64) (column : ColumnSeries) :
    Except AggregateError (List ColumnSeries) :=
  let normalized := normalizeAggregateColumn column
  (specs.filter fun spec => spec.field.isEmpty || spec.field = normalized.fieldName).mapM fun spec =>
    aggregateColumnBySpec go normalized spec window

/-- `NewAggregateColumnStream`. -/
def aggregateColumnStream (specs : List AggregateSpec) (window : Int64) (columns : List ColumnSeries) :
    Except AggregateError (List ColumnSeries) := do
  let out ← columns.mapM (aggregateColumn go specs window)
  .ok out.flatten

end

theorem decimal_ne_minus (n m : Nat) : Engine.decimal n ≠ 45 :: Engine.decimal m := by
  intro h
  have hmem : (45 : UInt8) ∈ Engine.decimal n := by
    rw [h]
    exact mem_cons_self
  obtain ⟨c, hc, heq⟩ := mem_map.mp hmem
  obtain ⟨hnat, hge⟩ := Engine.toNat_digit_of_mem hc
  rw [heq] at hnat
  change 45 = c.toNat at hnat
  omega

theorem fieldValueKey_int64_injective (go : GoLib)
    (h : fieldValueKey go (.int64 a) = fieldValueKey go (.int64 b)) : a = b := by
  simp only [fieldValueKey, append_assoc, append_cancel_left_eq] at h
  have hsign : ∀ x : Int64, x < 0 ↔ x.toInt < 0 := fun x => Int64.lt_iff_toInt_lt
  apply Int64.toInt_inj.mp
  by_cases ha : a < 0 <;> by_cases hb : b < 0 <;>
    simp only [ha, hb, if_true, if_false, nil_append, cons_append] at h <;> rw [hsign] at ha hb
  · have := Engine.decimal_injective (List.cons.inj h).2
    omega
  · exact absurd h.symm (decimal_ne_minus _ _)
  · exact absurd h (decimal_ne_minus _ _)
  · have := Engine.decimal_injective h
    omega
theorem tdiv_mul_bounds {a w : Int} (ha : 0 ≤ a) (hw : 0 < w) :
    0 ≤ a.tdiv w ∧ a.tdiv w ≤ a ∧ 0 ≤ a.tdiv w * w ∧ a.tdiv w * w ≤ a := by
  rw [Int.tdiv_eq_ediv_of_nonneg ha]
  have hquot := Int.ediv_nonneg ha (Int.le_of_lt hw)
  exact ⟨hquot, Int.ediv_le_self w ha, Int.mul_nonneg hquot (Int.le_of_lt hw), Int.ediv_mul_le a (Int.ne_of_gt hw)⟩

theorem toInt_windowStart (hw : 0 < window) (t : Int64) :
    (windowStart window t).toInt = t.toInt.tdiv window.toInt * window.toInt := by
  have hw : 0 < window.toInt := hw.toInt_lt
  have hlow := t.le_toInt
  have hhigh := t.toInt_lt
  have hbounds : (-2 ^ 63 ≤ t.toInt.tdiv window.toInt ∧ t.toInt.tdiv window.toInt < 2 ^ 63) ∧
      -2 ^ 63 ≤ t.toInt.tdiv window.toInt * window.toInt ∧
      t.toInt.tdiv window.toInt * window.toInt < 2 ^ 63 := by
    rcases Int.le_total 0 t.toInt with ht | ht
    · obtain ⟨h1, h2, h3, h4⟩ := tdiv_mul_bounds ht hw
      omega
    · obtain ⟨h1, h2, h3, h4⟩ := tdiv_mul_bounds (Int.neg_nonneg_of_nonpos ht) hw
      rw [Int.neg_tdiv] at h1 h2 h3 h4
      rw [Int.neg_mul] at h3 h4
      omega
  have hquot : (t / window).toInt = t.toInt.tdiv window.toInt := by
    rw [Int64.toInt_div, Int.bmod_eq_of_le (by omega) (by omega)]
  rw [windowStart, Int64.toInt_mul, hquot, Int.bmod_eq_of_le (by omega) (by omega)]

def WindowFits (window t : Int64) : Prop := (windowStart window t).toInt + window.toInt < 2 ^ 63

instance (window t : Int64) : Decidable (WindowFits window t) := inferInstanceAs (Decidable (_ < _))

theorem windowStart_lt (hw : 0 < window) (hfits : WindowFits window t)
    (h : windowStart window t + window ≤ t') : windowStart window t < windowStart window t' := by
  have hpos : 0 < window.toInt := hw.toInt_lt
  have hlow := (windowStart window t).le_toInt
  have hsum : (windowStart window t + window).toInt = (windowStart window t).toInt + window.toInt := by
    unfold WindowFits at hfits
    rw [Int64.toInt_add, Int.bmod_eq_of_le (by omega) (by omega)]
  have hle : (t.toInt.tdiv window.toInt + 1) * window.toInt ≤ t'.toInt := by
    have := h.toInt_le
    rw [hsum, toInt_windowStart hw] at this
    rw [Int.add_mul, Int.one_mul]
    exact this
  have hquot : t.toInt.tdiv window.toInt + 1 ≤ t'.toInt.tdiv window.toInt := by
    have := Int.tdiv_le_tdiv hpos hle
    rwa [Int.mul_tdiv_cancel _ (Int.ne_of_gt hpos)] at this
  rw [Int64.lt_iff_toInt_lt, toInt_windowStart hw, toInt_windowStart hw]
  exact Int.mul_lt_mul_of_pos_right hquot hpos

theorem mem_windowGroups (h : group ∈ windowGroups window fuel points) :
    ∃ pt ∈ points, group.1 = windowStart window pt.1 ∧ group.2 ≠ [] := by
  induction fuel generalizing points with
  | zero => simp [windowGroups] at h
  | succ fuel ih =>
    cases points with
    | nil => simp [windowGroups] at h
    | cons pt points =>
      rcases mem_cons.mp h with rfl | h
      · exact ⟨pt, mem_cons_self, rfl, by simp⟩
      · obtain ⟨pt', hpt', hgroup⟩ := ih h
        exact ⟨pt', mem_cons_of_mem _ ((dropWhile_sublist _).subset hpt'), hgroup⟩

theorem le_of_mem_dropWhile (h : points.Pairwise (·.1 < ·.1))
    (hpt : pt ∈ points.dropWhile fun p => p.1 < bound) : bound ≤ pt.1 := by
  induction points with
  | nil => simp at hpt
  | cons a points ih =>
    obtain ⟨ha, hpoints⟩ := pairwise_cons.mp h
    rw [dropWhile_cons] at hpt
    split at hpt
    · exact ih hpoints hpt
    · next hge =>
      have hbound : bound ≤ a.1 := Int64.not_lt.mp (by simpa using hge)
      rcases mem_cons.mp hpt with rfl | hmem
      · exact hbound
      · exact Int64.le_trans hbound (Int64.le_of_lt (ha pt hmem))

/-- The windows of a column come in order, each one once. -/
theorem pairwise_windowGroups (hw : 0 < window) (fuel : Nat) (hsorted : points.Pairwise (·.1 < ·.1))
    (hfits : ∀ pt ∈ points, WindowFits window pt.1) :
    (windowGroups window fuel points).Pairwise (·.1 < ·.1) := by
  induction fuel generalizing points with
  | zero => exact List.Pairwise.nil
  | succ fuel ih =>
    cases points with
    | nil => exact List.Pairwise.nil
    | cons pt points =>
      have hrest := (pairwise_cons.mp hsorted).2
      have hsub := dropWhile_sublist (l := points) fun p => decide (p.1 < windowStart window pt.1 + window)
      refine pairwise_cons.mpr ⟨fun group hgroup => ?_, ?_⟩
      · obtain ⟨pt', hpt', hstart, -⟩ := mem_windowGroups hgroup
        rw [hstart]
        exact windowStart_lt hw (hfits pt mem_cons_self) (le_of_mem_dropWhile hrest hpt')
      · exact ih (hrest.sublist hsub) fun p hp => hfits p (mem_cons_of_mem _ (hsub.subset hp))

def aggregateName (fn field : GoString) : GoString := fn ++ [40] ++ field ++ [41]

theorem aggregateName_inj (hfn : (AggregateFunction.parse fn).isSome)
    (hfn' : (AggregateFunction.parse fn').isSome) (h : aggregateName fn field = aggregateName fn' field') :
    fn = fn' ∧ field = field' := by
  have hparen : ∀ {fn : GoString}, (AggregateFunction.parse fn).isSome → (40 : UInt8) ∉ fn := by
    intro fn hfn
    obtain ⟨f, hf⟩ := Option.isSome_iff_exists.mp hfn
    have hname : f.name = fn := by simpa using find?_some hf
    rw [← hname]
    cases f <;> decide
  -- the function is what comes before the first parenthesis
  have hread : ∀ {fn : GoString} (field : GoString), (AggregateFunction.parse fn).isSome →
      (aggregateName fn field).takeWhile (fun b => b != 40) = fn := by
    intro fn field hfn
    have hall : ∀ b ∈ fn, (b != 40) = true := by
      intro b hb
      exact bne_iff_ne.mpr fun heq => hparen hfn (heq ▸ hb)
    rw [aggregateName, append_assoc, append_assoc, takeWhile_append_of_pos hall]
    simp
  obtain rfl : fn = fn' := by rw [← hread field hfn, h, hread field' hfn']
  refine ⟨rfl, ?_⟩
  simpa [aggregateName] using h

structure AggregateOf (go : GoLib) (c : ColumnSeries) (spec : AggregateSpec) (out : ColumnSeries) : Prop where
  seriesID : out.seriesID = c.seriesID
  tags : out.tags = c.tags
  fieldName : out.fieldName = aggregateName (go.toLower spec.function) c.fieldName
  times : out.points.Pairwise fun a b => a.1 < b.1
  known : c.points ≠ [] → (AggregateFunction.parse (go.toLower spec.function)).isSome

theorem aggregateValuesByTime_known (h : aggregateValuesByTime go points fn = .ok value) :
    (AggregateFunction.parse fn).isSome := by
  cases hparse : AggregateFunction.parse fn with
  | some f => rfl
  | none =>
    have herror : aggregateValues go (points.map Prod.snd) fn = .ok value := by
      simpa only [aggregateValuesByTime, hparse] using h
    unfold aggregateValues at herror
    split at herror
    · simp only [hparse] at herror
      cases herror
    · cases herror

theorem pairwise_aggregateTransform (hsorted : points.Pairwise (·.1 < ·.1)) (h : (points.zip points.tail).mapM (fun pair => do
      let value ← transformValue go pair.1 pair.2 fn
      .ok (value.map fun v => (pair.2.1, v))) = .ok out) : (out.filterMap id).Pairwise (·.1 < ·.1) := by
  have htail : (points.zip points.tail).Pairwise (·.2.1 < ·.2.1) := by
    have hmap : ((points.zip points.tail).map Prod.snd).Pairwise (·.1 < ·.1) := by
      rw [map_snd_zip (by simp)]
      exact hsorted.tail
    exact (pairwise_map (R := fun a b : Int64 × FieldValue => a.1 < b.1)).mp hmap
  refine pairwise_filterMap.mpr (pairwise_of_forall₂ (forall₂_of_mapM h) htail ?_)
  intro pair pair' x y hx hy hlt pt hpt pt' hpt'
  obtain ⟨value, -, hx⟩ := except_bind_ok hx
  obtain ⟨value', -, hy⟩ := except_bind_ok hy
  cases hx
  cases hy
  obtain ⟨v, -, rfl⟩ := Option.map_eq_some_iff.mp hpt
  obtain ⟨v', -, rfl⟩ := Option.map_eq_some_iff.mp hpt'
  exact hlt

theorem aggregateColumnBySpec_spec (hsorted : c.points.Pairwise (·.1 < ·.1))
    (hfits : 0 < window → ∀ pt ∈ c.points, WindowFits window pt.1)
    (h : aggregateColumnBySpec go c spec window = .ok out) : AggregateOf go c spec out := by
  unfold aggregateColumnBySpec at h
  dsimp only at h
  split at h
  · cases h
  split at h
  · split at h
    · next htransform =>
      obtain ⟨points, hpoints, h⟩ := except_bind_ok h
      cases h
      refine ⟨rfl, rfl, rfl, pairwise_aggregateTransform hsorted hpoints, fun _ => ?_⟩
      unfold transformAggregate at htransform
      split at htransform <;> simp_all
    · obtain ⟨value, hvalue, h⟩ := except_bind_ok h
      cases h
      exact ⟨rfl, rfl, rfl, pairwise_singleton _ _, fun _ => aggregateValuesByTime_known hvalue⟩
  · next hwindow =>
    have hwindow : 0 < window := Int64.not_le.mp hwindow
    obtain ⟨points, hpoints, h⟩ := except_bind_ok h
    cases h
    have hgroups := forall₂_of_mapM hpoints
    refine ⟨rfl, rfl, rfl, ?_, fun hne => ?_⟩
    · refine pairwise_of_forall₂ hgroups (pairwise_windowGroups hwindow _ hsorted (hfits hwindow)) ?_
      intro group group' x y hx hy hlt
      obtain ⟨value, -, hx⟩ := except_bind_ok hx
      obtain ⟨value', -, hy⟩ := except_bind_ok hy
      cases hx
      cases hy
      exact hlt
    · obtain ⟨pt, rest, hpt⟩ := exists_cons_of_ne_nil hne
      rw [hpt, length_cons, windowGroups] at hgroups
      cases hgroups with
      | cons hfirst _ =>
        obtain ⟨value, hvalue, -⟩ := except_bind_ok hfirst
        exact aggregateValuesByTime_known hvalue

theorem normalizeAggregateColumn_of_sorted (h : c.points.Pairwise (·.1 < ·.1)) : normalizeAggregateColumn c = c := by
  have hneighbours : ∀ points : List (Int64 × FieldValue), points.Pairwise (fun a b => a.1 < b.1) →
      aggregateColumnOrdered points = true := by
    intro points hsorted
    induction points with
    | nil => rfl
    | cons a points ih =>
      obtain ⟨ha, hpoints⟩ := pairwise_cons.mp hsorted
      cases points with
      | nil => rfl
      | cons b points =>
        have ih := ih hpoints
        simp only [aggregateColumnOrdered, tail_cons, zip_cons_cons, all_cons] at ih ⊢
        rw [decide_eq_true (ha b mem_cons_self), ih]
        rfl
  rw [normalizeAggregateColumn, if_pos (hneighbours c.points h)]

section Stream
variable {go : GoLib} {specs : List AggregateSpec} {window : Int64} {columns out : List ColumnSeries}

theorem mem_aggregateColumn
    (hsorted : c.points.Pairwise (·.1 < ·.1)) (h : aggregateColumn go specs window c = .ok aggregated)
    (hd : d ∈ aggregated) : ∃ spec ∈ specs, (spec.field = [] ∨ spec.field = c.fieldName) ∧
      aggregateColumnBySpec go c spec window = .ok d := by
  unfold aggregateColumn at h
  rw [normalizeAggregateColumn_of_sorted hsorted] at h
  obtain ⟨spec, hspec, hd⟩ := exists_of_forall₂ (forall₂_of_mapM h) hd
  obtain ⟨hmem, hfield⟩ := mem_filter.mp hspec
  exact ⟨spec, hmem, by simpa using hfield, hd⟩

theorem mergeable_aggregateColumnStream (hm : MergeableColumns columns) (hne : ∀ c ∈ columns, c.points ≠ [])
    (hfits : 0 < window → ∀ c ∈ columns, ∀ pt ∈ c.points, WindowFits window pt.1)
    (h : aggregateColumnStream go specs window columns = .ok out) :
    MergeableColumns out ∧ ∀ d ∈ out, ∃ c ∈ columns, ∃ spec ∈ specs,
      (spec.field = [] ∨ spec.field = c.fieldName) ∧ AggregateOf go c spec d := by
  obtain ⟨aggregated, hok, h⟩ := except_bind_ok h
  cases h
  have hall := forall₂_of_mapM hok
  have hspec : ∀ {c : ColumnSeries}, c ∈ columns → ∀ {spec : AggregateSpec} {d : ColumnSeries},
      aggregateColumnBySpec go c spec window = .ok d → AggregateOf go c spec d := fun hc =>
    aggregateColumnBySpec_spec (hm.times _ hc) fun hw => hfits hw _ hc
  have hmem : ∀ d ∈ aggregated.flatten, ∃ c ∈ columns, ∃ spec ∈ specs,
      (spec.field = [] ∨ spec.field = c.fieldName) ∧ aggregateColumnBySpec go c spec window = .ok d := by
    intro d hd
    obtain ⟨l, hl, hd⟩ := mem_flatten.mp hd
    obtain ⟨c, hc, hl⟩ := exists_of_forall₂ hall hl
    exact ⟨c, hc, mem_aggregateColumn (hm.times c hc) hl hd⟩
  refine ⟨⟨?_, ?_, ?_, ?_⟩, ?_⟩
  · have hseries : List.Forall₂ (fun c l => ∀ d ∈ l, d.seriesID = c.seriesID) columns aggregated := by
      refine ((forall₂_and_left (p := (· ∈ columns)) columns aggregated).mpr ⟨fun c hc => hc, hall⟩).imp ?_
      rintro c l ⟨hc, hl⟩ d hd
      obtain ⟨spec, -, -, hd⟩ := mem_aggregateColumn (hm.times c hc) hl hd
      exact (hspec hc hd).seriesID
    refine pairwise_flatten.mpr ⟨fun l hl => ?_, ?_⟩
    · obtain ⟨c, -, hl⟩ := exists_of_forall₂ hseries hl
      refine pairwise_of_forall_mem_list fun d hd d' hd' => ?_
      rw [hl d hd, hl d' hd']
      exact UInt64.le_refl _
    · refine pairwise_of_forall₂ hseries hm.sorted fun c c' l l' hl hl' hle d hd d' hd' => ?_
      rw [hl d hd, hl' d' hd']
      exact hle
  · intro d hd d' hd' hid
    obtain ⟨c, hc, spec, -, -, hd⟩ := hmem d hd
    obtain ⟨c', hc', spec', -, -, hd'⟩ := hmem d' hd'
    have hd := hspec hc hd
    have hd' := hspec hc' hd'
    rw [hd.tags, hd'.tags]
    exact hm.tags c hc c' hc' (by rw [← hd.seriesID, ← hd'.seriesID, hid])
  · intro d hd
    obtain ⟨c, hc, spec, -, -, hd⟩ := hmem d hd
    exact (hspec hc hd).times
  · intro d hd d' hd' hid hname
    obtain ⟨c, hc, spec, -, -, hok⟩ := hmem d hd
    obtain ⟨c', hc', spec', -, -, hok'⟩ := hmem d' hd'
    have hd := hspec hc hok
    have hd' := hspec hc' hok'
    obtain ⟨hfn, hfield⟩ := aggregateName_inj (hd.known (hne c hc)) (hd'.known (hne c' hc'))
      (hd.fieldName.symm.trans (hname.trans hd'.fieldName))
    obtain rfl := hm.names c hc c' hc' (by rw [← hd.seriesID, ← hd'.seriesID, hid]) hfield
    -- the column depends on the lower case of the function only
    have hsame : aggregateColumnBySpec go c spec window = aggregateColumnBySpec go c spec' window := by
      unfold aggregateColumnBySpec
      rw [hfn]
    exact Except.ok.inj (hok.symm.trans (hsame.trans hok'))
  · intro d hd
    obtain ⟨c, hc, spec, hspecs, hfield, hd⟩ := hmem d hd
    exact ⟨c, hc, spec, hspecs, hfield, hspec hc hd⟩

end Stream

end Mts.Queryexec
