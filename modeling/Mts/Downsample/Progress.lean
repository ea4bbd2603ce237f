import Mts.Downsample.Aggregate
import Mts.Downsample.Coverage

/-! When a downsample run makes progress. A window fails when a function that collects its samples has got one
sample of a group, or samples at one time where it divides by the elapsed time; the run then stops before that
window. -/

namespace Mts.Downsample
open Lib Model Queryexec List

variable {points : List (Int64 × FieldValue)} {policy : DownsamplePolicy} {windows : List DownsampleWindow}
  {pt : Int64 × FieldValue} {start stop : Int64}

section Samples
variable {go : GoLib} {s : DownsampleAggregateState} {fn : AggregateFunction} {type : FieldType}
  {samples : List (Int64 × FieldValue)}

/-- The division of the elapsed time by a second is positive exactly for different times. -/
def ElapsedExact (go : GoLib) : Prop :=
  ∀ a b : Int64, 0 ≤ a → a ≤ b → Float64.le (elapsedSeconds go a b) 0 = decide (a = b)

def Spans (samples : List (Int64 × FieldValue)) : Prop := samples.head?.map Prod.fst ≠ samples.getLast?.map Prod.fst

/-- A rate or derivative has time elapsed between its samples, the instant rate between the last two. -/
def TimesDiffer (samples : List (Int64 × FieldValue)) : AggregateFunction → Prop
  | .rate | .derivative => Spans samples
  | .irate => Spans (samples.drop (samples.length - 2))
  | _ => True

def Ready (fn : AggregateFunction) (points : List (Int64 × FieldValue)) : Prop :=
  requiresSeries fn = false ∨ points = [] ∨ 2 ≤ points.length ∧ TimesDiffer (sortedSeries points) fn

inductive Collected (fn : AggregateFunction) (type : FieldType) :
    List (Int64 × FieldValue) → DownsampleAggregateState → Prop
  | unused : Collected fn type [] ⟨fn, none⟩
  | started {points : List (Int64 × FieldValue)} {r : DownsampleRunning} (hne : points ≠ [])
      (htype : r.aggregate.valueType = type) (hseries : requiresSeries fn = true → r.series = points) :
      Collected fn type points ⟨fn, some r⟩

theorem valueType_addMode (fn : GoString) (s : RunningAggregate) (value : FieldValue) :
    (s.addMode go fn value).valueType = s.valueType := by
  unfold RunningAggregate.addMode
  split
  · dsimp only
    split <;> rfl
  · rfl

theorem valueType_addFirstLast (s : RunningAggregate) (t : Int64) (value : FieldValue) :
    (s.addFirstLast t value).valueType = s.valueType := by
  unfold RunningAggregate.addFirstLast
  dsimp only
  split <;> split <;> rfl

theorem valueType_addNumeric (s : RunningAggregate) (value : FieldValue) :
    (s.addNumeric go value).valueType = s.valueType := by
  unfold RunningAggregate.addNumeric
  split <;> rfl

theorem valueType_addValue (fn : AggregateFunction) (r : DownsampleRunning) (pt : Int64 × FieldValue) :
    (addValue go fn r pt).aggregate.valueType = r.aggregate.valueType := by
  rw [addValue, valueType_addMode, valueType_addFirstLast]
  exact valueType_addNumeric r.aggregate pt.2

variable (go) in
theorem Collected.add (h : Collected fn type points s) (htype : pt.2.type = type)
    (hnumeric : Engine.isNumericFieldValue pt.2 = true) :
    ∃ s', s.add go pt = .ok s' ∧ Collected fn type (points ++ [pt]) s' := by
  cases h with
  | unused =>
    refine ⟨⟨fn, some (addValue go fn (initialRunning pt) pt)⟩, ?_, .started (by simp) ?_ fun hseries => ?_⟩
    · simp [DownsampleAggregateState.add, hnumeric]
    · rw [valueType_addValue]
      exact htype
    · simp [addValue, hseries, initialRunning]
  | @started points r hne hr hseries =>
    refine ⟨⟨fn, some (addValue go fn { r with aggregate := { r.aggregate with count := r.aggregate.count + 1 } } pt)⟩,
      ?_, .started (by simp) ?_ fun hfn => ?_⟩
    · simp [DownsampleAggregateState.add, hnumeric, htype, hr]
    · rw [valueType_addValue]
      exact hr
    · simp [addValue, hfn, hseries hfn]

theorem collected_foldlM (fn : AggregateFunction)
    (h : ∀ pt ∈ points, pt.2.type = type ∧ Engine.isNumericFieldValue pt.2 = true) :
    ∃ s, points.foldlM (DownsampleAggregateState.add go) (newDownsampleAggregateState fn) = .ok s ∧
      Collected fn type points s := by
  induction points using List.reverseRecOn with
  | nil => exact ⟨_, rfl, .unused⟩
  | append_singleton points pt ih =>
    obtain ⟨s, hs, hcollected⟩ := ih fun q hq => h q (mem_append_left _ hq)
    obtain ⟨htype, hnumeric⟩ := h pt (by simp)
    obtain ⟨s', hs', hcollected'⟩ := hcollected.add go htype hnumeric
    exact ⟨s', foldlM_concat hs hs', hcollected'⟩

theorem le_sampleSeconds (hgo : ElapsedExact go) (hne : samples ≠ [])
    (hsorted : samples.Pairwise (·.1 ≤ ·.1)) (hnonneg : ∀ s ∈ samples, 0 ≤ s.1) :
    Float64.le (sampleSeconds go samples) 0 = true ↔ ¬ Spans samples := by
  obtain ⟨first, rest, rfl⟩ := exists_cons_of_ne_nil hne
  obtain ⟨last, hlast⟩ : ∃ last, (first :: rest).getLast? = some last := ⟨_, getLast?_cons⟩
  have hle : first.1 ≤ last.1 := by
    rcases mem_cons.mp (mem_of_getLast? hlast) with heq | hmem
    · rw [heq]
      exact Int64.le_refl _
    · exact (pairwise_cons.mp hsorted).1 last hmem
  rw [sampleSeconds, Spans, hlast]
  simp only [head?_cons, Option.map_some, Option.getD_some]
  rw [hgo _ _ (hnonneg first mem_cons_self) hle]
  simp

theorem divides_ok_iff (h : Float64.le seconds 0 = true ↔ ¬ Spans samples) :
    (∃ v, (if Float64.le seconds 0 then .error error else .ok value : Except DownsampleError FieldValue).map some =
      .ok v) ↔ Spans samples := by
  by_cases hspans : Spans samples
  · rw [if_neg fun hle => h.mp hle hspans]
    exact iff_of_true ⟨_, rfl⟩ hspans
  · rw [if_pos (h.mpr hspans)]
    refine iff_of_false ?_ hspans
    rintro ⟨v, hv⟩
    cases hv

theorem Collected.value_ok_iff (hgo : ElapsedExact go) (h : Collected fn type points s)
    (hnonneg : ∀ pt ∈ points, 0 ≤ pt.1) : (∃ v, s.value go = .ok v) ↔ Ready fn points := by
  cases h with
  | unused => exact iff_of_true ⟨none, rfl⟩ (.inr (.inl rfl))
  | @started points r hne hr hseries =>
    by_cases hfn : requiresSeries fn = true
    · have hvalue : DownsampleAggregateState.value go ⟨fn, some r⟩ = (seriesValue go fn points).map some := by
        rw [← hseries hfn]
        cases fn <;> first | rfl | cases hfn
      have hsorted : (sortedSeries points).Pairwise _ := pairwise_insertionSort (·.1 ≤ ·.1) points
      have hlength : (sortedSeries points).length = points.length := length_insertionSort ..
      have hmem : ∀ pt ∈ sortedSeries points, 0 ≤ pt.1 := fun pt hpt => hnonneg pt ((mem_insertionSort _).mp hpt)
      have hready : Ready fn points ↔ 2 ≤ points.length ∧ TimesDiffer (sortedSeries points) fn := by
        rw [Ready, hfn, or_iff_right (by simp), or_iff_right hne]
      rw [hvalue, hready, ← hlength]
      unfold seriesValue
      generalize sortedSeries points = samples at hsorted hmem
      by_cases hlen : samples.length < 2
      · rw [if_pos hlen]
        refine iff_of_false ?_ fun h => absurd h.1 (Nat.not_le.mpr hlen)
        rintro ⟨v, hv⟩
        cases hv
      rw [if_neg hlen, and_iff_right (Nat.not_lt.mp hlen)]
      have hspans := le_sampleSeconds hgo (ne_nil_of_length_pos (by omega)) hsorted hmem
      cases fn with
      | rate => exact divides_ok_iff hspans
      | derivative => exact divides_ok_iff hspans
      | irate =>
        refine divides_ok_iff (le_sampleSeconds hgo ?_ hsorted.drop fun pt hpt => hmem pt (mem_of_mem_drop hpt))
        refine ne_nil_of_length_pos ?_
        rw [length_drop]
        omega
      | increase | delta | difference | median => exact iff_of_true ⟨_, rfl⟩ trivial
      | _ => cases hfn
    · refine iff_of_true ?_ (.inl (by simpa using hfn))
      cases fn <;> first | exact ⟨_, rfl⟩ | exact absurd rfl hfn

end Samples

section Window
variable {go : GoLib} {columns : List ColumnSeries} {type : GoString → FieldType}

def groupSamples (policy : DownsamplePolicy) (start stop : Int64) (columns : List ColumnSeries) (key field : GoString) :
    List (Int64 × FieldValue) :=
  (columns.filter fun c => columnPointKey policy start c = key && c.fieldName = field).flatMap fun c =>
    c.points.filter fun pt => start ≤ pt.1 && pt.1 < stop

def NumericColumns (columns : List ColumnSeries) : Prop :=
  ∃ type : GoString → FieldType, ∀ c ∈ columns, ∀ pt ∈ c.points,
    pt.2.type = type c.fieldName ∧ Engine.isNumericFieldValue pt.2 = true

def WindowReady (policy : DownsamplePolicy) (start stop : Int64) (columns : List ColumnSeries) : Prop :=
  ∀ key, ∀ f ∈ policy.functions, Ready f.function (groupSamples policy start stop columns key f.field)

def columnJobs (policy : DownsamplePolicy) (start stop : Int64) (c : ColumnSeries) :
    List ((Int64 × FieldValue) × DownsampleFunction) :=
  (c.points.filter fun pt => start ≤ pt.1 && pt.1 < stop).flatMap fun pt =>
    (downsampleFunctionsByField policy.functions c.fieldName).map fun f => (pt, f)

def addToState (go : GoLib) (policy : DownsamplePolicy) (start stop : Int64) (s : DownsamplePointState)
    (c : ColumnSeries) : Except DownsampleError DownsamplePointState :=
  (c.points.filter fun pt => start ≤ pt.1 && pt.1 < stop).foldlM
    (DownsamplePointState.add go (downsampleFunctionsByField policy.functions c.fieldName)) s

def feedColumn (go : GoLib) (policy : DownsamplePolicy) (start stop : Int64) :
    GoMap GoString DownsamplePointState → ColumnSeries → Except DownsampleError (GoMap GoString DownsamplePointState) :=
  feed (columnPointKey policy start) (fun c => newPointState policy start c.tags) (addToState go policy start stop)

def feedJob (go : GoLib) : GoMap GoString DownsampleAggregateState → (Int64 × FieldValue) × DownsampleFunction →
    Except DownsampleError (GoMap GoString DownsampleAggregateState) :=
  feed (fun job => job.2.as) (fun job => newDownsampleAggregateState job.2.function) fun s job => s.add go job.1

def usedColumns (policy : DownsamplePolicy) (columns : List ColumnSeries) : List ColumnSeries :=
  columns.filter fun c => !(downsampleFunctionsByField policy.functions c.fieldName).isEmpty

theorem foldlM_addColumn (policy : DownsamplePolicy) (start stop : Int64) (columns : List ColumnSeries)
    (m : GoMap GoString DownsamplePointState) :
    columns.foldlM (addColumn go policy start stop) m =
      (usedColumns policy columns).foldlM (feedColumn go policy start stop) m := by
  induction columns generalizing m with
  | nil => rfl
  | cons c columns ih =>
    rw [foldlM_cons, usedColumns, filter_cons]
    by_cases hused : (downsampleFunctionsByField policy.functions c.fieldName).isEmpty = true
    · rw [addColumn, if_pos hused]
      simp only [hused, Bool.not_true, Bool.false_eq_true, if_false]
      exact ih m
    · have hadd : addColumn go policy start stop m c = feedColumn go policy start stop m c := by
        rw [addColumn, if_neg hused]
        rfl
      simp only [hused, Bool.not_false, if_true, foldlM_cons, hadd]
      cases feedColumn go policy start stop m c with
      | error e => rfl
      | ok m' => exact ih m'

theorem foldlM_addToState (policy : DownsamplePolicy) (start stop : Int64) (columns : List ColumnSeries)
    (s : DownsamplePointState) :
    columns.foldlM (addToState go policy start stop) s =
      ((columns.flatMap (columnJobs policy start stop)).foldlM (feedJob go) s.fields).map fun fields =>
        { s with fields := fields } := by
  have hstep : ∀ fields job, DownsamplePointState.addFunction go job.1 { s with fields := fields } job.2 =
      (feedJob go fields job).map fun fields => { s with fields := fields } := by
    intro fields job
    rw [DownsamplePointState.addFunction, feedJob, feed]
    cases ((fields.get? job.2.as).getD (newDownsampleAggregateState job.2.function)).add go job.1 <;> rfl
  have hwrap := foldlM_wrap (f := fun s job => DownsamplePointState.addFunction go job.1 s job.2)
    (fun fields => { s with fields := fields }) hstep (columns.flatMap (columnJobs policy start stop)) s.fields
  rw [← hwrap, foldlM_flatMap]
  congr 1
  funext s c
  rw [columnJobs, foldlM_flatMap, addToState]
  congr 1
  funext s pt
  rw [foldlM_map]
  rfl

theorem filter_columnJobs (hvalid : policy.Valid) (start stop : Int64)
    (hf : f ∈ policy.functions) (columns : List ColumnSeries) :
    (columns.flatMap (columnJobs policy start stop)).filter (fun job => job.2.as = f.as) =
      ((columns.filter fun c => c.fieldName = f.field).flatMap fun c =>
        c.points.filter fun pt => start ≤ pt.1 && pt.1 < stop).map fun pt => (pt, f) := by
  have hone : policy.functions.filter (fun g => decide (g.as = f.as)) = [f] := by
    have hsame : ∀ g ∈ policy.functions, decide (g.as = f.as) = (g == f) := by
      intro g hg
      rw [Bool.eq_iff_iff, decide_eq_true_iff, beq_iff_eq]
      exact ⟨inj_on_of_nodup_map hvalid.outputs hg hf, congrArg _⟩
    rw [filter_congr hsame, filter_beq, count_eq_one_of_mem hvalid.outputs.of_map hf]
    rfl
  have hcolumn : ∀ c, (columnJobs policy start stop c).filter (fun job => decide (job.2.as = f.as)) =
      if c.fieldName = f.field then
        (c.points.filter fun pt => start ≤ pt.1 && pt.1 < stop).map fun pt => (pt, f)
      else [] := by
    intro c
    have hfunctions : (downsampleFunctionsByField policy.functions c.fieldName).filter
        (fun g => decide (g.as = f.as)) = if c.fieldName = f.field then [f] else [] := by
      rw [downsampleFunctionsByField, filter_comm, hone, filter_singleton]
      simp only [eq_comm, Bool.cond_decide]
    rw [columnJobs, filter_flatMap]
    simp only [filter_map, Function.comp_def, hfunctions]
    split
    · exact map_eq_flatMap.symm
    · simp
  induction columns with
  | nil => rfl
  | cons c columns ih =>
    rw [flatMap_cons, filter_append, ih, filter_cons, hcolumn]
    by_cases hname : c.fieldName = f.field <;> simp [hname]

def PointTakesIn (policy : DownsamplePolicy) (type : GoString → FieldType) (samples : GoString → List (Int64 × FieldValue))
    (s : DownsamplePointState) : Prop :=
  ∀ f ∈ policy.functions, samples f.field = [] ∧ s.fields.get? f.as = none ∨
    ∃ state, s.fields.get? f.as = some state ∧ Collected f.function (type f.field) (samples f.field) state

def samplesOf (start stop : Int64) (columns : List ColumnSeries) (field : GoString) : List (Int64 × FieldValue) :=
  (columns.filter fun c => c.fieldName = field).flatMap fun c =>
    c.points.filter fun pt => start ≤ pt.1 && pt.1 < stop

theorem mem_samplesOf (h : pt ∈ samplesOf start stop columns field) :
    ∃ c ∈ columns, c.fieldName = field ∧ pt ∈ c.points ∧ start ≤ pt.1 := by
  obtain ⟨c, hc, hpt⟩ := mem_flatMap.mp h
  obtain ⟨hc, hname⟩ := mem_filter.mp hc
  obtain ⟨hpt, hwindow⟩ := mem_filter.mp hpt
  simp only [Bool.and_eq_true, decide_eq_true_eq] at hname hwindow
  exact ⟨c, hc, hname, hpt, hwindow.1⟩

variable (go) in
theorem group_takesIn (hvalid : policy.Valid) (start stop : Int64) (columns : List ColumnSeries)
    (htype : ∀ c ∈ columns, ∀ pt ∈ c.points, pt.2.type = type c.fieldName ∧ Engine.isNumericFieldValue pt.2 = true)
    (tags : TagMap) :
    ∃ s, columns.foldlM (addToState go policy start stop) (newPointState policy start tags) = .ok s ∧
      PointTakesIn policy type (samplesOf start stop columns) s := by
  have hstates : ∀ f ∈ policy.functions, ∃ state,
      ((columns.flatMap (columnJobs policy start stop)).filter fun job => job.2.as = f.as).foldlM
        (fun s job => s.add go job.1) (newDownsampleAggregateState f.function) = .ok state ∧
      Collected f.function (type f.field) (samplesOf start stop columns f.field) state := by
    intro f hf
    rw [filter_columnJobs hvalid start stop hf, foldlM_map]
    refine collected_foldlM f.function fun pt hpt => ?_
    obtain ⟨c, hc, hname, hmem, -⟩ := mem_samplesOf hpt
    rw [← hname]
    exact htype c hc pt hmem
  have hjob : ∀ job ∈ columns.flatMap (columnJobs policy start stop), job.2 ∈ policy.functions := by
    intro job hjob
    obtain ⟨c, -, hjob⟩ := mem_flatMap.mp hjob
    obtain ⟨pt, -, hjob⟩ := mem_flatMap.mp hjob
    obtain ⟨f, hf, rfl⟩ := mem_map.mp hjob
    exact mem_of_mem_filter hf
  obtain ⟨fields, hfields⟩ := exists_foldlM_feed (fun job : (Int64 × FieldValue) × DownsampleFunction => job.2.as)
    (fun job => newDownsampleAggregateState job.2.function) (fun s job => s.add go job.1)
    (columns.flatMap (columnJobs policy start stop)) fun k first rest hitems => by
      have hmem : first ∈ (columns.flatMap (columnJobs policy start stop)).filter fun job => job.2.as = k := by
        rw [hitems]
        exact mem_cons_self
      obtain ⟨hfirst, hk⟩ := mem_filter.mp hmem
      obtain ⟨state, hstate, -⟩ := hstates first.2 (hjob first hfirst)
      rw [of_decide_eq_true hk, hitems] at hstate
      exact ⟨state, hstate⟩
  refine ⟨{ newPointState policy start tags with fields := fields }, ?_, fun f hf => ?_⟩
  · rw [foldlM_addToState]
    change (List.foldlM (feedJob go) ∅ _).map _ = _
    rw [feedJob, hfields]
    rfl
  · obtain ⟨state, hstate, hcollected⟩ := hstates f hf
    have hfed := fed_of_foldlM hfields f.as
    generalize fields.get? f.as = got at hfed
    cases hfed with
    | unused hnone =>
      rw [hnone] at hstate
      cases hstate
      refine .inl ⟨?_, rfl⟩
      generalize samplesOf start stop columns f.field = samples at hcollected
      cases hcollected
      rfl
    | used first rest st hitems hfold =>
      have hfirst : first.2 = f := by
        have hmem := mem_cons_self (a := first) (l := rest)
        rw [← hitems, filter_columnJobs hvalid start stop hf] at hmem
        obtain ⟨pt, -, rfl⟩ := mem_map.mp hmem
        rfl
      rw [hitems] at hstate
      rw [hfirst] at hfold
      obtain rfl := Except.ok.inj (hfold.symm.trans hstate)
      exact .inr ⟨st, rfl, hcollected⟩

theorem PointTakesIn.point_ok_iff (hgo : ElapsedExact go) (h : PointTakesIn policy type samples s)
    (hnonneg : ∀ field, ∀ pt ∈ samples field, 0 ≤ pt.1) :
    (∃ p, s.point go policy = .ok p) ↔ ∀ f ∈ policy.functions, Ready f.function (samples f.field) := by
  have hvalue : ∀ f ∈ policy.functions, (∃ v, s.field go f = .ok v) ↔ Ready f.function (samples f.field) := by
    intro f hf
    rw [DownsamplePointState.field]
    rcases h f hf with ⟨hnil, hnone⟩ | ⟨state, hsome, hcollected⟩
    · rw [hnone, hnil]
      exact iff_of_true ⟨_, rfl⟩ (.inr (.inl rfl))
    · rw [hsome, ← hcollected.value_ok_iff hgo (hnonneg f.field)]
      constructor
      · rintro ⟨v, hv⟩
        obtain ⟨w, hw, -⟩ := except_map_ok hv
        exact ⟨w, hw⟩
      · rintro ⟨v, hv⟩
        dsimp only
        rw [hv]
        exact ⟨_, rfl⟩
  constructor
  · rintro ⟨p, hp⟩ f hf
    obtain ⟨fields, hfields, -⟩ := except_bind_ok hp
    obtain ⟨v, -, hv⟩ := exists_result_of_forall₂ (forall₂_of_mapM hfields) hf
    exact (hvalue f hf).mp ⟨v, hv⟩
  · intro hready
    obtain ⟨fields, hfields, -⟩ := mapM_ok fun f hf => by
      obtain ⟨v, hv⟩ := (hvalue f hf).mpr (hready f hf)
      exact ⟨v, hv, trivial⟩
    rw [DownsamplePointState.point, hfields]
    exact ⟨_, rfl⟩

theorem writePoints_ok_iff
    (hsend : ∀ batch, send batch = .ok ()) (batchSize : Int) (states : List DownsamplePointState)
    (batch : List DownsamplePoint) (written : Nat) :
    (∃ n, writePoints go policy send batchSize states batch written = .ok n) ↔
      ∀ s ∈ states, ∃ p, s.point go policy = .ok p := by
  induction states generalizing batch written with
  | nil =>
    refine iff_of_true ?_ (by simp)
    rw [writePoints]
    split
    · exact ⟨_, rfl⟩
    · rw [hsend]
      exact ⟨_, rfl⟩
  | cons s states ih =>
    rw [forall_mem_cons, writePoints]
    cases hpoint : s.point go policy with
    | error e =>
      refine iff_of_false ?_ fun h => ?_
      · rintro ⟨n, hn⟩
        cases hn
      · obtain ⟨p, hp⟩ := h.1
        cases hp
    | ok point =>
      rw [and_iff_right ⟨point, rfl⟩]
      cases point with
      | none => exact ih batch written
      | some point =>
        dsimp [bind, Except.bind]
        split
        · exact ih _ _
        · rw [hsend]
          exact ih _ _

/-- A window is processed exactly when every function has the samples that it needs. -/
theorem runDownsampleWindow_ok_iff (hgo : ElapsedExact go) (hvalid : policy.Valid)
    (hwrite : ∀ batch, engine.write batch = .ok ()) (hstart : 0 ≤ start) (hlt : start < stop)
    (hcolumns : engine.queryColumns start stop = .ok columns) (hnumeric : NumericColumns columns) :
    (∃ n, runDownsampleWindow go engine policy start stop = .ok n) ↔ WindowReady policy start stop columns := by
  obtain ⟨type, htype⟩ := hnumeric
  have hgroup : ∀ key tags, ∃ s,
      ((usedColumns policy columns).filter fun c => columnPointKey policy start c = key).foldlM
        (addToState go policy start stop) (newPointState policy start tags) = .ok s ∧
      PointTakesIn policy type (groupSamples policy start stop columns key) s := by
    intro key tags
    obtain ⟨s, hs, htakes⟩ := group_takesIn go hvalid start stop
      ((usedColumns policy columns).filter fun c => columnPointKey policy start c = key)
      (fun c hc => htype c (mem_of_mem_filter (mem_of_mem_filter hc))) tags
    refine ⟨s, hs, fun f hf => ?_⟩
    have hsame : groupSamples policy start stop columns key f.field = samplesOf start stop
        ((usedColumns policy columns).filter fun c => columnPointKey policy start c = key) f.field := by
      rw [groupSamples, samplesOf, usedColumns, filter_filter, filter_filter]
      refine congrArg (List.flatMap _) (filter_congr fun c _ => ?_)
      by_cases hname : c.fieldName = f.field
      · have hused : f ∈ downsampleFunctionsByField policy.functions f.field := by
          simp [downsampleFunctionsByField, hf]
        rw [hname, isEmpty_eq_false_iff.mpr (ne_nil_of_mem hused)]
        simp
      · simp [hname]
    rw [hsame]
    exact htakes f hf
  obtain ⟨points, hpoints⟩ := exists_foldlM_feed (columnPointKey policy start)
    (fun c => newPointState policy start c.tags) (addToState go policy start stop)
    (usedColumns policy columns) fun key first rest hitems => by
      obtain ⟨s, hs, -⟩ := hgroup key first.tags
      rw [hitems] at hs
      exact ⟨s, hs⟩
  have hrun : runDownsampleWindow go engine policy start stop = writePoints go policy engine.write
      (if policy.batchSize ≤ 0 then defaultDownsampleBatchSize else policy.batchSize)
      ((sortedEntries points).map Prod.snd) [] 0 := by
    rw [runDownsampleWindow, if_neg (Int64.not_le.mpr hlt), hcolumns]
    change (List.foldlM (addColumn go policy start stop) ∅ columns >>= _) = _
    rw [foldlM_addColumn, feedColumn, hpoints]
    rfl
  have hpoint : ∀ key, (∃ s, points.get? key = some s ∧ PointTakesIn policy type
        (groupSamples policy start stop columns key) s) ∨ points.get? key = none ∧
      ∀ f ∈ policy.functions, groupSamples policy start stop columns key f.field = [] := by
    intro key
    have hfed := fed_of_foldlM hpoints key
    generalize points.get? key = got at hfed
    obtain ⟨s, hs, htakes⟩ := hgroup key TagMap.empty
    cases hfed with
    | unused hnone =>
      rw [hnone] at hs
      cases hs
      refine .inr ⟨rfl, fun f hf => ?_⟩
      rcases htakes f hf with ⟨hnil, -⟩ | ⟨state, hsome, -⟩
      · exact hnil
      · cases hsome
    | used first rest s' hitems hfold =>
      obtain ⟨s'', hs'', htakes''⟩ := hgroup key first.tags
      rw [hitems] at hs''
      obtain rfl := Except.ok.inj (hfold.symm.trans hs'')
      exact .inl ⟨s', rfl, htakes''⟩
  have hnonneg : ∀ key field, ∀ pt ∈ groupSamples policy start stop columns key field, 0 ≤ pt.1 := by
    intro key field pt hpt
    obtain ⟨c, -, hpt⟩ := mem_flatMap.mp hpt
    have hwindow := (mem_filter.mp hpt).2
    simp only [Bool.and_eq_true, decide_eq_true_eq] at hwindow
    exact Int64.le_trans hstart hwindow.1
  rw [hrun, writePoints_ok_iff hwrite]
  constructor
  · intro hall key f hf
    rcases hpoint key with ⟨s, hs, htakes⟩ | ⟨-, hnil⟩
    · have hmem : s ∈ (sortedEntries points).map Prod.snd := mem_map.mpr ⟨(key, s), mem_sortedEntries.mpr hs, rfl⟩
      exact (htakes.point_ok_iff hgo (hnonneg key)).mp (hall s hmem) f hf
    · exact .inr (.inl (hnil f hf))
  · intro hready s hs
    obtain ⟨⟨key, s'⟩, hmem, rfl⟩ := mem_map.mp hs
    rcases hpoint key with ⟨s, hs, htakes⟩ | ⟨hnone, -⟩
    · obtain rfl := Option.some.inj (hs.symm.trans (mem_sortedEntries.mp hmem))
      exact (htakes.point_ok_iff hgo (hnonneg key)).mpr (hready key)
    · rw [mem_sortedEntries.mp hmem] at hnone
      cases hnone

end Window

section Run
variable {go : GoLib} {r : DownsampleRun} {watermark : DownsampleWatermark}

structure RunOutcome where
  error : Option DownsampleError
  watermark : DownsampleWatermark
  processed : List DownsampleWindow

/-- `runDownsampleWindows` of a run that is alone and whose updates succeed; `text` is the text of an error. -/
def runDownsampleWindows (text : DownsampleError → GoString) (policy : DownsamplePolicy)
    (process : DownsampleWindow → Except DownsampleError Nat) (time : Int64) :
    List DownsampleWindow → DownsampleRun → List DownsampleWindow → RunOutcome
  | [], r, done => ⟨none, r.successWatermark time, done⟩
  | w :: windows, r, done =>
    match process w with
    | .error e => ⟨some e, r.failureWatermark time (text e), done⟩
    | .ok _ =>
      let r := r.processed policy w windows
      match r.phase with
      | .checkpoint _ =>
        let r := { r with checkpoint := r.successWatermark time, advanceSinceCheckpoint := 0, phase := .next windows }
        runDownsampleWindows text policy process time windows r (done ++ [w])
      | _ => runDownsampleWindows text policy process time windows r (done ++ [w])

/-- `RunDownsamplePolicy`; a policy that is not enabled does nothing. -/
def runDownsamplePolicy (go : GoLib) (text : DownsampleError → GoString) (engine : DownsampleEngine)
    (policy : DownsamplePolicy) (watermark : DownsampleWatermark) (now time : Int64) : RunOutcome :=
  if !policy.enabled then ⟨none, watermark, []⟩
  else
    let windows := downsampleWindowsToRun policy watermark now
    runDownsampleWindows text policy (fun w => runDownsampleWindow go engine policy w.start w.stop) time windows
      (newRun false watermark windows) []

/-- The steps of the loop are steps of the machine, on a state in which no other run is in flight. -/
theorem runDownsampleWindows_steps (text : DownsampleError → GoString) (policy : DownsamplePolicy)
    (process : DownsampleWindow → Except DownsampleError Nat) (time : Int64)
    (hs : s.runs = [r]) (hphase : r.phase = .next windows) :
    ∃ events : List DownsampleEvent, (∀ e ∈ events, e.reads = false) ∧
      (events.foldl (downsampleStep policy) s).runs = [] ∧
      (events.foldl (downsampleStep policy) s).watermark =
        (runDownsampleWindows text policy process time windows r s.processed).watermark ∧
      (events.foldl (downsampleStep policy) s).processed =
        (runDownsampleWindows text policy process time windows r s.processed).processed := by
  induction windows generalizing r s with
  | nil =>
    refine ⟨[.window 0 none, .update 0 time none], by simp [DownsampleEvent.reads], ?_⟩
    simp [downsampleStep, windowStep, updateStep, DownsampleState.finish, DownsampleState.store, hphase, hs,
      runDownsampleWindows, DownsampleRun.successWatermark]
  | cons w windows ih =>
    cases hprocess : process w with
    | error e =>
      refine ⟨[.window 0 (some (text e)), .update 0 time none], by simp [DownsampleEvent.reads], ?_⟩
      simp [downsampleStep, windowStep, updateStep, DownsampleState.finish, DownsampleState.store, hphase, hs,
        runDownsampleWindows, hprocess, DownsampleRun.failureWatermark]
    | ok n =>
      rw [runDownsampleWindows, hprocess]
      dsimp only
      have hstep : downsampleStep policy s (.window 0 none) =
          { s with runs := [r.processed policy w windows], processed := s.processed ++ [w] } := by
        simp [downsampleStep, windowStep, hphase, hs]
      obtain ⟨-, -, hnext | hcheckpoint⟩ := processed_spec policy r w windows
      · obtain ⟨events, hreads, hevents⟩ := ih
          (s := { s with runs := [r.processed policy w windows], processed := s.processed ++ [w] }) rfl hnext
        refine ⟨.window 0 none :: events, forall_mem_cons.mpr ⟨rfl, hreads⟩, ?_⟩
        rw [foldl_cons, hstep, hnext]
        exact hevents
      · generalize r.processed policy w windows = r' at hstep hcheckpoint
        let r'' := { r' with checkpoint := r'.successWatermark time, advanceSinceCheckpoint := 0, phase := .next windows }
        obtain ⟨events, hreads, hevents⟩ := ih (s := { s with
          runs := [r''], processed := s.processed ++ [w], watermark := r'.successWatermark time }) rfl rfl
        refine ⟨.window 0 none :: .update 0 time none :: events, by simpa [DownsampleEvent.reads] using hreads, ?_⟩
        rw [foldl_cons, hstep, foldl_cons]
        simp only [downsampleStep, getElem?_cons_zero, updateStep, hcheckpoint]
        exact hevents

/-- `RunDownsamplePolicy` without other runs is a run of the machine that starts once. -/
theorem runDownsamplePolicy_simulated (go : GoLib) (text : DownsampleError → GoString) (engine : DownsampleEngine)
    (policy : DownsamplePolicy) (watermark : DownsampleWatermark) (now time : Int64) :
    let outcome := runDownsamplePolicy go text engine policy watermark now time
    ∃ events : List DownsampleEvent, (∀ e ∈ events, e.reads = false) ∧
      let s := (.run now :: events).foldl (downsampleStep policy) ⟨watermark, false, [], []⟩
      s.runs = [] ∧ s.watermark = outcome.watermark ∧ s.processed = outcome.processed := by
  simp only [foldl_cons, downsampleStep, runDownsamplePolicy]
  split
  · exact ⟨[], by simp⟩
  · exact runDownsampleWindows_steps text policy _ time rfl rfl

def completedAfter (windows : List DownsampleWindow) (completed : Int64) : Int64 :=
  windows.foldl (fun c w => if w.refresh = false ∧ c < w.stop then w.stop else c) completed

theorem runDownsampleWindows_ok (text : DownsampleError → GoString) (policy : DownsamplePolicy)
    (process : DownsampleWindow → Except DownsampleError Nat) (time : Int64) (windows : List DownsampleWindow)
    (h : ∀ w ∈ windows, ∃ n, process w = .ok n) (r : DownsampleRun) (done : List DownsampleWindow) :
    (runDownsampleWindows text policy process time windows r done).error = none ∧
      (runDownsampleWindows text policy process time windows r done).processed = done ++ windows ∧
      (runDownsampleWindows text policy process time windows r done).watermark.completedUntilUnix =
        completedAfter windows r.completed := by
  induction windows generalizing r done with
  | nil => exact ⟨rfl, (append_nil done).symm, rfl⟩
  | cons w windows ih =>
    obtain ⟨n, hn⟩ := h w mem_cons_self
    obtain ⟨-, hcompleted, hphase⟩ := processed_spec policy r w windows
    rw [runDownsampleWindows, hn, completedAfter, foldl_cons, ← hcompleted]
    dsimp only
    have hrest := ih fun v hv => h v (mem_cons_of_mem _ hv)
    rcases hphase with hphase | hphase
    · rw [hphase]
      have := hrest (r.processed policy w windows) (done ++ [w])
      rw [append_assoc] at this
      exact this
    · rw [hphase]
      have := hrest { r.processed policy w windows with
        checkpoint := (r.processed policy w windows).successWatermark time
        advanceSinceCheckpoint := 0, phase := .next windows } (done ++ [w])
      rw [append_assoc] at this
      exact this

theorem runDownsampleWindows_error (text : DownsampleError → GoString) (policy : DownsamplePolicy) (time : Int64)
    (h : (runDownsampleWindows text policy process time windows r done).error = none) :
    ∀ w ∈ windows, ∃ n, process w = .ok n := by
  induction windows generalizing r done with
  | nil => simp
  | cons w windows ih =>
    rw [runDownsampleWindows] at h
    cases hprocess : process w with
    | error e =>
      rw [hprocess] at h
      cases h
    | ok n =>
      rw [hprocess] at h
      dsimp only at h
      refine forall_mem_cons.mpr ⟨⟨n, hprocess⟩, ?_⟩
      split at h
      · exact ih h
      · exact ih h

theorem completedAfter_tiles (hi : 0 < interval) (hA : interval.toInt ∣ A.toInt)
    (hAstop : A < stop) (hstop : interval.toInt ∣ stop.toInt)
    (h : Tiles interval (fun t => t < A) start stop windows) (hlt : start < stop)
    (hle : completed ≤ stop) : completedAfter windows completed = stop := by
  have hi' : 0 < interval.toInt := hi.toInt_lt
  have hAle := add_interval_le hi' hA hstop hAstop.toInt_lt
  induction h generalizing completed with
  | nil => exact absurd hlt Int64.lt_irrefl
  | @cons w stop windows haligned hlength hmark hrest ih =>
    rw [completedAfter, foldl_cons]
    have hwstop := hrest.le hi
    have hnext : (if w.refresh = false ∧ completed < w.stop then w.stop else completed) ≤ stop := by
      split
      · exact hwstop
      · exact hle
    by_cases hlast : w.stop < stop
    · exact ih hAstop hstop hlast hnext hAle
    · obtain heq : w.stop = stop := Int64.le_antisymm hwstop (Int64.not_lt.mp hlast)
      cases windows with
      | nil =>
        -- the last window starts at or after the advance start
        have hrefresh : w.refresh = false := by
          rw [hmark, decide_eq_false_iff_not, Int64.not_lt, Int64.le_iff_toInt_le]
          rw [heq] at hlength
          omega
        rw [foldl_nil, hrefresh]
        split
        · exact heq
        · next hnot => exact Int64.le_antisymm hle (Int64.not_lt.mp fun hlt => hnot ⟨rfl, heq ▸ hlt⟩)
      | cons v windows =>
        obtain ⟨-, hvlength, -, hvstop, -⟩ := hrest.mem hi mem_cons_self
        have hvstart := hrest.head
        have hvstop := hvstop.toInt_le
        rw [hvstart, heq] at hvlength
        omega

theorem downsampleAdvanceStart_lt_iff (hvalid : policy.Valid) (hwatermark : 0 ≤ watermark.completedUntilUnix) (hdvd : policy.interval.toInt ∣ eligible.toInt)
    (hlt : watermark.completedUntilUnix < eligible) :
    downsampleAdvanceStart policy watermark eligible < eligible ↔
      (watermark.completedUntilUnix = 0 → policy.initialStartTime < eligible) := by
  have hi' : 0 < policy.interval.toInt := hvalid.interval.toInt_lt
  rw [downsampleAdvanceStart]
  by_cases hzero : watermark.completedUntilUnix = 0
  · rw [hzero] at hlt
    have hpos : 0 < eligible.toInt := hlt.toInt_lt
    rw [if_pos hzero, downsampleInitialAdvanceStart, forall_prop_of_true hzero]
    -- a start before the eligible end stays before it
    have hbefore : ∀ back, 0 < back → alignDownsampleWindow
        (if eligible - back < 0 then 0 else eligible - back) policy.interval < eligible := by
      intro back hback
      have hback' : 0 < back.toInt := hback.toInt_lt
      have hhigh := eligible.toInt_lt
      have hbackHigh := back.toInt_lt
      have hsub : (eligible - back).toInt = eligible.toInt - back.toInt := by
        rw [Int64.toInt_sub, Int.bmod_eq_of_le (by omega) (by omega)]
      split
      · exact Int64.lt_of_le_of_lt (alignDownsampleWindow_spec hvalid.interval (Int64.le_refl 0)).2.2 hlt
      · next hnonneg =>
        refine Int64.lt_of_le_of_lt (alignDownsampleWindow_spec hvalid.interval (Int64.not_lt.mp hnonneg)).2.2 ?_
        rw [Int64.lt_iff_toInt_lt, hsub]
        omega
    by_cases hinitial : 0 < policy.initialStartTime
    · rw [if_pos hinitial, if_neg (Int64.not_lt.mpr (Int64.le_of_lt hinitial))]
      have hinitial := Int64.le_of_lt hinitial
      obtain ⟨haligned, -, hle⟩ := alignDownsampleWindow_spec hvalid.interval hinitial
      refine ⟨fun hstart => ?_, Int64.lt_of_le_of_lt hle⟩
      have hnext := add_interval_le hi' haligned hdvd hstart.toInt_lt
      have hfloor := Int.lt_ediv_add_one_mul_self policy.initialStartTime.toInt hi'
      rw [toInt_alignDownsampleWindow hvalid.interval hinitial] at hnext
      rw [Int.add_mul, Int.one_mul] at hfloor
      rw [Int64.lt_iff_toInt_lt]
      omega
    · rw [if_neg hinitial]
      refine iff_of_true ?_ (Int64.lt_of_le_of_lt (Int64.not_lt.mp hinitial) hlt)
      split
      · next hlookback => exact hbefore _ hlookback
      · exact hbefore _ hvalid.interval
  · rw [if_neg hzero, if_neg (Int64.not_lt.mpr hwatermark)]
    refine iff_of_true ?_ fun h => absurd h hzero
    exact Int64.lt_of_le_of_lt (alignDownsampleWindow_spec hvalid.interval hwatermark).2.2 hlt

theorem completedAfter_iff (hvalid : policy.Valid) (hwatermark : 0 ≤ watermark.completedUntilUnix)
    (hnow : NowInRange policy now) :
    (watermark.completedUntilUnix < eligibleUntil policy now →
      completedAfter (downsampleWindowsToRun policy watermark now) watermark.completedUntilUnix =
        eligibleUntil policy now) ↔
      (watermark.completedUntilUnix = 0 → 0 < eligibleUntil policy now →
        policy.initialStartTime < eligibleUntil policy now) := by
  have hdvd : policy.interval.toInt ∣ (eligibleUntil policy now).toInt := by
    rw [toInt_eligibleUntil hvalid.interval hnow]
    exact Int.dvd_mul_left ..
  by_cases hlt : watermark.completedUntilUnix < eligibleUntil policy now
  · have hadvance := downsampleAdvanceStart_lt_iff hvalid hwatermark hdvd hlt
    have hpos : 0 < eligibleUntil policy now := Int64.lt_of_le_of_lt hwatermark hlt
    rw [forall_prop_of_true hlt, forall_prop_of_true hpos, ← hadvance]
    obtain ⟨hnil, hnone⟩ | ⟨start, -, -, hstart, hle, hsame, htiles⟩ :=
      tiles_downsampleWindowsToRun watermark hvalid.interval hnow
    · rw [hnil]
      refine iff_of_false (fun heq => ?_) fun h => ?_
      · rw [← heq] at hlt
        exact Int64.lt_irrefl hlt
      · rcases hnone with hnone | hnone
        · exact absurd hpos (Int64.not_lt.mpr hnone)
        · exact absurd h (Int64.not_lt.mpr hnone)
    · have hA : downsampleAdvanceStart policy watermark (eligibleUntil policy now) < eligibleUntil policy now := by
        by_cases hzero : watermark.completedUntilUnix = 0
        · rw [← hsame (by rw [hzero]; exact Int64.le_refl _)]
          exact hstart
        · exact hadvance.mpr fun h => absurd h hzero
      refine iff_of_true ?_ hA
      exact completedAfter_tiles hvalid.interval (downsampleAdvanceStart_spec hvalid.interval watermark _).1 hA hdvd
        htiles hstart (Int64.le_of_lt hlt)
  · refine iff_of_true (fun h => absurd h hlt) fun hzero hpos => ?_
    rw [hzero] at hlt
    exact absurd hpos hlt

/-- The run succeeds, processes all its windows, and completes the time up to the eligible end if that is past the
watermark. -/
structure Progress (policy : DownsamplePolicy) (watermark : DownsampleWatermark) (now : Int64) (outcome : RunOutcome) :
    Prop where
  succeeds : outcome.error = none
  processed : outcome.processed = downsampleWindowsToRun policy watermark now
  completed : watermark.completedUntilUnix < eligibleUntil policy now →
    outcome.watermark.completedUntilUnix = eligibleUntil policy now

/-- A library whose quotient is the dividend, so that seconds are nanoseconds. -/
def nanosecondGo : GoLib := ⟨id, fun a _ => a, fun a _ => a, fun a _ => a, fun a _ => a, id, id, fun _ => []⟩

theorem elapsedExact_nanosecondGo : ElapsedExact nanosecondGo := by
  intro a b ha hab
  have ha' := ha.toInt_le
  have hab' := hab.toInt_le
  have hb := b.toInt_lt
  change 0 ≤ a.toInt at ha'
  have hsub : (b - a).toInt = b.toInt - a.toInt := by
    rw [Int64.toInt_sub, Int.bmod_eq_of_le (by omega) (by omega)]
  change Float64.le (Float64.ofInt64 (b - a)) (Float64.ofInt64 0) = _
  rw [Float64.le, Float64.isNaN_ofInt64, Float64.isNaN_ofInt64]
  by_cases heq : a = b
  · subst heq
    simp [Int64.sub_self]
  · have hne : a.toInt ≠ b.toInt := fun h => heq (Int64.toInt_inj.mp h)
    have hpos := Float64.rank_ofInt64_pos (by
      rw [Int64.lt_iff_toInt_lt, hsub]
      change 0 < _
      omega)
    have hzero : Float64.rank (Float64.ofInt64 0) = 0 := by decide
    rw [hzero, decide_eq_false (by omega), decide_eq_false heq]
    rfl

def rateOfTen : DownsamplePolicy := ⟨[112], 10, [⟨.rate, [118], [97]⟩], [], 0, 0, 0, 1, [116], true, 1024⟩

def samplesSource (points : List (Int64 × FieldValue)) : List ColumnSeries :=
  [⟨1, TagMap.empty, 1, [118], some .int64, points⟩]

def sourceEngine (points : List (Int64 × FieldValue)) : DownsampleEngine :=
  ⟨fun _ _ => .ok (samplesSource points), fun _ => .ok ()⟩

end Run

end Mts.Downsample
