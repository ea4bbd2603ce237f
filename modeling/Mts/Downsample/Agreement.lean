import Mts.Downsample.Aggregate

/-! Three implementations of the aggregates on int64 samples: over a list (`queryexec/aggregate.go`), value by value
for grouped queries (`queryexec/group_aggregate_state.go`), and the state of a downsample run. The last two compare
values after their conversion to float64, so that two different values can compare as equal. -/

namespace Mts.Downsample
open Lib Model Queryexec List

variable {fn : AggregateFunction} {least greatest : Int64} {p : Int64 × Int64} {points : List (Int64 × Int64)}
  {s : RunningAggregate} {lo hi : Int64}

section Extremes
variable {α : Type*} {f : α → Int} {l : List α}

theorem find?_of_argmin (h : l.argmin f = some m) : l.find? (fun v => decide (f v = f m)) = some m := by
  induction l using List.reverseRecOn generalizing m with
  | nil => simp at h
  | append_singleton l a ih =>
    rw [argmin_concat] at h
    rw [find?_append]
    cases hl : l.argmin f with
    | none =>
      simp_all
    | some c =>
      rw [hl] at h
      dsimp only at h
      split at h
      · next hlt =>
        cases h
        have hnone : l.find? (fun v => decide (f v = f a)) = none := by
          rw [find?_eq_none]
          intro v hv
          have hle := le_of_mem_argmin hv hl
          simp only [decide_eq_true_eq]
          omega
        rw [hnone]
        simp
      · cases h
        rw [ih hl]
        rfl

theorem argmin_eq_iff_find? {g : α → Int} (hfg : ∀ u v, f u ≤ f v → g u ≤ g v)
    (hm : l.argmin f = some m) (hn : l.argmin g = some n) :
    n = m ↔ l.find? (fun v => decide (g v = g m)) = some m := by
  have hle := le_of_mem_argmin (argmin_mem hm) hn
  have hge := hfg m n (le_of_mem_argmin (argmin_mem hn) hm)
  have hfind := find?_of_argmin hn
  rw [show g n = g m by omega] at hfind
  rw [hfind, Option.some.injEq]

theorem foldl_least (better : α → α → Prop) [DecidableRel better] (hbetter : ∀ u v, better u v ↔ f u < f v)
    (a : α) (l : List α) :
    (a :: l).argmin f = some (l.foldl (fun best v => if better v best then v else best) a) := by
  induction l using List.reverseRecOn with
  | nil => rfl
  | append_singleton l b ih =>
    rw [← cons_append, argmin_concat, ih, foldl_append]
    dsimp
    simp only [hbetter]
    split <;> rfl

end Extremes

def intPoints (points : List (Int64 × Int64)) : List (Int64 × FieldValue) := points.map fun p => (p.1, .int64 p.2)

def floatKey (v : Int64) : Int := Float64.rank (Float64.ofInt64 v)

def LeastOf (values : List Int64) (v : Int64) : Prop := v ∈ values ∧ ∀ u ∈ values, v ≤ u

def GreatestOf (values : List Int64) (v : Int64) : Prop := v ∈ values ∧ ∀ u ∈ values, u ≤ v

/-- The meaning of the functions on int64 values. -/
def IsAggregate (values : List Int64) (v : Int64) : AggregateFunction → Prop
  | .count => v = Int64.ofNat values.length
  | .sum => v.toInt = (values.map Int64.toInt).sum
  | .min | .bottom => LeastOf values v
  | .max | .top => GreatestOf values v
  | .first => values.head? = some v
  | .last => values.getLast? = some v
  | .spread => ∃ least greatest, LeastOf values least ∧ GreatestOf values greatest ∧ v = greatest - least
  | .mode => v ∈ values ∧ ∀ u, values.count u ≤ values.count v
  | _ => False

def exactFunction : AggregateFunction → Bool
  | .count | .sum | .min | .max | .first | .last | .spread | .top | .bottom | .mode => true
  | _ => false

/-- The first value that converts to the float64 of the least value is the least value, and so for the greatest. -/
def FirstOfFloat (values : List Int64) (extreme : List Int64 → Int64 → Prop) : Prop :=
  ∀ m, extreme values m → values.find? (fun v => Float64.eq (Float64.ofInt64 v) (Float64.ofInt64 m)) = some m

def ComparesExactly (values : List Int64) : AggregateFunction → Prop
  | .min | .bottom => FirstOfFloat values LeastOf
  | .max | .top => FirstOfFloat values GreatestOf
  | .spread => FirstOfFloat values LeastOf ∧ FirstOfFloat values GreatestOf
  | _ => True

/-- The three implementations return one value, and it is the aggregate. -/
def Agree (go : GoLib) (fn : AggregateFunction) (points : List (Int64 × Int64)) : Prop :=
  ∃ v, aggregateValuesByTime go (intPoints points) fn.name = .ok (.int64 v) ∧
    aggregateOf go fn.name (intPoints points) = .ok (.int64 v) ∧
    downsampleAggregateOf go fn (intPoints points) = .ok (some (.int64 v)) ∧
    IsAggregate (points.map Prod.snd) v fn

theorem parse_name (fn : AggregateFunction) : AggregateFunction.parse fn.name = some fn := by
  cases fn <;> decide

section Values
variable (go : GoLib)

def aggregateFrom (values : List Int64) (least greatest : Int64) : AggregateFunction → Int64
  | .count => Int64.ofNat values.length
  | .sum => values.foldl (· + ·) 0
  | .min | .bottom => least
  | .max | .top => greatest
  | .first => values.head?.getD 0
  | .last => values.getLast?.getD 0
  | .spread => greatest - least
  | .mode => int64Field (aggregateMode go (values.map .int64))
  | _ => 0

variable {go}

theorem foldl_int64Field (values : List Int64) (sum : Int64) :
    (values.map FieldValue.int64).foldl (fun sum v => sum + int64Field v) sum = values.foldl (· + ·) sum := by
  rw [foldl_map]
  rfl

theorem aggregateIntMinMax_least (v : Int64) (values : List Int64) :
    ∃ m, (v :: values).argmin Int64.toInt = some m ∧
      aggregateIntMinMax ((v :: values).map .int64) true = .int64 m := by
  refine ⟨_, foldl_least (fun a b => a < b) (fun _ _ => Int64.lt_iff_toInt_lt) v values, ?_⟩
  rw [aggregateIntMinMax, map_cons, tail_cons, foldl_map]
  simp only [Bool.true_and, Bool.not_true, Bool.false_and, Bool.or_false, decide_eq_true_eq]
  rfl

theorem aggregateIntMinMax_greatest (v : Int64) (values : List Int64) :
    ∃ m, (v :: values).argmin (fun u => -u.toInt) = some m ∧
      aggregateIntMinMax ((v :: values).map .int64) false = .int64 m := by
  have hbetter : ∀ a b : Int64, b < a ↔ -a.toInt < -b.toInt := by
    intro a b
    rw [Int64.lt_iff_toInt_lt]
    omega
  refine ⟨_, foldl_least (fun a b => b < a) hbetter v values, ?_⟩
  rw [aggregateIntMinMax, map_cons, tail_cons, foldl_map]
  simp only [Bool.not_false, Bool.true_and, Bool.false_and, Bool.false_or, decide_eq_true_eq]
  rfl

def modeStep (go : GoLib) (state : List GoString × FieldValue × Nat) (v : FieldValue) :
    List GoString × FieldValue × Nat :=
  let seen := fieldValueKey go v :: state.1
  let count := seen.count (fieldValueKey go v)
  if state.2.2 < count then (seen, v, count) else (seen, state.2)

/-- The rounds of `aggregateMode`; what they start with does not matter once there is a value. -/
def modeFold (go : GoLib) (values : List FieldValue) : List GoString × FieldValue × Nat :=
  values.foldl (modeStep go) ([], values.headD (.int64 0), 0)

theorem modeFold_concat (values : List FieldValue) (v : FieldValue) (hne : values ≠ []) :
    modeFold go (values ++ [v]) = modeStep go (modeFold go values) v := by
  obtain ⟨u, rest, rfl⟩ := exists_cons_of_ne_nil hne
  rw [modeFold, foldl_append]
  rfl

theorem modeFold_seen (values : List FieldValue) :
    (modeFold go values).1 = (values.map (fieldValueKey go)).reverse := by
  induction values using List.reverseRecOn with
  | nil => rfl
  | append_singleton values v ih =>
    by_cases hne : values = []
    · subst hne
      simp [modeFold, modeStep]
    · rw [modeFold_concat values v hne, modeStep]
      split <;> simp [ih]

variable (go) in
theorem modeFold_spec (values : List FieldValue) (hne : values ≠ []) :
    (modeFold go values).2.1 ∈ values ∧
      (modeFold go values).2.2 = (modeFold go values).1.count (fieldValueKey go (modeFold go values).2.1) ∧
      ∀ k, (modeFold go values).1.count k ≤ (modeFold go values).2.2 := by
  induction values using List.reverseRecOn with
  | nil => exact absurd rfl hne
  | append_singleton values v ih =>
    by_cases hnil : values = []
    · subst hnil
      have hone : ∀ k, [fieldValueKey go v].count k ≤ 1 := fun k => count_le_length
      simpa [modeFold, modeStep] using hone
    · obtain ⟨hmem, hcount, hle⟩ := ih hnil
      have hcons : ∀ k, (fieldValueKey go v :: (modeFold go values).1).count k ≤
          max (modeFold go values).2.2 ((fieldValueKey go v :: (modeFold go values).1).count (fieldValueKey go v)) := by
        intro k
        by_cases hk : k = fieldValueKey go v
        · subst hk
          exact Nat.le_max_right ..
        · rw [count_cons_of_ne (Ne.symm hk)]
          exact Nat.le_trans (hle k) (Nat.le_max_left ..)
      rw [modeFold_concat values v hnil, modeStep]
      split
      · next hlt =>
        refine ⟨by simp, rfl, fun k => ?_⟩
        exact Nat.le_trans (hcons k) (Nat.max_le.mpr ⟨Nat.le_of_lt hlt, Nat.le_refl _⟩)
      · next hge =>
        refine ⟨mem_append_left _ hmem, ?_, fun k => ?_⟩
        · by_cases hk : fieldValueKey go (modeFold go values).2.1 = fieldValueKey go v
          · -- then the count would have passed the one before
            rw [count_cons_self, ← hk, ← hcount] at hge
            omega
          · rw [count_cons_of_ne (Ne.symm hk)]
            exact hcount
        · exact Nat.le_trans (hcons k) (Nat.max_le.mpr ⟨Nat.le_refl _, Nat.not_lt.mp hge⟩)

variable (go) in
theorem exists_aggregateMode (v : Int64) (values : List Int64) :
    ∃ m, aggregateMode go ((v :: values).map .int64) = .int64 m ∧ IsAggregate (v :: values) m .mode := by
  obtain ⟨hmem, hcount, hle⟩ := modeFold_spec go ((v :: values).map .int64) (by simp)
  obtain ⟨m, hm, heq⟩ := mem_map.mp hmem
  have hof : ∀ u, (modeFold go ((v :: values).map .int64)).1.count (fieldValueKey go (.int64 u)) =
      (v :: values).count u := by
    intro u
    have hinj : Function.Injective fun w => fieldValueKey go (.int64 w) := fun a b => fieldValueKey_int64_injective go
    rw [modeFold_seen, count_reverse, map_map]
    exact count_map_of_injective _ _ hinj u
  refine ⟨m, heq.symm, hm, fun u => ?_⟩
  have := hle (fieldValueKey go (.int64 u))
  rw [hcount, ← heq, hof, hof] at this
  exact this

variable (go) in
theorem aggregateValuesByTime_int (hfn : exactFunction fn = true) (p : Int64 × Int64) (points : List (Int64 × Int64))
    (hleast : ((p :: points).map Prod.snd).argmin Int64.toInt = some least)
    (hgreatest : ((p :: points).map Prod.snd).argmin (fun u => -u.toInt) = some greatest) :
    aggregateValuesByTime go (intPoints (p :: points)) fn.name =
      .ok (.int64 (aggregateFrom go ((p :: points).map Prod.snd) least greatest fn)) := by
  have hvalues : (intPoints (p :: points)).map Prod.snd = (p.2 :: points.map Prod.snd).map .int64 := by
    simp [intPoints]
  have hlast : (FieldValue.int64 p.2 :: (points.map Prod.snd).map .int64).getLast? =
      some (.int64 ((p.2 :: points.map Prod.snd).getLast?.getD 0)) := by
    rw [← map_cons, getLast?_map, getLast?_cons]
    rfl
  have hmin : aggregateMinMax (.int64 p.2 :: (points.map Prod.snd).map .int64) true = .ok (.int64 least) := by
    obtain ⟨m, hm, heq⟩ := aggregateIntMinMax_least p.2 (points.map Prod.snd)
    obtain rfl := Option.some.inj (hm.symm.trans hleast)
    exact congrArg Except.ok heq
  have hmax : aggregateMinMax (.int64 p.2 :: (points.map Prod.snd).map .int64) false = .ok (.int64 greatest) := by
    obtain ⟨m, hm, heq⟩ := aggregateIntMinMax_greatest p.2 (points.map Prod.snd)
    obtain rfl := Option.some.inj (hm.symm.trans hgreatest)
    exact congrArg Except.ok heq
  have hvaluesOf : aggregateValuesByTime go (intPoints (p :: points)) fn.name =
      aggregateValues go ((p.2 :: points.map Prod.snd).map .int64) fn.name := by
    rw [aggregateValuesByTime, hvalues, parse_name]
    cases fn <;> first | rfl | cases hfn
  rw [hvaluesOf]
  simp only [aggregateValues, map_cons, hlast, parse_name]
  cases fn with
  | count => simp [aggregateFrom]
  | sum =>
    refine congrArg (Except.ok ∘ FieldValue.int64) ?_
    exact foldl_int64Field (p.2 :: points.map Prod.snd) 0
  | min => exact hmin
  | max => exact hmax
  | top => exact hmax
  | bottom => exact hmin
  | first => rfl
  | last => rfl
  | spread =>
    rw [aggregateSpread, hmin, hmax]
    rfl
  | mode =>
    obtain ⟨m, hm, -⟩ := exists_aggregateMode go p.2 (points.map Prod.snd)
    rw [map_cons] at hm
    simp only [aggregateFrom, map_cons, hm, int64Field]
  | _ => cases hfn

end Values

section States
variable {go : GoLib}

structure TakenIn (go : GoLib) (fn : AggregateFunction) (points : List (Int64 × Int64)) (s : RunningAggregate) :
    Prop where
  valueType : s.valueType = .int64
  count : s.count = Int64.ofNat points.length
  sumInt : s.sumInt = (points.map Prod.snd).foldl (· + ·) 0
  least : ∃ m, (points.map Prod.snd).argmin floatKey = some m ∧ s.minValue = .int64 m
  greatest : ∃ m, (points.map Prod.snd).argmin (fun v => -floatKey v) = some m ∧ s.maxValue = .int64 m
  first : (intPoints points).head? = some (s.firstTimestamp, s.firstValue)
  last : (intPoints points).getLast? = some (s.lastTimestamp, s.lastValue)
  mode : fn = .mode → s.modeValue = some (modeFold go ((points.map Prod.snd).map .int64)).2.1 ∧
    s.modeCount = (modeFold go ((points.map Prod.snd).map .int64)).2.2 ∧
    ∀ k, (s.modeCounts.get? k).getD 0 = (modeFold go ((points.map Prod.snd).map .int64)).1.count k

theorem compareFloat_int (u v : Int64) :
    (Engine.fieldValuesCompare (.int64 u) (.int64 v) < 0 ↔ floatKey u < floatKey v) ∧
      (Engine.fieldValuesCompare (.int64 u) (.int64 v) > 0 ↔ -floatKey u < -floatKey v) := by
  rw [Engine.fieldValuesCompare_int]
  unfold floatKey
  split
  · omega
  · split <;> omega

theorem downsampleFieldLess_int (u v : Int64) :
    downsampleFieldLess go (.int64 u) (.int64 v) = decide (floatKey u < floatKey v) := Float64.lt_ofInt64 u v

theorem TakenIn.values (hfn : exactFunction fn = true) (h : TakenIn go fn (p :: points) s)
    (hlo : ((p :: points).map Prod.snd).argmin floatKey = some lo)
    (hhi : ((p :: points).map Prod.snd).argmin (fun v => -floatKey v) = some hi) :
    s.aggregateValue go fn.name = .ok (.int64 (aggregateFrom go ((p :: points).map Prod.snd) lo hi fn)) ∧
      ∀ series, DownsampleAggregateState.value go ⟨fn, some ⟨s, series⟩⟩ =
        .ok (some (.int64 (aggregateFrom go ((p :: points).map Prod.snd) lo hi fn))) := by
  obtain ⟨m, hm, hmin⟩ := h.least
  obtain rfl := Option.some.inj (hm.symm.trans hlo)
  obtain ⟨n, hn, hmax⟩ := h.greatest
  obtain rfl := Option.some.inj (hn.symm.trans hhi)
  have hfirst : s.firstValue = .int64 p.2 := (Prod.mk.inj (Option.some.inj h.first)).2.symm
  have hlast : s.lastValue = .int64 (((p :: points).map Prod.snd).getLast?.getD 0) := by
    have hpoint := h.last
    rw [intPoints, getLast?_map, getLast?_cons, Option.map_some] at hpoint
    rw [← (Prod.mk.inj (Option.some.inj hpoint)).2, getLast?_map, getLast?_cons, Option.map_some, Option.getD_some]
  have hnumeric : ∀ what, s.numericError what = .ok ⟨⟩ := by
    intro what
    rw [RunningAggregate.numericError, hmin]
    rfl
  rw [RunningAggregate.aggregateValue, parse_name]
  cases fn with
  | count => simp [DownsampleAggregateState.value, aggregateFrom, h.count]
  | sum => simp [DownsampleAggregateState.value, aggregateFrom, RunningAggregate.sumValue, h.valueType, h.sumInt]
  | min | bottom => simp [DownsampleAggregateState.value, aggregateFrom, hnumeric, hmin, Except.map]
  | max | top => simp [DownsampleAggregateState.value, aggregateFrom, hnumeric, hmax, Except.map]
  | first => simp [DownsampleAggregateState.value, aggregateFrom, hfirst]
  | last => exact ⟨congrArg Except.ok hlast, fun _ => congrArg (Except.ok ∘ some) hlast⟩
  | spread =>
    simp [DownsampleAggregateState.value, aggregateFrom, RunningAggregate.spreadValue, spreadValue, hnumeric,
      h.valueType, hmin, hmax, int64Field, bind, Except.bind]
  | mode =>
    obtain ⟨m', hm', -⟩ := exists_aggregateMode go p.2 (points.map Prod.snd)
    have hmode : s.modeValue = some (.int64 m') := (h.mode rfl).1.trans (congrArg some hm')
    have hfrom : aggregateFrom go ((p :: points).map Prod.snd) m n .mode = m' := congrArg int64Field hm'
    rw [map_cons] at hfrom ⊢
    simp [DownsampleAggregateState.value, hmode, hfrom]
  | _ => cases hfn

variable (go) in
theorem exists_addMode (fn : AggregateFunction) (s : RunningAggregate) (value : FieldValue) :
    ∃ counts mode count, s.addMode go fn.name value =
      { s with modeCounts := counts, modeValue := mode, modeCount := count } := by
  unfold RunningAggregate.addMode
  split
  · dsimp only
    split
    · exact ⟨_, _, _, rfl⟩
    · exact ⟨_, _, _, rfl⟩
  · exact ⟨_, _, _, rfl⟩

variable (go) in
theorem addMode_modeStep (state : List GoString × FieldValue × Nat) (value : FieldValue)
    (hvalue : s.modeValue = some state.2.1 ∨ state.2.2 = 0) (hcount : s.modeCount = state.2.2)
    (hcounts : ∀ k, (s.modeCounts.get? k).getD 0 = state.1.count k) :
    (s.addMode go AggregateFunction.mode.name value).modeValue = some (modeStep go state value).2.1 ∧
      (s.addMode go AggregateFunction.mode.name value).modeCount = (modeStep go state value).2.2 ∧
      ∀ k, ((s.addMode go AggregateFunction.mode.name value).modeCounts.get? k).getD 0 =
        (modeStep go state value).1.count k := by
  have hnew : (s.modeCounts.get? (fieldValueKey go value)).getD 0 + 1 =
      (fieldValueKey go value :: state.1).count (fieldValueKey go value) := by
    rw [hcounts, count_cons_self]
  have hset : ∀ k, ((s.modeCounts.set (fieldValueKey go value)
      ((fieldValueKey go value :: state.1).count (fieldValueKey go value))).get? k).getD 0 =
        (fieldValueKey go value :: state.1).count k := by
    intro k
    rw [GoMap.get?_set]
    split
    · next hk => rw [hk, Option.getD_some]
    · next hk => rw [hcounts, count_cons_of_ne (Ne.symm hk)]
  simp only [RunningAggregate.addMode, parse_name, if_true, modeStep, hnew, hcount]
  split
  · exact ⟨rfl, rfl, hset⟩
  · next hge =>
    refine ⟨?_, rfl, hset⟩
    rcases hvalue with hvalue | hzero
    · exact hvalue
    · rw [hzero, count_cons_self] at hge
      omega

theorem TakenIn.concat (h : TakenIn go fn points s) (hne : points ≠ []) (p : Int64 × Int64)
    (hmin : ∀ m, s.minValue = .int64 m → minValue = if floatKey p.2 < floatKey m then .int64 p.2 else .int64 m)
    (hmax : ∀ m, s.maxValue = .int64 m → maxValue = if -floatKey p.2 < -floatKey m then .int64 p.2 else .int64 m) :
    TakenIn go fn (points ++ [p]) (RunningAggregate.addMode go fn.name
      { s with
        count := s.count + 1, sumFloat := sumFloat, sumInt := s.sumInt + p.2, mean := mean, m2 := m2
        minValue := minValue, maxValue := maxValue, lastTimestamp := p.1, lastValue := .int64 p.2 } (.int64 p.2)) := by
  obtain ⟨m, hm, hminOld⟩ := h.least
  obtain ⟨n, hn, hmaxOld⟩ := h.greatest
  have hsnoc : (points ++ [p]).map Prod.snd = points.map Prod.snd ++ [p.2] := by simp
  generalize hs' : ({ s with
    count := s.count + 1, sumFloat := sumFloat, sumInt := s.sumInt + p.2, mean := mean, m2 := m2
    minValue := minValue, maxValue := maxValue, lastTimestamp := p.1, lastValue := .int64 p.2 } : RunningAggregate) = s'
  obtain ⟨counts, mode, count, heq⟩ := exists_addMode go fn s' (.int64 p.2)
  have hmode := fun hfn : fn = .mode => addMode_modeStep go (s := s')
    (modeFold go ((points.map Prod.snd).map .int64)) (.int64 p.2) (by rw [← hs']; exact .inl (h.mode hfn).1)
    (by rw [← hs']; exact (h.mode hfn).2.1) (by rw [← hs']; exact (h.mode hfn).2.2)
  refine ⟨?_, ?_, ?_, ?_, ?_, ?_, ?_, ?_⟩
  · rw [heq, ← hs']
    exact h.valueType
  · rw [heq, ← hs', length_append, Int64.ofNat_add, ← h.count]
    rfl
  · rw [heq, ← hs', hsnoc, foldl_append, ← h.sumInt]
    rfl
  · rw [heq, ← hs', hsnoc, argmin_concat, hm]
    dsimp only
    rw [hmin m hminOld]
    split <;> exact ⟨_, rfl, rfl⟩
  · rw [heq, ← hs', hsnoc, argmin_concat, hn]
    dsimp only
    rw [hmax n hmaxOld]
    split <;> exact ⟨_, rfl, rfl⟩
  · rw [heq, ← hs', intPoints, map_append, head?_append_of_ne_nil _ (by simpa using hne)]
    exact h.first
  · rw [heq, ← hs', intPoints, map_append]
    simp
  · intro hfn
    rw [hsnoc, map_append, map_singleton, modeFold_concat _ _ (by simpa using hne)]
    subst hfn
    exact hmode rfl

theorem addFirstLast_of_le (value : FieldValue) (hfirst : ¬ t < s.firstTimestamp)
    (hlast : s.lastTimestamp ≤ t) : s.addFirstLast t value = { s with lastTimestamp := t, lastValue := value } := by
  simp [RunningAggregate.addFirstLast, if_neg hfirst, if_pos hlast]

theorem TakenIn.times (h : TakenIn go fn points s) (hsorted : (points ++ [p]).Pairwise (·.1 < ·.1)) :
    ¬ p.1 < s.firstTimestamp ∧ s.lastTimestamp ≤ p.1 := by
  obtain ⟨-, -, hlt⟩ := pairwise_append.mp hsorted
  have hbefore : ∀ q ∈ intPoints points, q.1 < p.1 := by
    intro q hq
    obtain ⟨r, hr, rfl⟩ := mem_map.mp hq
    exact hlt r hr p (mem_singleton_self p)
  have hfirst : s.firstTimestamp < p.1 := hbefore (s.firstTimestamp, s.firstValue) (mem_of_mem_head? h.first)
  have hlast : s.lastTimestamp < p.1 := hbefore (s.lastTimestamp, s.lastValue) (mem_of_getLast? h.last)
  exact ⟨Int64.not_lt.mpr (Int64.le_of_lt hfirst), Int64.le_of_lt hlast⟩

variable (go) in
theorem exists_addNumeric (s : RunningAggregate) (v : Int64) :
    ∃ sumFloat mean m2, s.addNumeric go (.int64 v) =
      { s with sumFloat := sumFloat, sumInt := s.sumInt + v, mean := mean, m2 := m2 } := ⟨_, _, _, rfl⟩

theorem takenIn_first (fn : AggregateFunction) (htype : s.valueType = .int64) (hcount : s.count = 1)
    (hsum : s.sumInt = 0 + p.2) (hmin : s.minValue = .int64 p.2) (hmax : s.maxValue = .int64 p.2)
    (hfirst : (s.firstTimestamp, s.firstValue) = (p.1, .int64 p.2))
    (hlast : (s.lastTimestamp, s.lastValue) = (p.1, .int64 p.2)) (hmodeCount : s.modeCount = 0)
    (hmodeCounts : s.modeCounts = ∅) : TakenIn go fn [p] (s.addMode go fn.name (.int64 p.2)) := by
  obtain ⟨counts, mode, count, heq⟩ := exists_addMode go fn s (.int64 p.2)
  refine ⟨?_, ?_, ?_, ?_, ?_, ?_, ?_, ?_⟩
  · rw [heq]
    exact htype
  · rw [heq]
    exact hcount
  · rw [heq]
    exact hsum
  · rw [heq]
    exact ⟨p.2, rfl, hmin⟩
  · rw [heq]
    exact ⟨p.2, rfl, hmax⟩
  · rw [heq]
    exact congrArg some hfirst.symm
  · rw [heq]
    exact congrArg some hlast.symm
  · intro hfn
    subst hfn
    refine addMode_modeStep go ([], .int64 p.2, 0) (.int64 p.2) (.inr rfl) hmodeCount fun k => ?_
    rw [hmodeCounts, GoMap.get?_empty]
    rfl

theorem takenIn_initial (fn : AggregateFunction) (p : Int64 × Int64) :
    TakenIn go fn [p] (RunningAggregate.initial go fn.name p.1 (.int64 p.2)) :=
  takenIn_first fn rfl rfl rfl rfl rfl rfl rfl rfl rfl

theorem TakenIn.addByFunction (h : TakenIn go fn points s) (hne : points ≠ [])
    (hsorted : (points ++ [p]).Pairwise (·.1 < ·.1)) :
    TakenIn go fn (points ++ [p]) (({ s with count := s.count + 1 }).addByFunction go fn.name p.1 (.int64 p.2)) := by
  obtain ⟨hfirst, hlast⟩ := h.times hsorted
  obtain ⟨sumFloat, mean, m2, hnumeric⟩ := exists_addNumeric go { s with count := s.count + 1 } p.2
  rw [RunningAggregate.addByFunction, hnumeric, RunningAggregate.addMinMax, addFirstLast_of_le]
  · refine h.concat hne p (fun m hm => ?_) (fun m hm => ?_)
    · simp [hm, (compareFloat_int p.2 m).1]
    · simp only [hm, (compareFloat_int p.2 m).2]
  · exact hfirst
  · exact hlast

/-- The count of a later sample is not 1 again: there are no more samples than timestamps. -/
theorem count_ne_one (hne : points ≠ []) (hsorted : (points ++ [p]).Pairwise (·.1 < ·.1)) :
    Int64.ofNat points.length + 1 ≠ 1 := by
  have hnodup : ((points ++ [p]).map fun q => q.1.toBitVec.toFin).Nodup := by
    rw [List.Nodup, pairwise_map]
    refine hsorted.imp fun {a b} hlt heq => ?_
    have hsame : a.1 = b.1 := Int64.toBitVec_inj.mp (BitVec.eq_of_toFin_eq heq)
    rw [hsame] at hlt
    exact Int64.lt_irrefl hlt
  have hle : (points ++ [p]).length ≤ 2 ^ 64 := by
    simpa using hnodup.length_le_card
  have hpos : 0 < points.length := length_pos_iff.mpr hne
  rw [length_append, length_singleton] at hle
  intro heq
  have hnat := congrArg (fun x => x.toBitVec.toNat) heq
  change (points.length % 2 ^ 64 + 1) % 2 ^ 64 = 1 at hnat
  omega

theorem takenIn_addValue_first (fn : AggregateFunction) (p : Int64 × Int64) :
    TakenIn go fn [p] (addValue go fn (initialRunning (p.1, .int64 p.2)) (p.1, .int64 p.2)).aggregate := by
  obtain ⟨sumFloat, mean, m2, hnumeric⟩ := exists_addNumeric go (initialRunning (p.1, .int64 p.2)).aggregate p.2
  rw [addValue, hnumeric, addMinMax, addFirstLast_of_le]
  · exact takenIn_first fn rfl rfl rfl rfl rfl rfl rfl rfl rfl
  · exact Int64.lt_irrefl
  · exact Int64.le_refl p.1

theorem TakenIn.addValue {r : DownsampleRunning} (h : TakenIn go fn points r.aggregate) (hne : points ≠ [])
    (hsorted : (points ++ [p]).Pairwise (·.1 < ·.1)) :
    TakenIn go fn (points ++ [p]) (addValue go fn
      { r with aggregate := { r.aggregate with count := r.aggregate.count + 1 } } (p.1, .int64 p.2)).aggregate := by
  obtain ⟨hfirst, hlast⟩ := h.times hsorted
  obtain ⟨sumFloat, mean, m2, hnumeric⟩ := exists_addNumeric go { r.aggregate with count := r.aggregate.count + 1 } p.2
  have hcount : r.aggregate.count + 1 ≠ 1 := by
    rw [h.count]
    exact count_ne_one hne hsorted
  rw [Downsample.addValue, hnumeric, addMinMax, addFirstLast_of_le]
  · refine h.concat hne p (fun m hm => ?_) (fun m hm => ?_)
    · simp [hm, downsampleFieldLess_int, hcount]
    · simp [hm, downsampleFieldLess_int, hcount]
  · exact hfirst
  · exact hlast

variable (go) in
theorem incremental_takesIn (fn : AggregateFunction) (hne : points ≠ []) (hsorted : points.Pairwise (·.1 < ·.1)) :
    ∃ r, (intPoints points).foldlM (IncrementalAggregateState.add go) (newIncrementalAggregateState fn.name) =
      .ok ⟨fn.name, some r⟩ ∧ TakenIn go fn points r := by
  induction points using List.reverseRecOn with
  | nil => exact absurd rfl hne
  | append_singleton points p ih =>
    have hsnoc : intPoints (points ++ [p]) = intPoints points ++ [(p.1, .int64 p.2)] := by simp [intPoints]
    rw [hsnoc]
    by_cases hnil : points = []
    · subst hnil
      refine ⟨_, foldlM_concat rfl ?_, takenIn_initial fn p⟩
      simp [IncrementalAggregateState.add, newIncrementalAggregateState, Engine.isNumericFieldValue]
    · obtain ⟨r, hr, htaken⟩ := ih hnil (pairwise_append.mp hsorted).1
      refine ⟨_, foldlM_concat hr ?_, htaken.addByFunction hnil hsorted⟩
      simp [IncrementalAggregateState.add, htaken.valueType, FieldValue.type, Engine.isNumericFieldValue]

variable (go) in
theorem downsample_takesIn (fn : AggregateFunction) (hne : points ≠ []) (hsorted : points.Pairwise (·.1 < ·.1)) :
    ∃ r, (intPoints points).foldlM (DownsampleAggregateState.add go) (newDownsampleAggregateState fn) =
      .ok ⟨fn, some r⟩ ∧ TakenIn go fn points r.aggregate := by
  induction points using List.reverseRecOn with
  | nil => exact absurd rfl hne
  | append_singleton points p ih =>
    have hsnoc : intPoints (points ++ [p]) = intPoints points ++ [(p.1, .int64 p.2)] := by simp [intPoints]
    rw [hsnoc]
    by_cases hnil : points = []
    · subst hnil
      refine ⟨_, foldlM_concat rfl ?_, takenIn_addValue_first fn p⟩
      simp [DownsampleAggregateState.add, newDownsampleAggregateState, Engine.isNumericFieldValue]
    · obtain ⟨r, hr, htaken⟩ := ih hnil (pairwise_append.mp hsorted).1
      refine ⟨_, foldlM_concat hr ?_, htaken.addValue hnil hsorted⟩
      simp [DownsampleAggregateState.add, htaken.valueType, FieldValue.type, Engine.isNumericFieldValue]

variable (go) in
theorem states_int (hfn : exactFunction fn = true) (hsorted : (p :: points).Pairwise (·.1 < ·.1))
    (hlo : ((p :: points).map Prod.snd).argmin floatKey = some lo)
    (hhi : ((p :: points).map Prod.snd).argmin (fun v => -floatKey v) = some hi) :
    aggregateOf go fn.name (intPoints (p :: points)) =
        .ok (.int64 (aggregateFrom go ((p :: points).map Prod.snd) lo hi fn)) ∧
      downsampleAggregateOf go fn (intPoints (p :: points)) =
        .ok (some (.int64 (aggregateFrom go ((p :: points).map Prod.snd) lo hi fn))) := by
  constructor
  · obtain ⟨r, hr, htaken⟩ := incremental_takesIn go fn (cons_ne_nil p points) hsorted
    have hstream : streamableGroupAggregate fn.name = true := by
      cases fn <;> first | decide | cases hfn
    have hvalue : IncrementalAggregateState.value go ⟨fn.name, some r⟩ =
        .ok (.int64 (aggregateFrom go ((p :: points).map Prod.snd) lo hi fn), r.outputTimestamp fn.name) := by
      change (r.aggregateValue go fn.name).map _ = _
      rw [(htaken.values hfn hlo hhi).1]
      rfl
    rw [aggregateOf, if_pos hstream, hr]
    change (do let value ← IncrementalAggregateState.value go ⟨fn.name, some r⟩; Except.ok value.1) = _
    rw [hvalue]
    rfl
  · obtain ⟨r, hr, htaken⟩ := downsample_takesIn go fn (cons_ne_nil p points) hsorted
    rw [downsampleAggregateOf, hr]
    exact (htaken.values hfn hlo hhi).2 r.series

end States

section Comparison

variable {values : List Int64}

theorem leastOf_iff (h : values.argmin Int64.toInt = some least) (m : Int64) : LeastOf values m ↔ m = least := by
  have hle := fun u hu => le_of_mem_argmin (a := u) hu h
  constructor
  · rintro ⟨hm, hmin⟩
    have h1 := (hmin least (argmin_mem h)).toInt_le
    exact Int64.toInt_inj.mp (Int.le_antisymm h1 (hle m hm))
  · rintro rfl
    exact ⟨argmin_mem h, fun u hu => Int64.le_iff_toInt_le.mpr (hle u hu)⟩

theorem greatestOf_iff (h : values.argmin (fun v => -v.toInt) = some greatest) (m : Int64) :
    GreatestOf values m ↔ m = greatest := by
  have hle := fun u hu => le_of_mem_argmin (a := u) hu h
  constructor
  · rintro ⟨hm, hmax⟩
    have h1 := (hmax greatest (argmin_mem h)).toInt_le
    have h2 := hle m hm
    exact Int64.toInt_inj.mp (by omega)
  · rintro rfl
    refine ⟨argmin_mem h, fun u hu => Int64.le_iff_toInt_le.mpr ?_⟩
    have := hle u hu
    omega

theorem firstOfFloat_iff {extreme : List Int64 → Int64 → Prop} {f g : Int64 → Int}
    (hextreme : ∀ u, extreme values u ↔ u = m) (hfg : ∀ u v, f u ≤ f v → g u ≤ g v)
    (hkey : ∀ u v, g u = g v ↔ floatKey u = floatKey v) (hm : values.argmin f = some m)
    (hn : values.argmin g = some n) : FirstOfFloat values extreme ↔ n = m := by
  rw [argmin_eq_iff_find? hfg hm hn]
  simp only [FirstOfFloat, hextreme, forall_eq, Float64.eq_ofInt64, hkey]
  rfl

theorem floatKey_mono (h : u.toInt ≤ v.toInt) : floatKey u ≤ floatKey v :=
  Float64.rank_ofInt64_mono (Int64.le_iff_toInt_le.mpr h)

theorem lo_le_hi (hlo : values.argmin floatKey = some lo) (hhi : values.argmin (fun v => -floatKey v) = some hi) :
    lo.toInt ≤ hi.toInt := by
  by_contra hgt
  have h1 := floatKey_mono (show hi.toInt ≤ lo.toInt by omega)
  have h2 := le_of_mem_argmin (argmin_mem hhi) hlo
  have heq : floatKey hi = floatKey lo := by omega
  -- all values have one float64 then, and both are the first value
  have hfindLo := find?_of_argmin hlo
  have hfindHi := find?_of_argmin hhi
  simp only [neg_inj, heq] at hfindHi
  obtain rfl := Option.some.inj (hfindLo.symm.trans hfindHi)
  exact hgt (Int.le_refl _)

theorem spread_eq_iff (hleast : values.argmin Int64.toInt = some least)
    (hgreatest : values.argmin (fun v => -v.toInt) = some greatest) (hlo : values.argmin floatKey = some lo)
    (hhi : values.argmin (fun v => -floatKey v) = some hi) :
    greatest - least = hi - lo ↔ lo = least ∧ hi = greatest := by
  constructor
  · intro heq
    have h1 := le_of_mem_argmin (argmin_mem hlo) hleast
    have h2 := le_of_mem_argmin (argmin_mem hhi) hgreatest
    have h3 := lo_le_hi hlo hhi
    have h4 := least.le_toInt
    have h5 := greatest.toInt_lt
    have hmod := congrArg Int64.toInt heq
    rw [Int64.toInt_sub, Int64.toInt_sub, Int.bmod_eq_bmod_iff_bmod_sub_eq_zero] at hmod
    obtain ⟨k, hk⟩ := Int.dvd_of_bmod_eq_zero hmod
    exact ⟨Int64.toInt_inj.mp (by omega), Int64.toInt_inj.mp (by omega)⟩
  · rintro ⟨rfl, rfl⟩
    rfl

theorem toInt_foldl_add (values : List Int64) (sum : Int64) :
    (values.foldl (· + ·) sum).toInt = (sum.toInt + (values.map Int64.toInt).sum).bmod (2 ^ 64) := by
  induction values generalizing sum with
  | nil =>
    have hlow := sum.le_toInt
    have hhigh := sum.toInt_lt
    simp
  | cons v values ih =>
    rw [foldl_cons, ih, Int64.toInt_add, Int.bmod_add_bmod, map_cons, sum_cons, Int.add_assoc]

theorem isAggregate_from (go : GoLib) (hfn : exactFunction fn = true) (hsum : -2 ^ 63 ≤ ((v :: values).map Int64.toInt).sum ∧
      ((v :: values).map Int64.toInt).sum < 2 ^ 63) (hleast : (v :: values).argmin Int64.toInt = some least)
    (hgreatest : (v :: values).argmin (fun v => -v.toInt) = some greatest) :
    IsAggregate (v :: values) (aggregateFrom go (v :: values) least greatest fn) fn := by
  have hlo : LeastOf (v :: values) least := (leastOf_iff hleast least).mpr rfl
  have hhi : GreatestOf (v :: values) greatest := (greatestOf_iff hgreatest greatest).mpr rfl
  cases fn with
  | count => rfl
  | sum =>
    change ((v :: values).foldl (· + ·) 0).toInt = _
    rw [toInt_foldl_add, show (0 : Int64).toInt = 0 from rfl, Int.zero_add, Int.bmod_eq_of_le (by omega) (by omega)]
  | min | bottom => exact hlo
  | max | top => exact hhi
  | first => rfl
  | last =>
    change (v :: values).getLast? = some ((v :: values).getLast?.getD 0)
    rfl
  | spread => exact ⟨least, greatest, hlo, hhi, rfl⟩
  | mode =>
    obtain ⟨m, hm, hmode⟩ := exists_aggregateMode go v values
    have hfrom : aggregateFrom go (v :: values) least greatest .mode = m := congrArg int64Field hm
    rw [hfrom]
    exact hmode
  | _ => cases hfn

/-- On int64 samples the three implementations agree on the exact functions, and return what they should, exactly
when the functions that compare values compare them in an order in which their float64 does not mislead. -/
theorem aggregates_agree_iff (go : GoLib) {fn : AggregateFunction} (hfn : exactFunction fn = true)
    {points : List (Int64 × Int64)} (hne : points ≠ []) (hsorted : points.Pairwise fun a b => a.1 < b.1)
    (hsum : -2 ^ 63 ≤ ((points.map Prod.snd).map Int64.toInt).sum ∧
      ((points.map Prod.snd).map Int64.toInt).sum < 2 ^ 63) :
    Agree go fn points ↔ ComparesExactly (points.map Prod.snd) fn := by
  obtain ⟨p, points, rfl⟩ := exists_cons_of_ne_nil hne
  have hsome : ∀ f : Int64 → Int, ∃ m, ((p :: points).map Prod.snd).argmin f = some m := by
    intro f
    rw [← Option.ne_none_iff_exists', ne_eq, argmin_eq_none]
    simp
  obtain ⟨least, hleast⟩ := hsome Int64.toInt
  obtain ⟨greatest, hgreatest⟩ := hsome fun v => -v.toInt
  obtain ⟨lo, hlo⟩ := hsome floatKey
  obtain ⟨hi, hhi⟩ := hsome fun v => -floatKey v
  have hbatch := aggregateValuesByTime_int go hfn p points hleast hgreatest
  obtain ⟨hincremental, hdownsample⟩ := states_int go hfn hsorted hlo hhi
  have hmeans := isAggregate_from go hfn hsum hleast hgreatest
  have hagree : Agree go fn (p :: points) ↔ aggregateFrom go ((p :: points).map Prod.snd) least greatest fn =
      aggregateFrom go ((p :: points).map Prod.snd) lo hi fn := by
    constructor
    · rintro ⟨v, h1, h2, -, -⟩
      rw [hbatch] at h1
      rw [hincremental] at h2
      rw [FieldValue.int64.inj (Except.ok.inj h1), FieldValue.int64.inj (Except.ok.inj h2)]
    · intro heq
      exact ⟨_, hbatch, heq ▸ hincremental, heq ▸ hdownsample, hmeans⟩
  have hmin := firstOfFloat_iff (leastOf_iff hleast) (fun u v => floatKey_mono) (fun u v => Iff.rfl) hleast hlo
  have hmax := firstOfFloat_iff (greatestOf_iff hgreatest)
    (fun u v h => Int.neg_le_neg (floatKey_mono (Int.neg_le_neg_iff.mp h))) (fun u v => neg_inj) hgreatest hhi
  rw [hagree]
  cases fn with
  | min | bottom => exact eq_comm.trans hmin.symm
  | max | top => exact eq_comm.trans hmax.symm
  | spread => exact (spread_eq_iff hleast hgreatest hlo hhi).trans (and_congr hmin hmax).symm
  | count | sum | first | last | mode => exact iff_of_true rfl trivial
  | _ => cases hfn

/-- `2 ^ 53 + 1` and `2 ^ 53` have one float64. The batch aggregator returns the least of them, the states the
first. -/
theorem least_above_two_pow_53 :
    ¬ Agree ⟨id, fun a _ => a, fun a _ => a, fun a _ => a, fun a _ => a, id, id, fun _ => []⟩ .min
      [(1, 9007199254740993), (2, 9007199254740992)] := by
  rintro ⟨v, hbatch, hincremental, -, -⟩
  have h1 : v = 9007199254740992 := (FieldValue.int64.inj (Except.ok.inj hbatch)).symm
  have h2 : v = 9007199254740993 := (FieldValue.int64.inj (Except.ok.inj hincremental)).symm
  rw [h1] at h2
  revert h2
  decide

theorem least_of_small_values :
    Agree ⟨id, fun a _ => a, fun a _ => a, fun a _ => a, fun a _ => a, id, id, fun _ => []⟩ .min
      [(1, 3), (2, 2), (3, 2)] := by
  refine (aggregates_agree_iff _ rfl (by simp) (by decide) (by decide)).mpr fun m hm => ?_
  have hleast : ([3, 2, 2] : List Int64).argmin Int64.toInt = some 2 := by decide
  obtain rfl := (leastOf_iff hleast m).mp hm
  decide

end Comparison

end Mts.Downsample
