import Mts.Queryexec.ExprRows
import Mts.Queryexec.GroupAggregate

/-! Rows of grouped aggregates, `QueryRowIterator` over a grouped query. A grouped column has no series, its
series ID is 0, so that the row merger takes the columns of all groups for one series and joins them by
timestamp. -/

namespace Mts.Queryexec
open Lib Model List

section Definitions
variable (go : GoLib) (specs : List AggregateSpec) (names : List GoString) (window : Int64)
  (columns : List ColumnSeries)

/-- A group has points in a window, and an aggregate of them has a name and a value. Without windows the points
are all those of the group. -/
def HasAggregate (tags : TagMap) (w : Option Int64) (name : GoString) (x : FieldValue) : Prop :=
  ∃ a ∈ groupAggregates go specs names columns, a.tags = tags ∧ aggregateName a.function a.fieldName = name ∧
    (∃ p ∈ groupPoints names columns a, windowOf window p.1 = w) ∧
    aggregateOf go a.function ((orderedPoints a.function (groupPoints names columns a)).filter fun p =>
      windowOf window p.1 = w) = .ok x

/-- One row for each group and window that has points, with the aggregates of that group in that window. -/
structure GroupRows (rows : List Row) : Prop where
  fields : ∀ row ∈ rows, ∀ name x, row.fields name = some x ↔
    HasAggregate go specs names window columns row.tags (rowWindow window row.timestamp) name x
  filled : ∀ row ∈ rows, ∃ name x, row.fields name = some x
  complete : ∀ tags w name x, HasAggregate go specs names window columns tags w name x →
    ∃ row ∈ rows, row.tags = tags ∧ rowWindow window row.timestamp = w
  unique : rows.Pairwise fun row row' => row.tags = row'.tags →
    rowWindow window row.timestamp ≠ rowWindow window row'.timestamp

/-- The values of two groups do not stand at one timestamp. Without windows those of one group do. -/
def Separate : Prop :=
  ∀ a ∈ groupAggregates go specs names columns, ∀ b ∈ groupAggregates go specs names columns,
    ∀ t ∈ standing window a.function (groupPoints names columns a),
    ∀ t' ∈ standing window b.function (groupPoints names columns b),
      (t = t' → a.tags = b.tags) ∧ (window ≤ 0 → a.tags = b.tags → t = t')

-- quantifiers over the timestamps of a list, not over all timestamps
instance : Decidable (Separate go specs names window columns) :=
  @List.decidableBAll _ _ (fun a => @List.decidableBAll _ _ (fun b => @List.decidableBAll _ _ (fun t =>
    @List.decidableBAll _ _ (fun t' =>
      inferInstanceAs (Decidable ((t = t' → a.tags = b.tags) ∧ (window ≤ 0 → a.tags = b.tags → t = t')))) _) _) _) _

end Definitions

section Standing
variable {window : Int64} {fn : GoString} {points : List (Int64 × FieldValue)}

theorem exists_point_of_standing (h : t ∈ standing window fn points) :
    ∃ p ∈ points, windowOf window p.1 = rowWindow window t := by
  unfold standing at h
  split at h
  · next hwindow =>
    have hne : points ≠ [] := by
      rintro rfl
      simp [earliest, latest] at h
    obtain ⟨p, hp⟩ := exists_mem_of_ne_nil points hne
    exact ⟨p, hp, by rw [windowOf, rowWindow, if_pos hwindow, if_pos hwindow]⟩
  · next hwindow =>
    obtain ⟨p, hp, rfl⟩ := mem_map.mp h
    exact ⟨p, hp, by rw [windowOf, rowWindow, if_neg hwindow]⟩

theorem exists_standing_of_point (window : Int64) (fn : GoString) (hp : p ∈ points) :
    ∃ t ∈ standing window fn points, rowWindow window t = windowOf window p.1 := by
  unfold standing
  split
  · next hwindow =>
    have hsorted : p ∈ points.insertionSort (·.1 ≤ ·.1) := (mem_insertionSort _).mpr hp
    have hsome : ∃ t, (if AggregateFunction.parse fn = some .last then latest points else earliest points) =
        some t := by
      unfold earliest latest
      cases hs : points.insertionSort fun p q => p.1 ≤ q.1 with
      | nil =>
        rw [hs] at hsorted
        cases hsorted
      | cons q rest =>
        split
        · exact ⟨_, by rw [getLast?_cons]; rfl⟩
        · exact ⟨_, rfl⟩
    obtain ⟨t, ht⟩ := hsome
    refine ⟨t, by rw [ht]; exact mem_singleton_self t, ?_⟩
    rw [windowOf, rowWindow, if_pos hwindow, if_pos hwindow]
  · next hwindow =>
    refine ⟨_, mem_map_of_mem hp, ?_⟩
    rw [windowOf, rowWindow, if_neg hwindow]

theorem aggregateOf_known (h : aggregateOf go fn points = .ok x) : (AggregateFunction.parse fn).isSome = true := by
  unfold aggregateOf at h
  split at h
  · next hfn =>
    unfold streamableGroupAggregate at hfn
    cases hparse : AggregateFunction.parse fn with
    | some f => rfl
    | none => simp [hparse] at hfn
  · exact aggregateValuesByTime_known h

end Standing

section Rows
variable {go : GoLib} {specs : List AggregateSpec} {names : List GoString} {window : Int64}
  {columns out : List ColumnSeries}

structure GroupedColumns (go : GoLib) (specs : List AggregateSpec) (names : List GoString) (window : Int64)
    (columns out : List ColumnSeries) : Prop where
  column : ∀ c ∈ out, ∃ a ∈ groupAggregates go specs names columns,
    ColumnOf go window a (groupPoints names columns a) c
  aggregate : ∀ a ∈ groupAggregates go specs names columns, ∃ c ∈ out,
    ColumnOf go window a (groupPoints names columns a) c

section
variable (h : GroupedColumns go specs names window columns out)
include h

theorem rowMergeStream_of_grouped : rowMergeStream out = rowsFromSeriesColumns out := by
  have hid : ∀ c ∈ out, c.seriesID = 0 := by
    intro c hc
    obtain ⟨a, -, hof⟩ := h.column c hc
    exact hof.seriesID
  cases hout : out with
  | nil => rfl
  | cons c rest =>
    rw [← hout, rowMergeStream, runsBy_of_const ColumnSeries.seriesID
      (fun a ha b hb => (hid a ha).trans (hid b hb).symm) (by simp [hout]), flatMap_singleton]

theorem nodup_times_of_grouped : ((rowsFromSeriesColumns out).map Row.timestamp).Nodup := by
  rw [rowsFromSeriesColumns, map_map]
  refine nodup_time_joinColumns fun d hd => ?_
  obtain ⟨c, hc, rfl⟩ := mem_map.mp hd
  obtain ⟨a, -, hof⟩ := h.column c hc
  exact nodup_times hof.times

theorem joinable_of_separate (hsep : Separate go specs names window columns) :
    Joinable (out.map ColumnSeries.column) := by
  refine ⟨fun d hd => ?_, fun d hd => ?_, fun {t k x y} hx hy => ?_⟩
  · obtain ⟨c, hc, rfl⟩ := mem_map.mp hd
    obtain ⟨a, -, hof⟩ := h.column c hc
    exact pairwise_map.mpr (hof.times.imp fun {p q} => Int64.le_of_lt)
  · obtain ⟨c, hc, rfl⟩ := mem_map.mp hd
    obtain ⟨a, -, hof⟩ := h.column c hc
    exact nodup_times hof.times
  · obtain ⟨_, hcolumn, rfl, hx⟩ := hx
    obtain ⟨_, hcolumn', hname, hy⟩ := hy
    obtain ⟨c, hc, rfl⟩ := mem_map.mp hcolumn
    obtain ⟨d, hd, rfl⟩ := mem_map.mp hcolumn'
    obtain ⟨a, ha, hof⟩ := h.column c hc
    obtain ⟨b, hb, hof'⟩ := h.column d hd
    obtain ⟨hstand, hx⟩ := (hof.values t x).mp hx
    obtain ⟨hstand', hy⟩ := (hof'.values t y).mp hy
    have htags := (hsep a ha b hb t hstand t hstand').1 rfl
    have hname : aggregateName b.function b.fieldName = aggregateName a.function a.fieldName := by
      rw [← hof.fieldName, ← hof'.fieldName]
      exact hname
    obtain ⟨hfn, hfield⟩ := aggregateName_inj (aggregateOf_known hy) (aggregateOf_known hx) hname
    obtain rfl : a = b := GroupAggregate.ext hfn.symm hfield.symm htags
    exact Except.ok.inj (hx.symm.trans hy)

theorem groupRows_of_separate (hsep : Separate go specs names window columns) :
    GroupRows go specs names window columns (rowsFromSeriesColumns out) := by
  have hjoin := joinColumns_joinOf (joinable_of_separate h hsep)
  -- a row stands at a timestamp of an aggregate of its group
  have hhead : ∀ row ∈ joinColumns (out.map ColumnSeries.column), ∃ a ∈ groupAggregates go specs names columns,
      a.tags = row.head.2 ∧ row.time ∈ standing window a.function (groupPoints names columns a) ∧
        ∃ c ∈ out, ColumnOf go window a (groupPoints names columns a) c ∧ row.time ∈ c.points.map Prod.fst := by
    intro row hrow
    obtain ⟨_, hcolumn, hhead, htime⟩ := hjoin.head row hrow
    obtain ⟨c, hc, rfl⟩ := mem_map.mp hcolumn
    obtain ⟨a, ha, hof⟩ := h.column c hc
    obtain ⟨⟨t, x⟩, hx, rfl⟩ := mem_map.mp htime
    refine ⟨a, ha, ?_, ((hof.values _ x).mp hx).1, c, hc, hof, htime⟩
    rw [hhead, ← hof.tags]
    rfl
  -- the cells at a timestamp are the aggregates of the group that stands there
  have hcell : ∀ {a t name x}, a ∈ groupAggregates go specs names columns →
      t ∈ standing window a.function (groupPoints names columns a) →
      (HasCell (out.map ColumnSeries.column) t name x ↔
        HasAggregate go specs names window columns a.tags (rowWindow window t) name x) := by
    intro a t name x ha ht
    constructor
    · rintro ⟨_, hcolumn, rfl, hx⟩
      obtain ⟨c, hc, rfl⟩ := mem_map.mp hcolumn
      obtain ⟨b, hb, hof⟩ := h.column c hc
      obtain ⟨hstand, hx⟩ := (hof.values t x).mp hx
      exact ⟨b, hb, ((hsep a ha b hb t ht t hstand).1 rfl).symm, hof.fieldName.symm,
        exists_point_of_standing hstand, hx⟩
    · rintro ⟨b, hb, htags, rfl, ⟨p, hp, hw⟩, hx⟩
      obtain ⟨c, hc, hof⟩ := h.aggregate b hb
      refine ⟨c.column, mem_map_of_mem hc, hof.fieldName, (hof.values t x).mpr ⟨?_, hx⟩⟩
      obtain ⟨t', ht', hrow⟩ := exists_standing_of_point window b.function hp
      by_cases hwindow : window ≤ 0
      · rwa [(hsep a ha b hb t ht t' ht').2 hwindow htags.symm]
      · rw [hw, rowWindow, rowWindow, if_neg hwindow, if_neg hwindow] at hrow
        rwa [← Option.some.inj hrow]
  have hmem : ∀ row, row ∈ rowsFromSeriesColumns out ↔ ∃ r ∈ joinColumns (out.map ColumnSeries.column),
      Row.ofJoined r = row := fun row => mem_map
  refine ⟨fun row hrow name x => ?_, fun row hrow => ?_, fun tags w name x hx => ?_, ?_⟩
  · obtain ⟨r, hr, rfl⟩ := (hmem row).mp hrow
    obtain ⟨a, ha, htags, hstand, -⟩ := hhead r hr
    change r.fields name = some x ↔ HasAggregate go specs names window columns r.head.2 _ name x
    rw [hjoin.fields r hr, hcell ha hstand, htags]
    rfl
  · obtain ⟨r, hr, rfl⟩ := (hmem row).mp hrow
    obtain ⟨a, ha, -, hstand, c, hc, -, htime⟩ := hhead r hr
    obtain ⟨⟨t, x⟩, hx, ht⟩ := mem_map.mp htime
    exact ⟨c.fieldName, x, (hjoin.fields r hr _ x).mpr ⟨c.column, mem_map_of_mem hc, rfl, ht ▸ hx⟩⟩
  · obtain ⟨b, hb, rfl, rfl, ⟨p, hp, hw⟩, hx⟩ := hx
    obtain ⟨t, ht, hrow⟩ := exists_standing_of_point window b.function hp
    obtain ⟨c, hc, hof⟩ := h.aggregate b hb
    obtain ⟨y, hy⟩ := hof.complete t ht
    obtain ⟨r, hr, rfl⟩ := hjoin.complete c.column (mem_map_of_mem hc) t (mem_map.mpr ⟨_, hy, rfl⟩)
    obtain ⟨a, ha, htags, hstand, -⟩ := hhead r hr
    refine ⟨Row.ofJoined r, (hmem _).mpr ⟨r, hr, rfl⟩, ?_, hrow.trans hw⟩
    exact htags.symm.trans ((hsep a ha b hb _ hstand _ ht).1 rfl)
  · have hnodup := pairwise_map.mp (nodup_times_of_grouped h)
    refine List.Pairwise.imp_of_mem (fun {row row'} hrow hrow' hne htags heq => hne ?_) hnodup
    by_cases hwindow : window ≤ 0
    · obtain ⟨r, hr, rfl⟩ := (hmem row).mp hrow
      obtain ⟨r', hr', rfl⟩ := (hmem row').mp hrow'
      obtain ⟨a, ha, hatags, hstand, -⟩ := hhead r hr
      obtain ⟨b, hb, hbtags, hstand', -⟩ := hhead r' hr'
      exact (hsep a ha b hb _ hstand _ hstand').2 hwindow (hatags.trans (htags.trans hbtags.symm))
    · rw [rowWindow, rowWindow, if_neg hwindow, if_neg hwindow] at heq
      exact Option.some.inj heq

theorem separate_of_groupRows (hw : 0 < window)
    (hrows : GroupRows go specs names window columns (rowsFromSeriesColumns out)) :
    Separate go specs names window columns := by
  have hwindow : ¬ window ≤ 0 := Int64.not_le.mpr hw
  have hrow : ∀ {a t}, a ∈ groupAggregates go specs names columns →
      t ∈ standing window a.function (groupPoints names columns a) →
      ∃ row ∈ rowsFromSeriesColumns out, row.tags = a.tags ∧ row.timestamp = t := by
    intro a t ha ht
    obtain ⟨c, hc, hof⟩ := h.aggregate a ha
    obtain ⟨x, hx⟩ := hof.complete t ht
    obtain ⟨row, hrow, htags, htime⟩ := hrows.complete a.tags (rowWindow window t) _ x
      ⟨a, ha, rfl, rfl, exists_point_of_standing ht, ((hof.values t x).mp hx).2⟩
    rw [rowWindow, rowWindow, if_neg hwindow, if_neg hwindow] at htime
    exact ⟨row, hrow, htags, Option.some.inj htime⟩
  intro a ha b hb t ht t' ht'
  refine ⟨?_, fun hle => absurd hle hwindow⟩
  rintro rfl
  obtain ⟨row, hmem, htags, htime⟩ := hrow ha ht
  obtain ⟨row', hmem', htags', htime'⟩ := hrow hb ht'
  have hsame : row = row' := inj_on_of_nodup_map (nodup_times_of_grouped h) hmem hmem' (htime.trans htime'.symm)
  rw [← htags, hsame, htags']

end

end Rows

theorem groupedColumns_of_stream (group : QueryGroup) (window : Int64) (htags : group.tags ≠ [])
    (hplain : PlainGroups go specs group.tags (group.windowOr window) columns)
    (hout : groupAggregateColumnStream go specs group window columns = .ok out) :
    GroupedColumns go specs group.tags (group.windowOr window) columns out := by
  rw [groupAggregateColumnStream, if_neg (by simpa using htags)] at hout
  exact ⟨(columnOf_groupColumns hplain hout).1, (columnOf_groupColumns hplain hout).2⟩

def hostColumns (t t' : Int64) : List ColumnSeries :=
  [⟨1, TagMap.empty.set [104] [97], 1, [118], some .int64, [(t, .int64 10)]⟩,
   ⟨2, TagMap.empty.set [104] [98], 1, [118], some .int64, [(t', .int64 20)]⟩]

def sumOfV : List AggregateSpec := [⟨[118], AggregateFunction.sum.name⟩]

end Mts.Queryexec
