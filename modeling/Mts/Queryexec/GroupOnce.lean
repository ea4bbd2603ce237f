import Mts.Queryexec.ExprRows
import Mts.Queryexec.GroupAggregate

/-! How often the grouped aggregation uses a sample. Accumulators are found by a joined text of function, field and
group tags, and a column is fed to the accumulator of a spec once for each spec that applies to it. -/

namespace Mts.Queryexec
open Lib Model List

variable {acc : GroupAccumulator} {a : GroupAggregate}

/-- What an accumulator is the aggregate of, as its output column shows it. -/
def GroupAccumulator.target (acc : GroupAccumulator) : GroupAggregate := ⟨acc.function, acc.fieldName, acc.tags⟩

section Specification
variable (go : GoLib) (specs : List AggregateSpec) (names : List GoString) (columns : List ColumnSeries)

/-- Each accumulator is that of one aggregate and was fed with the points of its field in its group, each once, and
every aggregate has an accumulator of its own. -/
structure CountsOnce (window : Int64) (m : GoMap GoString GroupAccumulator) : Prop where
  used : ∀ {k acc}, m.get? k = some acc → ∃ a ∈ groupAggregates go specs names columns, acc.target = a ∧
    usedPoints go specs names columns k = groupPoints names columns a ∧
    (groupPoints names columns a).foldlM (GroupAccumulator.add go) (a.accumulator window) = .ok acc
  own : ∀ a ∈ groupAggregates go specs names columns, ∃ k acc, m.get? k = some acc ∧ acc.target = a

/-- Keys tell aggregates apart, and no column with a point has two specs with one function. -/
structure Distinguished : Prop where
  keys : ∀ a ∈ groupAggregates go specs names columns, ∀ b ∈ groupAggregates go specs names columns,
    a.key names = b.key names → a = b
  once : ∀ c ∈ columns, c.points ≠ [] → ((specs.filter fun spec => spec.appliesTo c.fieldName).map fun spec =>
    go.toLower spec.function).Nodup

end Specification

section Feeding
variable {go : GoLib} {specs : List AggregateSpec} {names : List GoString} {window : Int64}
  {columns : List ColumnSeries} {m : GoMap GoString GroupAccumulator} {acc' : GroupAccumulator}

theorem target_add (h : acc.add go pt = .ok acc') : acc'.target = acc.target := by
  unfold GroupAccumulator.add at h
  split at h
  · cases h
    rfl
  · split at h
    · split at h
      · obtain ⟨s, -, rfl⟩ := except_map_ok h
        rfl
      · cases h
        rfl
    · obtain ⟨s, -, rfl⟩ := except_map_ok h
      rfl

theorem target_foldlM {points : List (Int64 × FieldValue)}
    (h : points.foldlM (GroupAccumulator.add go) acc = .ok acc') : acc'.target = acc.target := by
  induction points using List.reverseRecOn generalizing acc' with
  | nil =>
    cases h
    rfl
  | append_singleton points pt ih =>
    obtain ⟨t, ht, hadd⟩ := foldlM_concat_ok h
    exact (target_add hadd).trans (ih ht)

theorem length_flatMap_replicate (cs : List ColumnSeries) (n : Nat) :
    (cs.flatMap fun c => (List.replicate n c.points).flatten).length = n * (cs.flatMap ColumnSeries.points).length := by
  induction cs with
  | nil => rfl
  | cons c cs ih =>
    rw [flatMap_cons, flatMap_cons, length_append, length_append, ih, Nat.mul_add]
    simp

theorem flatMap_replicate_eq_iff (cs : List ColumnSeries) (n : Nat) :
    (cs.flatMap fun c => (List.replicate n c.points).flatten) = cs.flatMap ColumnSeries.points ↔
      n = 1 ∨ ∀ c ∈ cs, c.points = [] := by
  constructor
  · intro h
    have hlength := congrArg List.length h
    rw [length_flatMap_replicate] at hlength
    rcases Nat.eq_zero_or_pos (cs.flatMap ColumnSeries.points).length with hzero | hpos
    · exact .inr (flatMap_eq_nil_iff.mp (length_eq_zero_iff.mp hzero))
    · exact .inl (Nat.eq_of_mul_eq_mul_right hpos (hlength.trans (Nat.one_mul _).symm))
  · rintro (rfl | hempty)
    · simp
    · refine flatMap_congr fun c hc => ?_
      simp [hempty c hc]

theorem usedPoints_eq_iff (hkeys : ∀ b ∈ groupAggregates go specs names columns, b.key names = a.key names → b = a) :
    usedPoints go specs names columns (a.key names) = groupPoints names columns a ↔ repeats go specs a = 1 ∨
      ∀ c ∈ columns, c.fieldName = a.fieldName → projectGroupTags c.tags names = a.tags → c.points = [] := by
  rw [usedPoints_key hkeys, groupPoints, flatMap_replicate_eq_iff]
  simp [and_imp]

end Feeding

section Once
variable {go : GoLib} {specs : List AggregateSpec} {names : List GoString} {window : Int64}
  {columns : List ColumnSeries} {m : GoMap GoString GroupAccumulator}

theorem target_spec (hm : columns.foldlM (appendColumn go specs names window) ∅ = .ok m) {k : GoString}
    (hget : m.get? k = some acc) :
    acc.target ∈ groupAggregates go specs names columns ∧ acc.target.key names = k ∧
      (usedPoints go specs names columns k).foldlM (GroupAccumulator.add go) (acc.target.accumulator window) =
        .ok acc := by
  obtain ⟨a, ha, hkey, hfold⟩ := used_of_foldlM hm hget
  obtain rfl : acc.target = a := target_foldlM hfold
  exact ⟨ha, hkey, hfold⟩

section
variable (h : CountsOnce go specs names columns window m)
  (hm : columns.foldlM (appendColumn go specs names window) ∅ = .ok m)
include h hm

theorem CountsOnce.keys (ha : a ∈ groupAggregates go specs names columns)
    (hb : b ∈ groupAggregates go specs names columns) (hkey : a.key names = b.key names) : a = b := by
  obtain ⟨k, acc, hget, rfl⟩ := h.own a ha
  obtain ⟨k', acc', hget', rfl⟩ := h.own b hb
  rw [(target_spec hm hget).2.1, (target_spec hm hget').2.1] at hkey
  subst hkey
  rw [Option.some.inj (hget.symm.trans hget')]

theorem CountsOnce.once (hc : c ∈ columns) (hpoints : c.points ≠ []) :
    ((specs.filter fun spec => spec.appliesTo c.fieldName).map fun spec =>
      go.toLower spec.function).Nodup := by
  refine nodup_iff_count_le_one.mpr fun fn => ?_
  by_contra hmany
  obtain ⟨spec, hspec, rfl⟩ := mem_map.mp (count_pos_iff.mp (Nat.zero_lt_of_lt (not_le.mp hmany)))
  obtain ⟨hspec, happlies⟩ := mem_filter.mp hspec
  have ha : groupAggregate go names c spec ∈ groupAggregates go specs names columns :=
    mem_groupAggregates.mpr ⟨c, hc, spec, hspec, happlies, rfl⟩
  obtain ⟨k, acc, hget, hacc⟩ := h.own _ ha
  obtain ⟨a, -, rfl, hused, -⟩ := h.used hget
  rw [← (target_spec hm hget).2.1, hacc, usedPoints_eq_iff fun b hb => h.keys hm hb ha] at hused
  rcases hused with hone | hempty
  · exact hmany hone.le
  · exact hpoints (hempty c hc rfl rfl)

end

end Once

def sampleColumn (tags : List (GoString × GoString)) : ColumnSeries :=
  ⟨1, tags.foldl (fun tags tag => tags.set tag.1 tag.2) TagMap.empty, 1, [118], some .int64, [(5, .int64 7)]⟩

def countTwice : List AggregateSpec := [⟨[118], AggregateFunction.name .count⟩, ⟨[], AggregateFunction.name .count⟩]

def joinedColumns : List ColumnSeries :=
  [sampleColumn [([97], [120, 0, 98, 61, 121]), ([98], [122])],
    sampleColumn [([97], [120]), ([98], [121, 0, 98, 61, 122])]]

end Mts.Queryexec
