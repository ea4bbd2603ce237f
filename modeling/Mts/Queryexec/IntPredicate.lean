import Mts.Queryexec.Rows
import Mts.Sstable.Read

/-! Integer field predicates, `queryexec/filter.go`, `expression_filter.go` and `sstable/read_page_match.go`. Rows
and columns compare integers as `float64`, the statistics of a page as `int64`. -/

namespace Mts.Queryexec
open Lib Model

def filterColumnByPredicates (predicates : List QueryPredicate) (column : ColumnSeries) : ColumnSeries :=
  let relevant := predicates.filter fun p => p.name = column.fieldName
  if relevant.isEmpty then column
  else { column with points := column.points.filter fun pt => relevant.all (valueMatchesPredicate pt.2) }

def Compares (x y : Int) : FieldComparison → Prop
  | .eq => x = y
  | .ne => x ≠ y
  | .gt => x > y
  | .gte => x ≥ y
  | .lt => x < y
  | .lte => x ≤ y

def intPredicate (k : FieldComparison) (name : GoString) (y : Int64) : QueryPredicate :=
  { kind := .field k, name := name, value := .int64 y }

/-- The filters take `x` where it compares with `y` as an integer, and no page with such an `x` is skipped. -/
structure ComparesExactly (x y : Int64) : Prop where
  rows : ∀ k (row : Row) name, row.fields name = some (.int64 x) →
    (rowMatchesPredicates [intPredicate k name y] row = true ↔ Compares x.toInt y.toInt k)
  exprs : ∀ k (row : Row) name, row.fields name = some (.int64 x) →
    (rowMatchesExprPredicate row (intPredicate k name y) = true ↔ Compares x.toInt y.toInt k)
  columns : ∀ k (c : ColumnSeries) t, (t, .int64 x) ∈ c.points →
    ((t, .int64 x) ∈ (filterColumnByPredicates [intPredicate k c.fieldName y] c).points ↔ Compares x.toInt y.toInt k)
  pages : ∀ k minimum maximum, minimum ≤ x → x ≤ maximum → Compares x.toInt y.toInt k →
    Sstable.intPageMayMatchPredicate minimum maximum ⟨k, .int64 y⟩ = true

variable {x y : Int64}

theorem valueMatchesPredicate_int_iff :
    (∀ k name, valueMatchesPredicate (.int64 x) (intPredicate k name y) = true ↔ Compares x.toInt y.toInt k) ↔
      x = y ∨ Float64.eq (Float64.ofInt64 x) (Float64.ofInt64 y) = false := by
  have hle : x.toInt ≤ y.toInt → Float64.rank (Float64.ofInt64 x) ≤ Float64.rank (Float64.ofInt64 y) :=
    fun h => Float64.rank_ofInt64_mono (Int64.le_iff_toInt_le.mpr h)
  have hge : y.toInt ≤ x.toInt → Float64.rank (Float64.ofInt64 y) ≤ Float64.rank (Float64.ofInt64 x) :=
    fun h => Float64.rank_ofInt64_mono (Int64.le_iff_toInt_le.mpr h)
  simp only [valueMatchesPredicate, intPredicate, Engine.valueMatchesPredicate, Engine.fieldValuesCompare_int,
    Float64.eq_ofInt64, decide_eq_false_iff_not, ← Int64.toInt_inj]
  constructor
  · intro h
    by_contra! hne
    have heq := (h .eq []).mp
    simp only [hne.2, lt_irrefl, if_false, Compares] at heq
    exact hne.1 (heq rfl)
  · intro h k name
    have hcases : x.toInt = y.toInt ∨ x.toInt < y.toInt ∧ Float64.rank (Float64.ofInt64 x) <
        Float64.rank (Float64.ofInt64 y) ∨ y.toInt < x.toInt ∧ Float64.rank (Float64.ofInt64 y) <
        Float64.rank (Float64.ofInt64 x) := by omega
    rcases hcases with heq | ⟨hlt, hrank⟩ | ⟨hlt, hrank⟩
    · rw [if_neg (hge heq.ge).not_gt, if_neg (hle heq.le).not_gt]
      cases k <;> simp [Compares, heq]
    · rw [if_pos hrank]
      cases k <;> simp [Compares] <;> omega
    · rw [if_neg (Int.not_lt.mpr hrank.le), if_pos hrank]
      cases k <;> simp [Compares] <;> omega

theorem intPageMayMatch_of_compares (hmin : minimum ≤ x) (hmax : x ≤ maximum) (h : Compares x.toInt y.toInt k) :
    Sstable.intPageMayMatchPredicate minimum maximum ⟨k, .int64 y⟩ = true := by
  rw [Int64.le_iff_toInt_le] at hmin hmax
  cases k <;> simp only [Compares, Sstable.intPageMayMatchPredicate, Sstable.pageMayMatch,
    Sstable.queryPredicateIntValue, Bool.and_eq_true, Bool.or_eq_true, Bool.not_eq_true', decide_eq_true_eq,
    decide_eq_false_iff_not, Int64.le_iff_toInt_le, Int64.lt_iff_toInt_lt, ← Int64.toInt_inj] at h ⊢ <;> omega

theorem comparesExactly_iff (x y : Int64) :
    ComparesExactly x y ↔ x = y ∨ Float64.eq (Float64.ofInt64 x) (Float64.ofInt64 y) = false := by
  rw [← valueMatchesPredicate_int_iff]
  constructor
  · intro h k name
    have hrow := h.exprs k ⟨0, TagMap.empty, 0, fun _ => some (.int64 x)⟩ name rfl
    simpa [rowMatchesExprPredicate, intPredicate] using hrow
  · intro h
    refine ⟨fun k row name hfield => ?_, fun k row name hfield => ?_, fun k c t hmem => ?_, fun k _ _ => ?_⟩
    · simpa [rowMatchesPredicates, intPredicate, hfield] using h k name
    · simpa [rowMatchesExprPredicate, intPredicate, hfield] using h k name
    · rw [← h k c.fieldName]
      simp [filterColumnByPredicates, intPredicate, hmem]
    · exact intPageMayMatch_of_compares

/-- Above 2^53 the conversion makes neighbours equal. -/
theorem neighbours_compare_equal : ¬ ComparesExactly 9007199254740993 9007199254740992 := by
  intro h
  have heq := h.exprs .eq ⟨0, TagMap.empty, 0, fun _ => some (.int64 9007199254740993)⟩ [] rfl
  exact absurd (heq.mp (by decide)) (by simp [Compares])

end Mts.Queryexec
