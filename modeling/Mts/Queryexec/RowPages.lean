import Mts.Lib.Bounded
import Mts.Lib.Paging
import Mts.Queryexec.Rows

/-! Row queries page by page, `queryexec/cursor.go`, `order.go` and the end of `QueryRowIterator`. A cursor is the
position that its text encodes. -/

namespace Mts.Queryexec
open Lib Model List

inductive QuerySortDirection
  | asc | desc
  deriving DecidableEq

structure CursorPosition where
  seriesID : UInt64
  timestamp : Int64
  direction : QuerySortDirection

def cursorFromRow (direction : QuerySortDirection) (row : Row) : CursorPosition :=
  ⟨row.seriesID, row.timestamp, direction⟩

def rowAfterCursor (position : CursorPosition) (row : Row) : Bool :=
  if position.direction = .desc then
    if row.timestamp ≠ position.timestamp then row.timestamp < position.timestamp else position.seriesID < row.seriesID
  else if row.timestamp ≠ position.timestamp then position.timestamp < row.timestamp
  else position.seriesID < row.seriesID

def rowAfterTimeDesc (left right : Row) : Bool :=
  if left.timestamp ≠ right.timestamp then right.timestamp < left.timestamp else left.seriesID < right.seriesID

def rowBeforeTimeDesc (left right : Row) : Bool :=
  if left.timestamp ≠ right.timestamp then left.timestamp < right.timestamp else right.seriesID < left.seriesID

section
variable (maxRows : Nat) (heap : HeapOps rowBeforeTimeDesc)

/-- `make` panics beyond `maxRows`, and `load` and `loadBounded` call each other without end where the capacity is
not positive. -/
def loadBounded (limit offset : Nat) (rows : List Row) : Option (List Row) :=
  let capacity := (limit + offset : Int).bmod (2 ^ 64)
  if capacity ≤ 0 ∨ maxRows < capacity then none
  else some (sortBy rowAfterTimeDesc (rows.foldl (keepFirst rowAfterTimeDesc heap capacity.toNat) []))

/-- `rows` after the cursor, in the order of the query and without offset. -/
def queryRowPage (direction : QuerySortDirection) (limit : Nat) (rows : List Row) (cursor : Option CursorPosition) :
    Option (List Row) :=
  let rows := rows.filter fun row => cursor.all (rowAfterCursor · row)
  match direction with
  | .asc => some (rows.take limit)
  | .desc => (loadBounded maxRows heap limit 0 rows).map (·.take limit)

def queryRowPages (direction : QuerySortDirection) (limit : Nat) (rows : List Row) (fuel : Nat) : Option (List Row) :=
  pageRun (cursorFromRow direction) (queryRowPage maxRows heap direction limit rows) fuel none

end

/-- The rows of a query without limit, offset and cursor, in ascending order. -/
def queriedRows (fields : List GoString) (expr : QueryExpr) (postFilters : List QueryPredicate)
    (columns : List ColumnSeries) : List Row :=
  projectedRowStream fields (filteredRowStream expr postFilters (rowMergeStream columns))

/-- The place of a row in the order of the cursors. -/
def rowKey : QuerySortDirection → Row → ℤ ×ₗ ℕ
  | .asc, row => toLex (row.timestamp.toInt, row.seriesID.toNat)
  | .desc, row => toLex (-row.timestamp.toInt, row.seriesID.toNat)

theorem rowAfterCursor_iff (direction : QuerySortDirection) (a b : Row) :
    rowAfterCursor (cursorFromRow direction a) b = true ↔ rowKey direction a < rowKey direction b := by
  by_cases h : b.timestamp = a.timestamp
  · cases direction <;> simp [rowAfterCursor, cursorFromRow, rowKey, Prod.Lex.toLex_lt_toLex, h, UInt64.lt_iff_toNat_lt]
  · have hne : b.timestamp.toInt ≠ a.timestamp.toInt := fun heq => h (Int64.toInt_inj.mp heq)
    cases direction <;> simp [rowAfterCursor, cursorFromRow, rowKey, Prod.Lex.toLex_lt_toLex, h,
      Int64.lt_iff_toInt_lt] <;> omega

theorem rowAfterTimeDesc_iff (a b : Row) : rowAfterTimeDesc a b = true ↔ rowKey .desc a < rowKey .desc b := by
  rw [← rowAfterCursor_iff]
  by_cases h : b.timestamp = a.timestamp <;> simp [rowAfterTimeDesc, rowAfterCursor, cursorFromRow, h, Ne.symm] <;>
    exact decide_eq_true_iff.symm

theorem rowBeforeTimeDesc_iff (a b : Row) : rowBeforeTimeDesc a b = true ↔ rowKey .desc b < rowKey .desc a := by
  rw [← rowAfterCursor_iff]
  by_cases h : a.timestamp = b.timestamp <;> simp [rowBeforeTimeDesc, rowAfterCursor, cursorFromRow, h] <;>
    exact decide_eq_true_iff.symm

section
variable {maxRows : Nat} {heap : HeapOps rowBeforeTimeDesc} {rows : List Row} {direction : QuerySortDirection} {n : Nat}

theorem queryRowPages_eq (hpage : ∀ cursor,
      queryRowPage maxRows heap direction n rows cursor = some (pageOf rowAfterCursor n sorted cursor))
    (hsorted : sorted.Pairwise fun a b => rowKey direction a < rowKey direction b) (hn : 1 ≤ n) :
    queryRowPages maxRows heap direction n rows (sorted.length + 1) = some sorted := by
  have hrun : pageRun (cursorFromRow direction) (queryRowPage maxRows heap direction n rows) (sorted.length + 1)
      ((none : Option Row).map (cursorFromRow direction)) = some (sorted.filter fun _ => true) := by
    refine pageRun_eq hpage (fun a b hab => ?_) (fun a b c hab hbc => ?_) (hsorted.imp fun {a b} hab => ?_) hn ?_
    · rw [rowAfterCursor_iff] at hab ⊢
      exact hab.not_gt
    · rw [rowAfterCursor_iff] at hab hbc ⊢
      exact hab.trans hbc
    · exact (rowAfterCursor_iff direction a b).mpr hab
    · exact Nat.lt_succ_of_le (length_filter_le _ _)
  rwa [filter_true] at hrun

/-- Ascending pages of every size are complete if and only if the rows are in the order of the cursors. -/
theorem ascending_pages_iff {fields : List GoString} {expr : QueryExpr} {postFilters : List QueryPredicate}
    {columns : List ColumnSeries} : (∀ n, 1 ≤ n → ∃ fuel,
      queryRowPages maxRows heap .asc n (queriedRows fields expr postFilters columns) fuel =
        some (queriedRows fields expr postFilters columns)) ↔
    (queriedRows fields expr postFilters columns).Pairwise fun a b =>
      a.timestamp < b.timestamp ∨ a.timestamp = b.timestamp ∧ a.seriesID < b.seriesID := by
  have hkey : ∀ a b, a.timestamp < b.timestamp ∨ a.timestamp = b.timestamp ∧ a.seriesID < b.seriesID ↔
      rowKey .asc a < rowKey .asc b := fun a b => by
    rw [rowKey, rowKey, Prod.Lex.toLex_lt_toLex, Int64.lt_iff_toInt_lt, UInt64.lt_iff_toNat_lt, Int64.toInt_inj]
  simp only [hkey]
  constructor
  · intro h
    obtain ⟨fuel, hrun⟩ := h 1 le_rfl
    have hchain := (isChain_of_pageRun (fun _ => rfl) hrun).1
    simp only [rowAfterCursor_iff] at hchain
    exact hchain.pairwise
  · exact fun hsorted n hn => ⟨_, queryRowPages_eq (fun _ => rfl) hsorted hn⟩

variable {limit offset : Nat}

theorem nodup_rowKey (hkeys : (rows.map fun r => (r.timestamp, r.seriesID)).Nodup) :
    (rows.map (rowKey .desc)).Nodup := by
  refine pairwise_map.mpr ((pairwise_map.mp hkeys).imp fun {a b} hne heq => hne ?_)
  obtain ⟨ht, hid⟩ := Prod.mk.inj (toLex_inj.mp heq)
  exact Prod.ext (Int64.toInt_inj.mp (neg_inj.mp ht)) (UInt64.toNat_inj.mp hid)

theorem loadBounded_eq (hkeys : (rows.map (rowKey .desc)).Nodup) (hlimit : 1 ≤ limit) (hsum : limit + offset < 2 ^ 63) :
    loadBounded maxRows heap limit offset rows =
      if limit + offset ≤ maxRows then some ((sortBy rowAfterTimeDesc rows).take (limit + offset)) else none := by
  have hcapacity : (limit + offset : Int).bmod (2 ^ 64) = (limit + offset : Nat) :=
    Int.bmod_eq_of_le (by omega) (by omega)
  unfold loadBounded
  rw [hcapacity]
  simp only [Int.toNat_natCast]
  split
  · rw [if_neg (by omega)]
  · rw [if_pos (by omega), sortBy_foldl_keepFirst rowAfterTimeDesc_iff rowBeforeTimeDesc_iff (by omega) hkeys]

structure DescendingExact (maxRows : Nat) (heap : HeapOps rowBeforeTimeDesc) (rows : List Row)
    (limit offset n : Nat) : Prop where
  bounded : loadBounded maxRows heap limit offset rows =
    some ((sortBy rowAfterTimeDesc rows).take (limit + offset))
  pages : ∃ fuel, queryRowPages maxRows heap .desc n rows fuel = some (sortBy rowAfterTimeDesc rows)

end

section Example

/-- Series 1 has rows at 1 and 5, series 2 has one at 3. -/
def interleavedColumns : List ColumnSeries :=
  [⟨1, .empty, 1, [118], none, [(1, .int64 1), (5, .int64 5)]⟩,
    ⟨2, .empty, 1, [118], none, [(3, .int64 3)]⟩]

def rowHeap : HeapOps rowBeforeTimeDesc :=
  HeapOps.sorted fun a b => (rowBeforeTimeDesc_iff a b).trans OrderDual.toDual_lt_toDual.symm

def interleavedRows : List Row := queriedRows [] .none [] interleavedColumns

/-- After the row at 5 the page is empty, and the row of the second series is lost. -/
theorem second_series_lost :
    interleavedRows.map (fun r => (r.seriesID, r.timestamp)) = [(1, 1), (1, 5), (2, 3)] ∧
    (queryRowPages 10 rowHeap .asc 1 interleavedRows 3).map (List.map fun r => (r.seriesID, r.timestamp)) =
      some [(1, 1), (1, 5)] := by
  decide

/-- On amd64 `make` allocates at most 2^48 bytes, and a row has 48. -/
def maxAllocRows : Nat := 2 ^ 48 / 48

end Example
end Mts.Queryexec
