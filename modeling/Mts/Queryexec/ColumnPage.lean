import Mts.Queryexec.Rows

/-! Limit and offset of a column stream, `queryexec/pagination.go`. Both count samples, over all columns. -/

namespace Mts.Queryexec
open Lib Model List

structure ColumnPage where
  skipped : Nat
  returned : Nat
  exhausted : Bool

section
variable (limit offset : Nat)

/-- `none` is the panic of a slice whose end is before its start. -/
def pageColumn (s : ColumnPage) (column : ColumnSeries) : Option (ColumnSeries × ColumnPage) :=
  let length : Int := column.points.length
  -- the loop that steps `start` and `skipped` together
  let start := min column.points.length (offset - s.skipped)
  let s := { s with skipped := s.skipped + start }
  let remaining : Int := limit - s.returned
  if 0 < limit ∧ remaining ≤ 0 then some ({ column with points := [] }, { s with exhausted := true })
  else
    let stop := if 0 < limit then (start + remaining).bmod (2 ^ 64) else length
    if min stop length < start then none
    else
      let points := (column.points.take (min stop length).toNat).drop start
      some ({ column with points := points },
        { s with returned := s.returned + points.length, exhausted := s.exhausted || stop < length })

/-- The columns of all calls of `Next`, which looks at `exhausted` only when it is called again. -/
def paginatedColumns : ColumnPage → List ColumnSeries → Option (List ColumnSeries)
  | _, [] => some []
  | s, column :: columns => do
    let page ← pageColumn limit offset s column
    if page.1.points.isEmpty then paginatedColumns page.2 columns
    else if page.2.exhausted then some [page.1]
    else
      let rest ← paginatedColumns page.2 columns
      some (page.1 :: rest)

def newPaginatedColumnStream (columns : List ColumnSeries) : Option (List ColumnSeries) :=
  paginatedColumns limit offset ⟨0, 0, false⟩ columns

/-- The samples of a column, each with the column it belongs to. -/
def ColumnSeries.samples (c : ColumnSeries) : List (ColumnSeries × Int64 × FieldValue) :=
  c.points.map (Prod.mk { c with points := [] })

/-- What is left of the limit, where there is one. -/
def takeLimit {α : Type} (returned : Nat) (l : List α) : List α := if limit = 0 then l else l.take (limit - returned)

structure PageOf (columns out : List ColumnSeries) : Prop where
  samples : out.flatMap ColumnSeries.samples = takeLimit limit 0 ((columns.flatMap ColumnSeries.samples).drop offset)
  nonempty : ∀ c ∈ out, c.points ≠ []

/-- In no column does the number of skipped samples plus the limit exceed an `int`. -/
def SkipsFit : Nat → List ColumnSeries → Prop
  | _, [] => True
  | left, c :: columns => min c.points.length left + limit < 2 ^ 63 ∧ SkipsFit (left - c.points.length) columns

structure ColumnPage.Valid (s : ColumnPage) : Prop where
  skipped : s.skipped ≤ offset
  skipping : s.skipped < offset → s.returned = 0
  returned : 0 < limit → s.returned ≤ limit
  exhausted : s.exhausted = true → 0 < limit ∧ s.returned = limit

def ColumnPage.taken (s : ColumnPage) (c : ColumnSeries) : List (Int64 × FieldValue) :=
  takeLimit limit s.returned (c.points.drop (offset - s.skipped))

end

variable {limit offset : Nat} {s : ColumnPage} {c : ColumnSeries} {columns : List ColumnSeries}

theorem skipsFit_zero (h : limit < 2 ^ 63) : SkipsFit limit 0 columns := by
  induction columns with
  | nil => trivial
  | cons c columns ih => exact ⟨by omega, by rwa [Nat.zero_sub]⟩

theorem takeLimit_append {α : Type} (returned : Nat) (a b : List α) : takeLimit limit returned (a ++ b) =
    takeLimit limit returned a ++ takeLimit limit (returned + (takeLimit limit returned a).length) b := by
  unfold takeLimit
  split
  · rfl
  · rw [take_append, length_take]
    congr 2
    omega

theorem length_taken (s : ColumnPage) (c : ColumnSeries) : (s.taken limit offset c).length =
    if limit = 0 then c.points.length - (offset - s.skipped)
    else min (limit - s.returned) (c.points.length - (offset - s.skipped)) := by
  unfold ColumnPage.taken takeLimit
  split <;> simp

theorem pageColumn_eq_none (hs : s.Valid limit offset) (hl : limit < 2 ^ 63) (ho : offset < 2 ^ 63)
    (hfit : ¬ min c.points.length (offset - s.skipped) + limit < 2 ^ 63) : pageColumn limit offset s c = none := by
  have hreturned : s.returned = 0 := hs.skipping (by omega)
  have hwrap : ((min c.points.length (offset - s.skipped) : Nat) + (limit - s.returned) : Int).bmod (2 ^ 64) < 0 := by
    rw [Int.bmod_def]
    omega
  simp only [pageColumn]
  rw [if_neg (by omega), if_pos (by omega)]

theorem pageColumn_eq_some (hs : s.Valid limit offset)
    (hfit : min c.points.length (offset - s.skipped) + limit < 2 ^ 63) :
    ∃ t, pageColumn limit offset s c = some ({ c with points := s.taken limit offset c }, t) ∧ t.Valid limit offset ∧
      offset - t.skipped = offset - s.skipped - c.points.length ∧
      t.returned = s.returned + (s.taken limit offset c).length := by
  obtain ⟨hskipped, hskipping, hreturned, hexhausted⟩ := hs
  have hlength := @length_taken limit offset s c
  simp only [pageColumn]
  by_cases hdone : 0 < limit ∧ (limit : Int) - s.returned ≤ 0
  · rw [if_neg (by omega)] at hlength
    have hnil : s.taken limit offset c = [] := length_eq_zero_iff.mp (by omega)
    rw [if_pos hdone, hnil]
    exact ⟨_, rfl, ⟨by dsimp only; omega, by dsimp only; omega, hreturned, fun _ => ⟨hdone.1, by dsimp only; omega⟩⟩,
      by dsimp only; omega, rfl⟩
  · rw [if_neg hdone]
    generalize hstop : (if 0 < limit then _ else _) = stop
    have hstop : stop = if 0 < limit then (min c.points.length (offset - s.skipped) : Nat) + (limit - s.returned : Int)
        else c.points.length := by
      rw [← hstop]
      split
      · rw [Int.bmod_eq_of_le] <;> omega
      · rfl
    have hpoints : (c.points.take (min stop c.points.length).toNat).drop (min c.points.length (offset - s.skipped)) =
        s.taken limit offset c := by
      rw [drop_take]
      rcases Nat.le_total c.points.length (offset - s.skipped) with hle | hle
      · rw [Nat.min_eq_left hle, drop_eq_nil_of_le le_rfl, take_nil]
        exact (length_eq_zero_iff.mp (by split at hlength <;> omega)).symm
      · rw [Nat.min_eq_right hle, ColumnPage.taken, takeLimit]
        split
        · exact take_of_length_le (by rw [length_drop]; split at hstop <;> omega)
        · rw [take_eq_take_iff, length_drop]
          split at hstop <;> omega
    rw [if_neg (by split at hstop <;> omega), hpoints]
    refine ⟨_, rfl, ⟨by dsimp only; omega, ?_, ?_, fun h => ?_⟩, by dsimp only; omega, rfl⟩
    · dsimp only
      split at hlength <;> omega
    · dsimp only
      split at hlength <;> omega
    · dsimp only
      rcases Bool.or_eq_true_iff.mp h with h | h
      · have := hexhausted h
        omega
      · have hlt := of_decide_eq_true h
        split at hstop <;> split at hlength <;> omega

theorem samples_taken : takeLimit limit s.returned (c.samples.drop (offset - s.skipped)) =
    ColumnSeries.samples { c with points := s.taken limit offset c } := by
  simp only [ColumnSeries.samples, ColumnPage.taken, takeLimit, ← map_drop]
  split
  · rfl
  · exact map_take.symm

theorem paginatedColumns_spec (hs : s.Valid limit offset) (hfit : SkipsFit limit (offset - s.skipped) columns) :
    ∃ out, paginatedColumns limit offset s columns = some out ∧ (∀ c ∈ out, c.points ≠ []) ∧
      out.flatMap ColumnSeries.samples =
        takeLimit limit s.returned ((columns.flatMap ColumnSeries.samples).drop (offset - s.skipped)) := by
  induction columns generalizing s with
  | nil => exact ⟨[], rfl, by simp, by simp [takeLimit]⟩
  | cons c columns ih =>
    obtain ⟨t, hpage, ht, hskip, hret⟩ := pageColumn_eq_some hs hfit.1
    obtain ⟨out, hout, hne, hsamples⟩ := ih ht (hskip ▸ hfit.2)
    have hsplit : takeLimit limit s.returned (((c :: columns).flatMap ColumnSeries.samples).drop (offset - s.skipped)) =
        ColumnSeries.samples { c with points := s.taken limit offset c } ++ out.flatMap ColumnSeries.samples := by
      rw [flatMap_cons, drop_append, takeLimit_append, samples_taken, hsamples, hskip, hret]
      simp [ColumnSeries.samples]
    rw [hsplit, paginatedColumns, hpage]
    simp only [Option.bind_eq_bind, Option.bind_some]
    split
    · next hempty =>
      rw [ColumnSeries.samples, List.isEmpty_iff.mp hempty]
      exact ⟨out, hout, hne, rfl⟩
    · next hnonempty =>
      have hpoints : s.taken limit offset c ≠ [] := by simpa using hnonempty
      split
      · next hexhausted =>
        obtain ⟨hlimit, hall⟩ := ht.exhausted hexhausted
        rw [takeLimit, if_neg (by omega), hall, Nat.sub_self, take_zero] at hsamples
        exact ⟨_, rfl, by simpa using hpoints, by simp [hsamples]⟩
      · rw [hout]
        exact ⟨_, rfl, forall_mem_cons.mpr ⟨hpoints, hne⟩, flatMap_cons ..⟩

theorem paginatedColumns_eq_none (hs : s.Valid limit offset) (hl : limit < 2 ^ 63) (ho : offset < 2 ^ 63)
    (hfit : ¬ SkipsFit limit (offset - s.skipped) columns) : paginatedColumns limit offset s columns = none := by
  induction columns generalizing s with
  | nil => exact absurd trivial hfit
  | cons c columns ih =>
    by_cases hfirst : min c.points.length (offset - s.skipped) + limit < 2 ^ 63
    · obtain ⟨t, hpage, ht, hskip, -⟩ := pageColumn_eq_some hs hfirst
      have hrest : ¬ SkipsFit limit (offset - t.skipped) columns := hskip ▸ fun h => hfit ⟨hfirst, h⟩
      -- the column is skipped as a whole, or else the rest would fit
      have hlt : c.points.length < offset - s.skipped := by
        by_contra hle
        rw [hskip, Nat.sub_eq_zero_of_le (Nat.not_lt.mp hle)] at hrest
        exact hrest (skipsFit_zero hl)
      have hnil : s.taken limit offset c = [] := by
        rw [← length_eq_zero_iff, length_taken]
        split <;> omega
      rw [paginatedColumns, hpage, hnil]
      exact ih ht hrest
    · rw [paginatedColumns, pageColumn_eq_none hs hl ho hfirst]
      rfl

theorem pageOf_iff (hl : limit < 2 ^ 63) (ho : offset < 2 ^ 63) (columns : List ColumnSeries) :
    (∃ out, newPaginatedColumnStream limit offset columns = some out ∧ PageOf limit offset columns out) ↔
      SkipsFit limit offset columns := by
  have hs : ColumnPage.Valid limit offset ⟨0, 0, false⟩ :=
    ⟨Nat.zero_le _, fun _ => rfl, fun _ => Nat.zero_le _, fun h => absurd h (by decide)⟩
  constructor
  · rintro ⟨out, hout, -⟩
    by_contra hno
    rw [newPaginatedColumnStream, paginatedColumns_eq_none hs hl ho hno] at hout
    simp at hout
  · intro h
    obtain ⟨out, hout, hne, hsamples⟩ := paginatedColumns_spec hs h
    exact ⟨out, hout, hsamples, hne⟩

def intColumn (times : List Int64) : ColumnSeries :=
  ⟨1, TagMap.empty, 1, [], some .int64, times.map fun t => (t, .int64 t)⟩

theorem pageOf_across_columns : ∃ out, newPaginatedColumnStream 2 1 [intColumn [1, 2], intColumn [], intColumn [3]] =
    some out ∧ PageOf 2 1 [intColumn [1, 2], intColumn [], intColumn [3]] out :=
  (pageOf_iff (by decide) (by decide) _).mpr ⟨by decide, by decide, by decide, trivial⟩

/-- The end of the first slice wraps around. -/
theorem largest_limit_panics : newPaginatedColumnStream (2 ^ 63 - 1) 1 [intColumn [1, 2]] = none := by decide

end Mts.Queryexec
