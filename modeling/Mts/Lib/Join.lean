import Mts.Lib.SortedMap

/-! Joining named columns of timed values into rows: one row per time, whose fields are the columns'
values there. Columns with the same times are read side by side, others are collected row by row. -/

namespace Mts.Lib
open List
variable {η κ τ β : Type}

structure Column (η κ τ β : Type) where
  head : η
  name : κ
  points : List (τ × β)

variable {columns : List (Column η κ τ β)} {c : Column η κ τ β}

structure JoinedRow (η κ τ β : Type) where
  head : η
  time : τ
  fields : κ → Option β

variable {rows : List (JoinedRow η κ τ β)}

def HasCell (columns : List (Column η κ τ β)) (t : τ) (k : κ) (x : β) : Prop :=
  ∃ c ∈ columns, c.name = k ∧ (t, x) ∈ c.points

/-- A column has its values in time order, one at a time, and columns of one name agree. -/
structure Joinable [LE τ] (columns : List (Column η κ τ β)) : Prop where
  ordered : ∀ c ∈ columns, (c.points.map Prod.fst).Pairwise (· ≤ ·)
  times : ∀ c ∈ columns, (c.points.map Prod.fst).Nodup
  values : ∀ {t k x y}, HasCell columns t k x → HasCell columns t k y → x = y

structure JoinOf [LE τ] (columns : List (Column η κ τ β)) (rows : List (JoinedRow η κ τ β)) : Prop where
  sorted : rows.Pairwise fun a b => a.time ≤ b.time
  nodup : (rows.map JoinedRow.time).Nodup
  fields : ∀ row ∈ rows, ∀ k x, row.fields k = some x ↔ HasCell columns row.time k x
  head : ∀ row ∈ rows, ∃ c ∈ columns, row.head = c.head ∧ row.time ∈ c.points.map Prod.fst
  complete : ∀ c ∈ columns, ∀ t ∈ c.points.map Prod.fst, ∃ row ∈ rows, row.time = t

section
variable [DecidableEq τ]

def aligned : List (Column η κ τ β) → Bool
  | [] => true
  | first :: rest => rest.all fun c => c.points.map Prod.fst = first.points.map Prod.fst

variable [DecidableEq κ]

def joinAligned (columns : List (Column η κ τ β)) : List (JoinedRow η κ τ β) :=
  match columns with
  | [] => []
  | first :: _ => first.points.zipIdx.map fun (pt, index) =>
    { head := first.head
      time := pt.1
      fields := columns.foldl (fun fields c =>
        Function.update fields c.name (c.points[index]?.map Prod.snd)) fun _ => none }

def insertCell (c : Column η κ τ β) (rows : List (JoinedRow η κ τ β)) (pt : τ × β) : List (JoinedRow η κ τ β) :=
  if rows.any fun row => row.time = pt.1 then
    rows.map fun row =>
      if row.time = pt.1 then { row with fields := Function.update row.fields c.name (some pt.2) } else row
  else rows ++ [⟨c.head, pt.1, Function.update (fun _ => none) c.name (some pt.2)⟩]

def insertColumn (rows : List (JoinedRow η κ τ β)) (c : Column η κ τ β) : List (JoinedRow η κ τ β) :=
  c.points.foldl (insertCell c) rows

variable [LE τ] [DecidableLE τ]

def joinMapped (columns : List (Column η κ τ β)) : List (JoinedRow η κ τ β) :=
  (columns.foldl insertColumn []).insertionSort fun a b => a.time ≤ b.time

def joinColumns (columns : List (Column η κ τ β)) : List (JoinedRow η κ τ β) :=
  if columns.isEmpty then [] else if aligned columns then joinAligned columns else joinMapped columns

end

theorem JoinOf.eq [LE τ] [Std.Antisymm (α := τ) (· ≤ ·)] (h : JoinOf columns rows) (h' : JoinOf columns rows')
    (hhead : ∀ c ∈ columns, ∀ d ∈ columns, c.head = d.head) : rows = rows' := by
  have hanti : Std.Antisymm fun a b : JoinedRow η κ τ β => a.time ≤ b.time ∧ a.time ≠ b.time :=
    ⟨fun a b hab hba => absurd (Std.Antisymm.antisymm _ _ hab.1 hba.1) hab.2⟩
  have hirrefl : Std.Irrefl fun a b : JoinedRow η κ τ β => a.time ≤ b.time ∧ a.time ≠ b.time := ⟨fun _ h => h.2 rfl⟩
  have hmem : ∀ {rows rows' : List (JoinedRow η κ τ β)}, JoinOf columns rows → JoinOf columns rows' →
      ∀ row ∈ rows, row ∈ rows' := by
    intro rows rows' h h' row hrow
    obtain ⟨c, hc, hrc, ht⟩ := h.head row hrow
    obtain ⟨row', hrow', ht'⟩ := h'.complete c hc row.time ht
    obtain ⟨d, hd, hrd, -⟩ := h'.head row' hrow'
    have hfields : row'.fields = row.fields := funext fun k => Option.ext fun x => by
      rw [h'.fields row' hrow', h.fields row hrow, ht']
    have heads : row'.head = row.head := by rw [hrd, hrc, hhead d hd c hc]
    obtain rfl : row' = row := by
      cases row
      cases row'
      simp_all
    exact hrow'
  have hsorted : ∀ {rows : List (JoinedRow η κ τ β)}, JoinOf columns rows →
      rows.Pairwise fun a b => a.time ≤ b.time ∧ a.time ≠ b.time := fun h =>
    h.sorted.and (pairwise_map.mp h.nodup)
  exact (hsorted h).eq_of_mem_iff (hsorted h') fun row => ⟨hmem h h' row, hmem h' h row⟩

theorem foldl_update_eq {α : Type} [DecidableEq κ] (key : α → κ) (g : α → Option β) (l : List α)
    (init : κ → Option β) (k : κ) :
    l.foldl (fun f a => Function.update f (key a) (g a)) init k =
      match (l.filter fun a => key a = k).getLast? with
      | none => init k
      | some a => g a := by
  induction l using List.reverseRecOn with
  | nil => rfl
  | append_singleton l a ih =>
    rw [foldl_append, foldl_cons, foldl_nil, filter_append]
    by_cases hk : key a = k
    · subst hk
      simp
    · rw [Function.update_of_ne (Ne.symm hk), ih]
      simp [hk]

theorem times_joinAligned [DecidableEq κ] (first : Column η κ τ β) (rest : List (Column η κ τ β)) :
    (joinAligned (first :: rest)).map JoinedRow.time = first.points.map Prod.fst := by
  rw [joinAligned, map_map, ← zipIdx_map_fst 0 first.points, map_map]
  simp [Function.comp_def]

section Aligned
variable [DecidableEq τ] {first : Column η κ τ β} {rest : List (Column η κ τ β)}

theorem getElem?_of_aligned (h : aligned (first :: rest) = true) (hc : c ∈ first :: rest) (i : Nat) :
    c.points[i]?.map Prod.fst = first.points[i]?.map Prod.fst := by
  have htimes : c.points.map Prod.fst = first.points.map Prod.fst := by
    rcases mem_cons.mp hc with rfl | hc
    · rfl
    · simpa using all_eq_true.mp h c hc
  rw [← getElem?_map, htimes, getElem?_map]

theorem joinAligned_joinOf [DecidableEq κ] [LE τ] (hj : Joinable (first :: rest)) (h : aligned (first :: rest) = true) :
    JoinOf (first :: rest) (joinAligned (first :: rest)) := by
  -- the values that a column has at the row's time are those at the row's index
  have hvalue : ∀ c ∈ first :: rest, ∀ {pt : τ × β} {i : Nat}, first.points[i]? = some pt →
      ∀ x, c.points[i]?.map Prod.snd = some x ↔ (pt.1, x) ∈ c.points := by
    intro c hc pt i hi x
    have htime := getElem?_of_aligned h hc i
    rw [hi, Option.map_some, Option.map_eq_some_iff] at htime
    obtain ⟨⟨t, y⟩, hy, rfl⟩ := htime
    rw [hy, Option.map_some, Option.some.injEq]
    constructor
    · rintro rfl
      exact mem_of_getElem? hy
    · intro hx
      have hcell := hj.values ⟨c, hc, rfl, mem_of_getElem? hy⟩ ⟨c, hc, rfl, hx⟩
      exact hcell
  have hmem : ∀ row ∈ joinAligned (first :: rest), ∃ (pt : τ × β) (i : Nat), first.points[i]? = some pt ∧
      row = ⟨first.head, pt.1, (first :: rest).foldl (fun fields c =>
        Function.update fields c.name (c.points[i]?.map Prod.snd)) fun _ => none⟩ := by
    intro row hrow
    obtain ⟨⟨pt, i⟩, hpt, rfl⟩ := mem_map.mp hrow
    exact ⟨pt, i, mem_zipIdx_iff_getElem?.mp hpt, rfl⟩
  constructor
  · have hsorted : ((joinAligned (first :: rest)).map JoinedRow.time).Pairwise (· ≤ ·) := by
      rw [times_joinAligned]
      exact hj.ordered first mem_cons_self
    exact pairwise_map.mp hsorted
  · rw [times_joinAligned]
    exact hj.times first mem_cons_self
  · intro row hrow k x
    obtain ⟨pt, i, hi, rfl⟩ := hmem row hrow
    dsimp only
    rw [foldl_update_eq]
    split
    · next hnone =>
      refine ⟨fun h => absurd h (by simp), ?_⟩
      rintro ⟨c, hc, hk, -⟩
      rw [getLast?_eq_none_iff, filter_eq_nil_iff] at hnone
      exact absurd (decide_eq_true hk) (hnone c hc)
    · next c hlast =>
      obtain ⟨hc, hk⟩ := mem_filter.mp (mem_of_getLast? hlast)
      rw [hvalue c hc hi x]
      refine ⟨fun hx => ⟨c, hc, of_decide_eq_true hk, hx⟩, fun hcell => ?_⟩
      have htime := getElem?_of_aligned h hc i
      rw [hi, Option.map_some, Option.map_eq_some_iff] at htime
      obtain ⟨⟨t, y⟩, hy, rfl⟩ := htime
      have hy := mem_of_getElem? hy
      rwa [hj.values hcell ⟨c, hc, of_decide_eq_true hk, hy⟩]
  · intro row hrow
    obtain ⟨pt, i, hi, rfl⟩ := hmem row hrow
    exact ⟨first, mem_cons_self, rfl, mem_map_of_mem (mem_of_getElem? hi)⟩
  · intro c hc t ht
    obtain ⟨i, hi⟩ := getElem?_of_mem ht
    rw [getElem?_map, getElem?_of_aligned h hc] at hi
    obtain ⟨pt, hpt, rfl⟩ := Option.map_eq_some_iff.mp hi
    have hz : (pt, i) ∈ first.points.zipIdx := mem_zipIdx_iff_getElem?.mpr hpt
    exact ⟨_, mem_map_of_mem hz, rfl⟩

end Aligned

section Mapped
variable [DecidableEq κ] {cells : List (Column η κ τ β × τ × β)} {pt : τ × β}

/-- Rows that say what a list of cells says, each cell with the column it comes from. -/
structure RowsOfCells (cells : List (Column η κ τ β × τ × β)) (rows : List (JoinedRow η κ τ β)) : Prop where
  nodup : (rows.map JoinedRow.time).Nodup
  fields : ∀ row ∈ rows, ∀ k x, row.fields k = some x ↔ ∃ e ∈ cells, e.1.name = k ∧ e.2 = (row.time, x)
  head : ∀ row ∈ rows, ∃ e ∈ cells, row.head = e.1.head ∧ e.2.1 = row.time
  complete : ∀ e ∈ cells, ∃ row ∈ rows, row.time = e.2.1

theorem update_fields_iff (hfields : ∀ k x, fields k = some x ↔ ∃ e ∈ cells, e.1.name = k ∧ e.2 = (pt.1, x))
    (hvalues : ∀ e ∈ cells, e.1.name = c.name → e.2.1 = pt.1 → e.2.2 = pt.2) (k : κ) (x : β) :
    Function.update fields c.name (some pt.2) k = some x ↔
      ∃ e ∈ cells ++ [(c, pt)], e.1.name = k ∧ e.2 = (pt.1, x) := by
  simp only [mem_append, mem_singleton]
  rcases eq_or_ne k c.name with rfl | hk
  · rw [Function.update_self, Option.some.injEq]
    constructor
    · rintro rfl
      exact ⟨(c, pt), .inr rfl, rfl, rfl⟩
    · rintro ⟨e, he | rfl, hname, htime⟩
      · rw [← hvalues e he hname (by rw [htime]), htime]
      · exact (Prod.mk.inj htime).2
  · rw [Function.update_of_ne hk, hfields]
    constructor
    · rintro ⟨e, he, hx⟩
      exact ⟨e, .inl he, hx⟩
    · rintro ⟨e, he | rfl, hname, htime⟩
      · exact ⟨e, he, hname, htime⟩
      · exact absurd hname.symm hk

variable [DecidableEq τ]

theorem nodup_time_insertCell (h : (rows.map JoinedRow.time).Nodup) (c : Column η κ τ β) (pt : τ × β) :
    ((Lib.insertCell c rows pt).map JoinedRow.time).Nodup := by
  unfold Lib.insertCell
  split
  · rw [map_map]
    convert h using 2
    funext row
    simp only [Function.comp_apply]
    split <;> rfl
  · next hany =>
    rw [map_append, nodup_append]
    refine ⟨h, nodup_singleton _, ?_⟩
    rintro t ht t' ht' rfl
    obtain ⟨row, hrow, rfl⟩ := mem_map.mp ht
    exact hany (any_eq_true.mpr ⟨row, hrow, decide_eq_true (mem_singleton.mp ht')⟩)

theorem RowsOfCells.insertCell (h : RowsOfCells cells rows)
    (hvalues : ∀ e ∈ cells, e.1.name = c.name → e.2.1 = pt.1 → e.2.2 = pt.2) :
    RowsOfCells (cells ++ [(c, pt)]) (insertCell c rows pt) := by
  have hnodup := nodup_time_insertCell h.nodup c pt
  -- a row at another time is not affected
  have hother : ∀ row ∈ rows, row.time ≠ pt.1 → ∀ k x, row.fields k = some x ↔
      ∃ e ∈ cells ++ [(c, pt)], e.1.name = k ∧ e.2 = (row.time, x) := by
    intro row hrow hne k x
    rw [h.fields row hrow]
    constructor
    · rintro ⟨e, he, hx⟩
      exact ⟨e, mem_append_left _ he, hx⟩
    · rintro ⟨e, he, hname, htime⟩
      rcases mem_append.mp he with he | he
      · exact ⟨e, he, hname, htime⟩
      · obtain rfl := mem_singleton.mp he
        exact absurd (Prod.mk.inj htime).1.symm hne
  unfold Lib.insertCell at hnodup ⊢
  split at hnodup
  · next hany =>
    rw [if_pos hany]
    obtain ⟨row₀, hmem₀, ht₀⟩ := any_eq_true.mp hany
    refine ⟨hnodup, ?_, ?_, ?_⟩
    · intro row hrow k x
      obtain ⟨row, hmem, rfl⟩ := mem_map.mp hrow
      split
      · next ht =>
        rw [ht]
        refine update_fields_iff (fun k x => ?_) hvalues k x
        rw [← ht]
        exact h.fields row hmem k x
      · next ht => exact hother row hmem ht k x
    · intro row hrow
      obtain ⟨row, hmem, rfl⟩ := mem_map.mp hrow
      obtain ⟨e, he, hhead, htime⟩ := h.head row hmem
      refine ⟨e, mem_append_left _ he, ?_⟩
      split <;> exact ⟨hhead, htime⟩
    · intro e he
      have hold : ∃ row ∈ rows, row.time = e.2.1 := by
        rcases mem_append.mp he with he | he
        · exact h.complete e he
        · obtain rfl := mem_singleton.mp he
          exact ⟨row₀, hmem₀, of_decide_eq_true ht₀⟩
      obtain ⟨row, hmem, ht⟩ := hold
      refine ⟨_, mem_map_of_mem hmem, ?_⟩
      split <;> exact ht
  · next hany =>
    have hnone : ∀ row ∈ rows, row.time ≠ pt.1 := by
      intro row hrow ht
      exact hany (any_eq_true.mpr ⟨row, hrow, decide_eq_true ht⟩)
    rw [if_neg hany]
    refine ⟨hnodup, ?_, ?_, ?_⟩
    · intro row hrow k x
      rcases mem_append.mp hrow with hold | hnew
      · exact hother row hold (hnone row hold) k x
      · obtain rfl := mem_singleton.mp hnew
        have hempty : ∀ (k : κ) (x : β), (none : Option β) = some x ↔
            ∃ e ∈ cells, e.1.name = k ∧ e.2 = (pt.1, x) := by
          refine fun k x => ⟨nofun, ?_⟩
          rintro ⟨e, he, -, htime⟩
          obtain ⟨row, hrow, ht⟩ := h.complete e he
          exact absurd (ht.trans (by rw [htime])) (hnone row hrow)
        exact update_fields_iff hempty hvalues k x
    · intro row hrow
      rcases mem_append.mp hrow with hold | hnew
      · obtain ⟨e, he, hx⟩ := h.head row hold
        exact ⟨e, mem_append_left _ he, hx⟩
      · obtain rfl := mem_singleton.mp hnew
        exact ⟨(c, pt), by simp, rfl, rfl⟩
    · intro e he
      rcases mem_append.mp he with he | he
      · obtain ⟨row, hrow, ht⟩ := h.complete e he
        exact ⟨row, mem_append_left _ hrow, ht⟩
      · obtain rfl := mem_singleton.mp he
        exact ⟨_, mem_append_right _ (mem_singleton_self _), rfl⟩

theorem foldl_insertCell_rowsOfCells
    (hvalues : ∀ e ∈ cells, ∀ e' ∈ cells, e.1.name = e'.1.name → e.2.1 = e'.2.1 → e.2.2 = e'.2.2) :
    RowsOfCells cells (cells.foldl (fun rows e => insertCell e.1 rows e.2) []) := by
  induction cells using List.reverseRecOn with
  | nil => exact ⟨nodup_nil, by simp, by simp, by simp⟩
  | append_singleton cells e ih =>
    rw [foldl_append, foldl_cons, foldl_nil]
    have hsub : ∀ d ∈ cells, d ∈ cells ++ [e] := fun d hd => mem_append_left _ hd
    refine (ih fun d hd d' hd' => hvalues d (hsub d hd) d' (hsub d' hd')).insertCell fun d hd => ?_
    exact hvalues d (hsub d hd) e (by simp)

def cellsOf (columns : List (Column η κ τ β)) : List (Column η κ τ β × τ × β) :=
  columns.flatMap fun c => c.points.map fun pt => (c, pt)

omit [DecidableEq τ] [DecidableEq κ] in
theorem mem_cellsOf : e ∈ cellsOf columns ↔ e.1 ∈ columns ∧ e.2 ∈ e.1.points := by
  simp only [cellsOf, mem_flatMap, mem_map]
  constructor
  · rintro ⟨c, hc, pt, hpt, rfl⟩
    exact ⟨hc, hpt⟩
  · rintro ⟨hc, hpt⟩
    exact ⟨e.1, hc, e.2, hpt, rfl⟩

variable [LE τ] [DecidableLE τ]

variable [Std.Total (α := τ) (· ≤ ·)] [IsTrans τ (· ≤ ·)]

theorem joinMapped_joinOf (hj : Joinable columns) : JoinOf columns (joinMapped columns) := by
  have hfold : columns.foldl insertColumn [] =
      (cellsOf columns).foldl (fun rows e => insertCell e.1 rows e.2) [] := by
    rw [cellsOf, foldl_flatMap]
    simp only [foldl_map]
    rfl
  have hrows : RowsOfCells (cellsOf columns) (columns.foldl insertColumn []) := by
    rw [hfold]
    refine foldl_insertCell_rowsOfCells fun e he e' he' hname htime => ?_
    obtain ⟨hc, hpt⟩ := mem_cellsOf.mp he
    obtain ⟨hc', hpt'⟩ := mem_cellsOf.mp he'
    refine hj.values ⟨e.1, hc, rfl, hpt⟩ ⟨e'.1, hc', hname.symm, ?_⟩
    rw [htime]
    exact hpt'
  have hmem : ∀ row, row ∈ joinMapped columns ↔ row ∈ columns.foldl insertColumn [] := fun row => mem_insertionSort _
  constructor
  · exact pairwise_insertionSort _ _
  · have hperm := (perm_insertionSort (fun a b => a.time ≤ b.time) (columns.foldl insertColumn [])).map JoinedRow.time
    exact hperm.nodup_iff.mpr hrows.nodup
  · intro row hrow k x
    rw [hrows.fields row ((hmem row).mp hrow)]
    constructor
    · rintro ⟨e, he, hname, htime⟩
      obtain ⟨hc, hpt⟩ := mem_cellsOf.mp he
      exact ⟨e.1, hc, hname, htime ▸ hpt⟩
    · rintro ⟨c, hc, hname, hpt⟩
      exact ⟨(c, row.time, x), mem_cellsOf.mpr ⟨hc, hpt⟩, hname, rfl⟩
  · intro row hrow
    obtain ⟨e, he, hhead, htime⟩ := hrows.head row ((hmem row).mp hrow)
    obtain ⟨hc, hpt⟩ := mem_cellsOf.mp he
    exact ⟨e.1, hc, hhead, mem_map.mpr ⟨e.2, hpt, htime⟩⟩
  · intro c hc t ht
    obtain ⟨pt, hpt, rfl⟩ := mem_map.mp ht
    obtain ⟨row, hrow, htime⟩ := hrows.complete (c, pt) (mem_cellsOf.mpr ⟨hc, hpt⟩)
    exact ⟨row, (hmem row).mpr hrow, htime⟩

omit [Std.Total (α := τ) (· ≤ ·)] [IsTrans τ (· ≤ ·)] in
theorem nodup_time_joinColumns
    (h : ∀ c ∈ columns, (c.points.map Prod.fst).Nodup) : ((joinColumns columns).map JoinedRow.time).Nodup := by
  unfold joinColumns
  split
  · exact nodup_nil
  · split
    · cases columns with
      | nil => exact nodup_nil
      | cons first rest =>
        rw [times_joinAligned]
        exact h first mem_cons_self
    · have hperm := (perm_insertionSort (fun a b => a.time ≤ b.time)
        (columns.foldl insertColumn [])).map JoinedRow.time
      refine hperm.nodup_iff.mpr ?_
      have hstart : (([] : List (JoinedRow η κ τ β)).map JoinedRow.time).Nodup := nodup_nil
      refine List.foldlRecOn columns insertColumn (motive := fun rows => (rows.map JoinedRow.time).Nodup) hstart
        fun rows hrows c _ => ?_
      exact List.foldlRecOn c.points (insertCell c) (motive := fun rows => (rows.map JoinedRow.time).Nodup) hrows
        fun rows hrows pt _ => nodup_time_insertCell hrows c pt

theorem joinColumns_joinOf (hj : Joinable columns) : JoinOf columns (joinColumns columns) := by
  cases columns with
  | nil => exact ⟨List.Pairwise.nil, nodup_nil, by simp [joinColumns], by simp [joinColumns], by simp⟩
  | cons first rest =>
    unfold joinColumns
    rw [if_neg (by simp)]
    split
    · next haligned => exact joinAligned_joinOf hj haligned
    · exact joinMapped_joinOf hj

end Mapped
end Mts.Lib
