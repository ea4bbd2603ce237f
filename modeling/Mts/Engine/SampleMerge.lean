import Mts.Model.Types

/-! The version merges of `engine/shard.go`, `queryexec/merge.go` and `memtable/compact.go` on the
samples of one column. Cursors into a sample slice are the samples still to be read. -/

namespace Mts.Engine
open Lib Model List

variable {x : VersionedSample} {t : Int64} {y a : VersionedSample}

abbrev Samples := List VersionedSample

variable {input out acc samples l : Samples} {columns : List Samples}

def samplesOrdered (samples : Samples) : Bool := decide (samples.IsChain fun a b => a.timestamp ≤ b.timestamp)

def samplesStrictlyIncreasing (samples : Samples) : Bool :=
  decide (samples.IsChain fun a b => a.timestamp < b.timestamp)

/-- The update of `latest` in the merge loops: a later sample replaces one that is not newer. -/
def newer (latest : Option VersionedSample) (sample : VersionedSample) : Option VersionedSample :=
  match latest with
  | none => some sample
  | some l => if l.writeSeq ≤ sample.writeSeq then some sample else some l

def consumeTimestamp (timestamp : Int64) : Samples → Option VersionedSample → Samples × Option VersionedSample
  | [], latest => ([], latest)
  | s :: rest, latest =>
    if s.timestamp = timestamp then consumeTimestamp timestamp rest (newer latest s)
    else (s :: rest, latest)

def dedupeLoop : VersionedSample → Samples → Samples
  | latest, [] => [latest]
  | latest, s :: rest =>
    if s.timestamp = latest.timestamp then
      dedupeLoop (if latest.writeSeq ≤ s.writeSeq then s else latest) rest
    else latest :: dedupeLoop s rest

def dedupeOrderedSamples : Samples → Samples
  | [] => []
  | s :: rest => dedupeLoop s rest

def nextTwoTimestamp : Samples → Samples → Option Int64
  | [], [] => none
  | [], r :: _ => some r.timestamp
  | l :: _, [] => some l.timestamp
  | l :: _, r :: _ => some (if l.timestamp < r.timestamp then l.timestamp else r.timestamp)

/-- Each round reads at least one sample, so the total number of samples is fuel enough. -/
def mergeTwoLoop : Nat → Samples → Samples → Samples
  | 0, _, _ => []
  | fuel + 1, left, right =>
    match nextTwoTimestamp left right with
    | none => []
    | some timestamp =>
      let (left, latest) := consumeTimestamp timestamp left none
      let (right, latest) := consumeTimestamp timestamp right latest
      latest.toList ++ mergeTwoLoop fuel left right

def mergeTwoOrderedSamples (left right : Samples) : Samples := mergeTwoLoop (left.length + right.length) left right

def nextMinTimestamp : List Samples → Option Int64
  | [] => none
  | [] :: columns => nextMinTimestamp columns
  | (s :: _) :: columns =>
    match nextMinTimestamp columns with
    | none => some s.timestamp
    | some t => some (if t < s.timestamp then t else s.timestamp)

def consumeColumns (timestamp : Int64) : List Samples → Option VersionedSample → List Samples × Option VersionedSample
  | [], latest => ([], latest)
  | column :: columns, latest =>
    let (column, latest) := consumeTimestamp timestamp column latest
    let (columns, latest) := consumeColumns timestamp columns latest
    (column :: columns, latest)

def mergeManyLoop : Nat → List Samples → Samples
  | 0, _ => []
  | fuel + 1, columns =>
    match nextMinTimestamp columns with
    | none => []
    | some timestamp =>
      let (columns, latest) := consumeColumns timestamp columns none
      latest.toList ++ mergeManyLoop fuel columns

def mergeOrderedSamples : List Samples → Samples
  | [column] => dedupeOrderedSamples column
  | [left, right] => mergeTwoOrderedSamples left right
  | columns => mergeManyLoop columns.flatten.length columns

/-- The map `byTime` of `mergeSamples`, as its list of values. -/
def byTimeInsert : Samples → VersionedSample → Samples
  | [], sample => [sample]
  | current :: rest, sample =>
    if current.timestamp = sample.timestamp then
      (if current.writeSeq ≤ sample.writeSeq then sample else current) :: rest
    else current :: byTimeInsert rest sample

def mergeSamples (samples : Samples) : Samples :=
  (samples.foldl byTimeInsert []).insertionSort fun a b => a.timestamp ≤ b.timestamp

def newestFirst (a b : VersionedSample) : Prop :=
  a.timestamp < b.timestamp ∨ a.timestamp = b.timestamp ∧ b.writeSeq ≤ a.writeSeq

instance : DecidableRel newestFirst := fun _ _ => inferInstanceAs (Decidable (_ ∨ _))

/-- The in-place loop that keeps a sample unless the last kept one has its timestamp. -/
def keepFirstAfter (kept : Int64) : Samples → Samples
  | [] => []
  | s :: rest =>
    if kept = s.timestamp then keepFirstAfter kept rest
    else s :: keepFirstAfter s.timestamp rest

def compactMergedSamples : Samples → Samples
  | [] => []
  | s :: rest => s :: keepFirstAfter s.timestamp rest

/-- `mergeSamples` of the query executor on the concatenated columns. -/
def mergeQuerySamples (samples : Samples) : Samples := compactMergedSamples (samples.insertionSort newestFirst)

def compactMaterializedSamples (samples : Samples) : Samples :=
  if samples.length ≤ 1 then samples else compactMergedSamples (samples.insertionSort newestFirst)

/-- `out` holds, in time order, exactly the newest versions of `input`. -/
structure MergesTo (input out : Samples) : Prop where
  sorted : out.Pairwise fun a b => a.timestamp < b.timestamp
  mem_iff : ∀ s, s ∈ out ↔ IsLatest {x | x ∈ input} s

/-- In time order, one sample for each timestamp of the input: the one with the greatest sequence number. -/
structure NewestOf (input out : Samples) : Prop where
  increasing : out.Pairwise fun a b => a.timestamp < b.timestamp
  newest : ∀ s ∈ out, s ∈ input ∧ ∀ x ∈ input, x.timestamp = s.timestamp → x.writeSeq ≤ s.writeSeq
  cover : ∀ x ∈ input, ∃ s ∈ out, s.timestamp = x.timestamp

theorem NewestOf.mergesTo (h : NewestOf input out) (hc : Consistent {x | x ∈ input}) : MergesTo input out := by
  refine ⟨h.increasing, fun s => ⟨h.newest s, fun hs => ?_⟩⟩
  obtain ⟨m, hm, hts⟩ := h.cover s hs.1
  exact IsLatest.eq hc (h.newest m hm) hs hts ▸ hm

theorem NewestOf.congr (h : NewestOf input out) (hmem : ∀ x, x ∈ input ↔ x ∈ input') : NewestOf input' out := by
  obtain ⟨hinc, hnewest, hcover⟩ := h
  simp only [hmem] at hnewest hcover
  exact ⟨hinc, hnewest, hcover⟩

theorem NewestOf.ne_nil (h : NewestOf input out) (hne : input ≠ []) : out ≠ [] := by
  obtain ⟨x, hx⟩ := exists_mem_of_ne_nil _ hne
  obtain ⟨s, hs, -⟩ := h.cover x hx
  exact ne_nil_of_mem hs

theorem NewestOf.nil : NewestOf [] [] := ⟨List.Pairwise.nil, nofun, nofun⟩

/-- The step shared by all merge loops: emit the newest sample of the least timestamp and go on
with the samples of the other timestamps. -/
theorem NewestOf.cons (hm : m ∈ input) (hle : ∀ x ∈ input, m.timestamp ≤ x.timestamp)
    (hmax : ∀ x ∈ input, x.timestamp = m.timestamp → x.writeSeq ≤ m.writeSeq)
    (hout : NewestOf (input.filter fun x => x.timestamp ≠ m.timestamp) out) : NewestOf input (m :: out) := by
  have hrest : ∀ x ∈ out, x ∈ input ∧ x.timestamp ≠ m.timestamp := fun x hx => by
    simpa using (hout.newest x hx).1
  refine ⟨pairwise_cons.mpr ⟨fun x hx => ?_, hout.increasing⟩,
    forall_mem_cons.mpr ⟨⟨hm, hmax⟩, fun s hs => ⟨(hrest s hs).1, fun x hx hts => ?_⟩⟩, fun x hx => ?_⟩
  · exact Int64.lt_of_le_of_ne (hle x (hrest x hx).1) (hrest x hx).2.symm
  · exact (hout.newest s hs).2 x (mem_filter.mpr ⟨hx, by simpa [hts] using (hrest s hs).2⟩) hts
  · by_cases hts : x.timestamp = m.timestamp
    · exact ⟨m, mem_cons_self, hts.symm⟩
    · obtain ⟨s, hs, hst⟩ := hout.cover x (mem_filter.mpr ⟨hx, by simpa using hts⟩)
      exact ⟨s, mem_cons_of_mem _ hs, hst⟩

theorem newer_eq_some (latest : Option VersionedSample) (s : VersionedSample) :
    ∃ m, newer latest s = some m ∧ (m = s ∨ latest = some m) ∧ s.writeSeq ≤ m.writeSeq ∧
      ∀ l, latest = some l → l.writeSeq ≤ m.writeSeq := by
  cases latest with
  | none => exact ⟨s, rfl, .inl rfl, by grind, by simp⟩
  | some l =>
    simp only [newer]
    split <;> grind

theorem foldl_newer (xs : Samples) (latest : Option VersionedSample) (hne : xs ≠ [] ∨ latest.isSome) :
    ∃ m, xs.foldl newer latest = some m ∧ (m ∈ xs ∨ latest = some m) ∧
      (∀ x ∈ xs, x.writeSeq ≤ m.writeSeq) ∧ ∀ l, latest = some l → l.writeSeq ≤ m.writeSeq := by
  induction xs generalizing latest with
  | nil =>
    obtain ⟨l, rfl⟩ := Option.isSome_iff_exists.mp (hne.resolve_left (by simp))
    exact ⟨l, rfl, .inr rfl, by simp, by grind⟩
  | cons x xs ih =>
    obtain ⟨n, hn, hfrom, hx, hl⟩ := newer_eq_some latest x
    obtain ⟨m, hm, hmem, hxs, hn'⟩ := ih (newer latest x) (.inr (by simp [hn]))
    have hnm : n.writeSeq ≤ m.writeSeq := hn' n hn
    refine ⟨m, hm, ?_, ?_, ?_⟩
    · rcases hmem with h | h
      · exact .inl (mem_cons_of_mem _ h)
      · obtain rfl : n = m := Option.some.inj (hn.symm.trans h)
        exact hfrom.imp_left (by rintro rfl; exact mem_cons_self)
    · intro y hy
      rcases mem_cons.mp hy with rfl | hy
      · exact UInt64.le_trans hx hnm
      · exact hxs y hy
    · exact fun l h => UInt64.le_trans (hl l h) hnm

theorem consumeTimestamp_eq (hord : column.Pairwise (·.timestamp ≤ ·.timestamp))
    (hle : ∀ x ∈ column, t ≤ x.timestamp) (latest : Option VersionedSample) :
    consumeTimestamp t column latest =
      (column.filter fun x => x.timestamp ≠ t,
        (column.filter fun x => x.timestamp = t).foldl newer latest) := by
  induction column generalizing latest with
  | nil => rfl
  | cons s rest ih =>
    obtain ⟨hs, hrest⟩ := pairwise_cons.mp hord
    rw [consumeTimestamp]
    by_cases hst : s.timestamp = t
    · rw [if_pos hst, ih hrest (fun x hx => hle x (mem_cons_of_mem _ hx))]
      simp [hst]
    · -- past the timestamp: an ordered column has no further sample of it
      have hgt : ∀ x ∈ rest, x.timestamp ≠ t := by
        intro x hx
        grind
      have hkeep : rest.filter (fun x => x.timestamp ≠ t) = rest := filter_eq_self.mpr (by simpa using hgt)
      have hdrop : rest.filter (fun x => x.timestamp = t) = [] := filter_eq_nil_iff.mpr (by simpa using hgt)
      rw [if_neg hst, filter_cons_of_pos (by simpa using hst), hkeep,
        filter_cons_of_neg (by simpa using hst), hdrop, foldl_nil]

def ColumnsOrdered (columns : List Samples) : Prop := ∀ c ∈ columns, c.Pairwise fun a b => a.timestamp ≤ b.timestamp

theorem consumeColumns_eq (hord : ColumnsOrdered columns) (hle : ∀ c ∈ columns, ∀ x ∈ c, t ≤ x.timestamp)
    (latest : Option VersionedSample) :
    consumeColumns t columns latest =
      (columns.map fun c => c.filter fun x => x.timestamp ≠ t,
        (columns.flatten.filter fun x => x.timestamp = t).foldl newer latest) := by
  induction columns generalizing latest with
  | nil => rfl
  | cons c cs ih =>
    have hc := consumeTimestamp_eq (hord c mem_cons_self) (hle c mem_cons_self) latest
    have hcs := ih (fun d hd => hord d (mem_cons_of_mem _ hd)) (fun d hd => hle d (mem_cons_of_mem _ hd))
    simp [consumeColumns, hc, hcs]

theorem nextMinTimestamp_none (h : nextMinTimestamp columns = none) : columns.flatten = [] := by
  induction columns with
  | nil => rfl
  | cons c cs ih =>
    cases c with
    | nil => simpa [nextMinTimestamp] using ih h
    | cons s c =>
      simp only [nextMinTimestamp] at h
      split at h <;> simp at h

theorem nextMinTimestamp_some (hord : ColumnsOrdered columns) (h : nextMinTimestamp columns = some t) :
    (∃ x ∈ columns.flatten, x.timestamp = t) ∧ ∀ c ∈ columns, ∀ x ∈ c, t ≤ x.timestamp := by
  induction columns generalizing t with
  | nil => simp [nextMinTimestamp] at h
  | cons c cs ih =>
    have hcs : ColumnsOrdered cs := fun d hd => hord d (mem_cons_of_mem _ hd)
    cases c with
    | nil =>
      obtain ⟨⟨x, hx, hxt⟩, hall⟩ := ih hcs (by simpa [nextMinTimestamp] using h)
      exact ⟨⟨x, by simpa using hx, hxt⟩, by simpa using hall⟩
    | cons s c =>
      have hs : ∀ x ∈ s :: c, s.timestamp ≤ x.timestamp := by
        have := (pairwise_cons.mp (hord (s :: c) mem_cons_self)).1
        grind
      simp only [nextMinTimestamp] at h
      cases hn : nextMinTimestamp cs with
      | none =>
        simp only [hn, Option.some.injEq] at h
        have hnil := nextMinTimestamp_none hn
        refine ⟨⟨s, by simp, h⟩, fun d hd x hx => ?_⟩
        rcases mem_cons.mp hd with rfl | hd
        · exact h ▸ hs x hx
        · exact absurd (mem_flatten.mpr ⟨d, hd, hx⟩) (by simp [hnil])
      | some u =>
        obtain ⟨⟨y, hy, hyu⟩, hall⟩ := ih hcs hn
        simp only [hn, Option.some.injEq] at h
        refine ⟨?_, fun d hd x hx => ?_⟩
        · split at h
          · exact ⟨y, by simp only [flatten_cons, mem_append]; exact .inr hy, hyu.trans h⟩
          · exact ⟨s, by simp, h⟩
        · rcases mem_cons.mp hd with rfl | hd
          · have := hs x hx
            grind
          · have := hall d hd x hx
            grind

theorem mergeManyLoop_newestOf (fuel : Nat) (columns : List Samples)
    (hfuel : columns.flatten.length ≤ fuel) (hord : ColumnsOrdered columns) :
    NewestOf columns.flatten (mergeManyLoop fuel columns) := by
  induction fuel generalizing columns with
  | zero =>
    have hnil : columns.flatten = [] := eq_nil_of_length_eq_zero (by omega)
    simpa [mergeManyLoop, hnil] using NewestOf.nil
  | succ fuel ih =>
    rw [mergeManyLoop]
    cases hn : nextMinTimestamp columns with
    | none => simpa [nextMinTimestamp_none hn] using NewestOf.nil
    | some t =>
      obtain ⟨⟨y, hy, hyt⟩, hall⟩ := nextMinTimestamp_some hord hn
      -- the samples of the least timestamp, folded in column order
      obtain ⟨m, hm, hmem, hmax, -⟩ :=
        foldl_newer (columns.flatten.filter fun x => x.timestamp = t) none
          (.inl (ne_nil_of_mem (mem_filter.mpr ⟨hy, by simpa using hyt⟩)))
      have hmem := mem_filter.mp (hmem.resolve_right (by simp))
      have hmt : m.timestamp = t := by simpa using hmem.2
      have hflat : (columns.map fun c => c.filter fun x => x.timestamp ≠ t).flatten =
          columns.flatten.filter fun x => x.timestamp ≠ t := filter_flatten.symm
      simp only [consumeColumns_eq hord hall, hm, Option.toList_some, singleton_append]
      refine NewestOf.cons hmem.1 ?_ ?_ ?_
      · intro x hx
        obtain ⟨c, hcc, hxc⟩ := mem_flatten.mp hx
        exact hmt ▸ hall c hcc x hxc
      · exact fun x hx hts => hmax x (mem_filter.mpr ⟨hx, by simpa [hmt] using hts⟩)
      · rw [hmt, ← hflat]
        refine ih _ ?_ fun c hcm => ?_
        · have hlt : (columns.flatten.filter fun x => decide (x.timestamp ≠ t)).length <
              columns.flatten.length := length_filter_lt_length_iff_exists.mpr ⟨y, hy, by simp [hyt]⟩
          rw [hflat]
          omega
        · obtain ⟨d, hd, rfl⟩ := mem_map.mp hcm
          exact (hord d hd).filter _

theorem mergeTwoLoop_eq (fuel : Nat) (left right : Samples) :
    mergeTwoLoop fuel left right = mergeManyLoop fuel [left, right] := by
  induction fuel generalizing left right with
  | zero => rfl
  | succ fuel ih =>
    have hnext : nextTwoTimestamp left right = nextMinTimestamp [left, right] := by
      cases left <;> cases right <;> simp [nextTwoTimestamp, nextMinTimestamp]
      grind
    rw [mergeTwoLoop, mergeManyLoop, hnext]
    split
    · rfl
    · simp [consumeColumns, ih]

theorem dedupeLoop_newestOf (seen rest : Samples) (latest : VersionedSample)
    (hmem : latest ∈ seen) (hts : ∀ x ∈ seen, x.timestamp = latest.timestamp)
    (hseq : ∀ x ∈ seen, x.writeSeq ≤ latest.writeSeq)
    (hord : (latest :: rest).Pairwise (·.timestamp ≤ ·.timestamp)) :
    NewestOf (seen ++ rest) (dedupeLoop latest rest) := by
  induction rest generalizing seen latest with
  | nil =>
    rw [append_nil]
    refine NewestOf.cons hmem (fun x hx => Int64.le_of_eq (hts x hx).symm) (fun x hx _ => hseq x hx) ?_
    rw [filter_eq_nil_iff.mpr (by simpa using hts)]
    exact NewestOf.nil
  | cons s rest ih =>
    obtain ⟨hs, hrest⟩ := pairwise_cons.mp hord
    obtain ⟨hs', hrest'⟩ := pairwise_cons.mp hrest
    rw [dedupeLoop]
    split
    · next heq =>
      rw [append_cons]
      refine ih (seen ++ [s]) _ ?_ ?_ ?_ ?_
      · split <;> simp [hmem]
      · intro x hx
        rcases mem_append.mp hx with hx | hx
        · have := hts x hx
          grind
        · grind
      · intro x hx
        rcases mem_append.mp hx with hx | hx
        · have := hseq x hx
          grind
        · grind
      · refine pairwise_cons.mpr ⟨fun x hx => ?_, hrest'⟩
        grind
    · next hne =>
      have hlt : ∀ x ∈ s :: rest, x.timestamp ≠ latest.timestamp := by
        intro x hx
        rcases mem_cons.mp hx with rfl | hx
        · exact hne
        · have := hs' x hx
          grind
      have hfilter : (seen ++ s :: rest).filter (fun x => x.timestamp ≠ latest.timestamp) =
          s :: rest := by
        rw [filter_append, filter_eq_nil_iff.mpr (by simpa using hts),
          filter_eq_self.mpr (by simpa using hlt), nil_append]
      refine NewestOf.cons (mem_append_left _ hmem) (fun x hx => ?_) (fun x hx hk => ?_) ?_
      · exact (mem_append.mp hx).elim (fun hx => Int64.le_of_eq (hts x hx).symm) (hs x)
      · exact (mem_append.mp hx).elim (hseq x) fun hx => absurd hk (hlt x hx)
      · rw [hfilter]
        exact ih [s] s (by simp) (by simp) (by simp) (pairwise_cons.mpr ⟨hs', hrest'⟩)

theorem mergeOrderedSamples_newestOf (hord : ColumnsOrdered columns) :
    NewestOf columns.flatten (mergeOrderedSamples columns) := by
  unfold mergeOrderedSamples
  split
  · next column =>
    rw [flatten_singleton]
    cases column with
    | nil => exact NewestOf.nil
    | cons s rest => exact dedupeLoop_newestOf [s] rest s (by simp) (by simp) (by simp) (hord _ (by simp))
  · next left right =>
    rw [mergeTwoOrderedSamples, mergeTwoLoop_eq]
    exact mergeManyLoop_newestOf _ _ (by simp) hord
  · exact mergeManyLoop_newestOf _ _ le_rfl hord

/-- What the map `byTime` holds after the samples `input`: one newest sample per timestamp. -/
structure ByTime (input acc : Samples) : Prop where
  distinct : acc.Pairwise fun a b => a.timestamp ≠ b.timestamp
  latest : ∀ s ∈ acc, IsLatest {x | x ∈ input} s
  cover : ∀ x ∈ input, ∃ s ∈ acc, s.timestamp = x.timestamp

theorem mem_byTimeInsert (h : y ∈ byTimeInsert acc x) : y = x ∨ y ∈ acc := by
  induction acc with
  | nil => simpa [byTimeInsert] using h
  | cons a acc ih =>
    rw [byTimeInsert] at h
    grind

theorem byTimeInsert_distinct (h : acc.Pairwise (·.timestamp ≠ ·.timestamp)) :
    (byTimeInsert acc x).Pairwise (·.timestamp ≠ ·.timestamp) := by
  induction acc with
  | nil => simp [byTimeInsert]
  | cons a acc ih =>
    obtain ⟨ha, hacc⟩ := pairwise_cons.mp h
    rw [byTimeInsert]
    split
    · next heq =>
      refine pairwise_cons.mpr ⟨fun y hy => ?_, hacc⟩
      grind
    · next hne =>
      refine pairwise_cons.mpr ⟨fun y hy => ?_, ih hacc⟩
      rcases mem_byTimeInsert hy with rfl | hy
      · exact hne
      · exact ha y hy

theorem byTimeInsert_spec (hd : acc.Pairwise (·.timestamp ≠ ·.timestamp)) :
    (∃ s ∈ byTimeInsert acc x, s.timestamp = x.timestamp) ∧
    (∀ s ∈ acc, ∃ s' ∈ byTimeInsert acc x, s'.timestamp = s.timestamp) ∧
    ∀ s ∈ byTimeInsert acc x, s.timestamp = x.timestamp →
      x.writeSeq ≤ s.writeSeq ∧ ∀ a ∈ acc, a.timestamp = x.timestamp → a.writeSeq ≤ s.writeSeq := by
  induction acc with
  | nil => simp [byTimeInsert]
  | cons a acc ih =>
    obtain ⟨ha, hacc⟩ := pairwise_cons.mp hd
    rw [byTimeInsert]
    by_cases heq : a.timestamp = x.timestamp
    · have hne : ∀ b ∈ acc, b.timestamp ≠ x.timestamp := fun b hb => heq ▸ (ha b hb).symm
      rw [if_pos heq]
      refine ⟨by grind, by grind, ?_⟩
      intro s hs hst
      rcases mem_cons.mp hs with rfl | hs
      · grind
      · exact absurd hst (hne s hs)
    · rw [if_neg heq]
      grind

theorem ByTime.insert (h : ByTime input acc) (x : VersionedSample) : ByTime (input ++ [x]) (byTimeInsert acc x) := by
  obtain ⟨hx, hkeep, hmax⟩ := byTimeInsert_spec h.distinct
  refine ⟨byTimeInsert_distinct h.distinct, fun s hs => ⟨?_, fun f hf hk => ?_⟩, fun y hy => ?_⟩
  · rcases mem_byTimeInsert hs with rfl | hs
    · simp
    · exact mem_append_left _ (h.latest s hs).1
  · rw [VersionedSample.seq_eq, VersionedSample.seq_eq, ← UInt64.le_iff_toNat_le]
    rcases mem_append.mp hf with hf | hf
    · -- an earlier sample is bounded by the entry its timestamp had before
      obtain ⟨a, ha, hat⟩ := h.cover f hf
      have hfa : f.writeSeq ≤ a.writeSeq := UInt64.le_iff_toNat_le.mpr ((h.latest a ha).2 f hf hat.symm)
      by_cases hst : s.timestamp = x.timestamp
      · exact UInt64.le_trans hfa ((hmax s hs hst).2 a ha (hat.trans (hk.trans hst)))
      · have hsa : s ∈ acc := (mem_byTimeInsert hs).resolve_left fun h => hst (h ▸ rfl)
        exact UInt64.le_iff_toNat_le.mpr ((h.latest s hsa).2 f hf hk)
    · obtain rfl : f = x := by simpa using hf
      exact (hmax s hs hk.symm).1
  · rcases mem_append.mp hy with hy | hy
    · obtain ⟨a, ha, hat⟩ := h.cover y hy
      obtain ⟨s, hs, hsa⟩ := hkeep a ha
      exact ⟨s, hs, hsa.trans hat⟩
    · obtain rfl : y = x := by simpa using hy
      exact hx

theorem byTime_foldl (xs input acc : Samples) (h : ByTime input acc) :
    ByTime (input ++ xs) (xs.foldl byTimeInsert acc) := by
  induction xs generalizing input acc with
  | nil => simpa using h
  | cons x xs ih => simpa using ih (input ++ [x]) _ (h.insert x)

instance : Std.Total newestFirst := ⟨fun a b => by unfold newestFirst; grind⟩

instance : IsTrans VersionedSample newestFirst := ⟨fun a b c => by unfold newestFirst; grind⟩

theorem mergeSamples_newestOf (samples : Samples) : NewestOf samples (mergeSamples samples) := by
  have hmap : ByTime samples (samples.foldl byTimeInsert []) := by
    simpa using byTime_foldl samples [] [] ⟨List.Pairwise.nil, by simp, by simp⟩
  have hle := pairwise_insertionSort (fun a b => a.timestamp ≤ b.timestamp) (samples.foldl byTimeInsert [])
  have hne : (mergeSamples samples).Pairwise (·.timestamp ≠ ·.timestamp) :=
    (perm_insertionSort _ _).symm.pairwise hmap.distinct fun h => Ne.symm h
  refine ⟨(hle.and hne).imp fun h => Int64.lt_of_le_of_ne h.1 h.2, fun s hs => ?_, fun x hx => ?_⟩
  · exact hmap.latest s ((mem_insertionSort _).mp hs)
  · obtain ⟨s, hs, hts⟩ := hmap.cover x hx
    exact ⟨s, (mem_insertionSort _).mpr hs, hts⟩

/-- `out` keeps, in time order, the first sample of each timestamp after `kept` of a list sorted
newest first, which is the newest one. -/
structure KeepsFirst (kept : Int64) (l out : Samples) : Prop where
  sorted : out.Pairwise fun a b => a.timestamp < b.timestamp
  latest : ∀ s ∈ out, kept < s.timestamp ∧ IsLatest {x | x ∈ l} s
  cover : ∀ x ∈ l, x.timestamp = kept ∨ ∃ s ∈ out, s.timestamp = x.timestamp

theorem isLatest_cons_of_lt (h : IsLatest {x | x ∈ l} s) (hlt : a.timestamp < s.timestamp) :
    IsLatest {x | x ∈ a :: l} s := by
  refine ⟨mem_cons_of_mem _ h.1, fun f hf hfs => ?_⟩
  rcases mem_cons.mp hf with rfl | hf
  · simp only [VersionedSample.key_eq] at hfs
    grind
  · exact h.2 f hf hfs

theorem newestFirst.le (h : newestFirst a b) : a.timestamp ≤ b.timestamp := by
  unfold newestFirst at h
  grind

theorem KeepsFirst.newestOf (hl : (a :: l).Pairwise newestFirst) (h : KeepsFirst a.timestamp l out) :
    NewestOf (a :: l) (a :: out) := by
  refine ⟨pairwise_cons.mpr ⟨fun s hs => (h.latest s hs).1, h.sorted⟩, forall_mem_cons.mpr ⟨⟨mem_cons_self,
    fun x hx hts => ?_⟩, fun s hs => isLatest_cons_of_lt (h.latest s hs).2 (h.latest s hs).1⟩, fun x hx => ?_⟩
  · rcases mem_cons.mp hx with rfl | hx
    · exact UInt64.le_refl _
    · have := (pairwise_cons.mp hl).1 x hx
      unfold newestFirst at this
      grind
  · rcases mem_cons.mp hx with rfl | hx
    · exact ⟨x, mem_cons_self, rfl⟩
    · rcases h.cover x hx with hxa | ⟨s, hs, hts⟩
      · exact ⟨a, mem_cons_self, hxa.symm⟩
      · exact ⟨s, mem_cons_of_mem _ hs, hts⟩

theorem keepFirstAfter_keepsFirst (kept : Int64) (hl : l.Pairwise newestFirst) (hk : ∀ x ∈ l, kept ≤ x.timestamp) :
    KeepsFirst kept l (keepFirstAfter kept l) := by
  induction l generalizing kept with
  | nil => exact ⟨List.Pairwise.nil, by simp [keepFirstAfter], by simp⟩
  | cons a l ih =>
    obtain ⟨ha, hl'⟩ := pairwise_cons.mp hl
    rw [keepFirstAfter]
    split
    · next heq =>
      have h := ih kept hl' fun x hx => hk x (mem_cons_of_mem _ hx)
      refine ⟨h.sorted, fun s hs => ⟨(h.latest s hs).1, ?_⟩, fun x hx => ?_⟩
      · exact isLatest_cons_of_lt (h.latest s hs).2 (heq ▸ (h.latest s hs).1)
      · rcases mem_cons.mp hx with rfl | hx
        · exact .inl heq.symm
        · exact h.cover x hx
    · next hne =>
      have h := ih a.timestamp hl' fun x hx => (ha x hx).le
      have hm := h.newestOf hl
      have hlt : kept < a.timestamp := Int64.lt_of_le_of_ne (hk a mem_cons_self) hne
      refine ⟨hm.increasing, fun s hs => ⟨?_, hm.newest s hs⟩, fun x hx => .inr (hm.cover x hx)⟩
      rcases mem_cons.mp hs with rfl | hs
      · exact hlt
      · exact Int64.lt_trans hlt (h.latest s hs).1

theorem compactMergedSamples_newestOf (hl : l.Pairwise newestFirst) : NewestOf l (compactMergedSamples l) := by
  cases l with
  | nil => exact NewestOf.nil
  | cons a l =>
    refine (keepFirstAfter_keepsFirst _ hl.of_cons fun x hx => ?_).newestOf hl
    exact ((pairwise_cons.mp hl).1 x hx).le

theorem mergeQuerySamples_newestOf (samples : Samples) : NewestOf samples (mergeQuerySamples samples) :=
  (compactMergedSamples_newestOf (pairwise_insertionSort _ _)).congr fun _ => mem_insertionSort _

theorem eq_of_timestamp_eq (h : l.Pairwise (·.timestamp < ·.timestamp)) (hx : x ∈ l) (hy : y ∈ l)
    (hts : x.timestamp = y.timestamp) : x = y := by
  induction l with
  | nil => simp at hx
  | cons a l ih =>
    obtain ⟨ha, hl⟩ := pairwise_cons.mp h
    grind

theorem newestOf_self (h : samples.Pairwise (·.timestamp < ·.timestamp)) : NewestOf samples samples :=
  ⟨h, fun _ hs => ⟨hs, fun _ hx hts => eq_of_timestamp_eq h hx hs hts ▸ UInt64.le_refl _⟩, fun x hx => ⟨x, hx, rfl⟩⟩

theorem compactMaterializedSamples_newestOf (samples : Samples) :
    NewestOf samples (compactMaterializedSamples samples) := by
  unfold compactMaterializedSamples
  split
  · next hlen =>
    match samples, hlen with
    | [], _ => exact NewestOf.nil
    | [s], _ => exact newestOf_self (pairwise_singleton _ s)
  · exact mergeQuerySamples_newestOf samples

end Mts.Engine
