import Mts.Downsample.Runs

/-! Sequential runs leave no gap. A watermark of zero counts as none, so that a run which processed windows and failed
before its first checkpoint would be forgotten: the next one starts where the policy says. -/

namespace Mts.Downsample
open Lib Model List

variable {policy : DownsamplePolicy} {processed windows : List DownsampleWindow} {s : DownsampleState}
  {r : DownsampleRun} {completed stop : Int64} {watermark : DownsampleWatermark} {e : DownsampleEvent}

/-- What the validation of a policy checks, apart from names that must not be empty. -/
structure DownsamplePolicy.Valid (policy : DownsamplePolicy) : Prop where
  interval : 0 < policy.interval
  delay : 0 ≤ policy.delay
  lookback : 0 ≤ policy.lookback
  initialStartTime : 0 ≤ policy.initialStartTime
  checkpointInterval : 0 < policy.checkpointInterval
  batchSize : 0 < policy.batchSize
  outputs : (policy.functions.map DownsampleFunction.as).Nodup

/-- The windows are aligned, contiguous and of the length of the interval, they end at or before the aligned
`now - delay`, and those before the advance start are refreshed. -/
structure NoGaps (policy : DownsamplePolicy) (watermark : DownsampleWatermark) (now : Int64)
    (windows : List DownsampleWindow) : Prop where
  contiguous : windows.IsChain fun a b => a.stop = b.start
  aligned : ∀ w ∈ windows, policy.interval.toInt ∣ w.start.toInt
  length : ∀ w ∈ windows, w.stop.toInt = w.start.toInt + policy.interval.toInt
  eligible : ∀ w ∈ windows,
    w.stop.toInt ≤ (now.toInt - policy.delay.toInt) / policy.interval.toInt * policy.interval.toInt
  refresh : ∀ w ∈ windows,
    w.refresh = decide (w.start < downsampleAdvanceStart policy watermark (eligibleUntil policy now))

theorem noGaps_downsampleWindowsToRun (hvalid : policy.Valid) (watermark : DownsampleWatermark) (now : Int64) :
    NoGaps policy watermark now (downsampleWindowsToRun policy watermark now) ↔
      downsampleWindowsToRun policy watermark now = [] ∨ NowInRange policy now := by
  constructor
  · intro h
    by_contra hnot
    obtain ⟨hsome, hrange⟩ := not_or.mp hnot
    obtain ⟨w, hw⟩ := exists_mem_of_ne_nil _ hsome
    -- below the least int64 there is no end of a window
    apply hrange
    have hdelay := hvalid.delay.toInt_le
    have heligible := h.eligible w hw
    have hlow := w.stop.le_toInt
    have hhigh := now.toInt_lt
    refine ⟨?_, by omega⟩
    change 0 ≤ policy.delay.toInt at hdelay
    omega
  · rintro (hnil | hrange)
    · rw [hnil]
      exact ⟨.nil, by simp, by simp, by simp, by simp⟩
    · obtain ⟨hnil, -⟩ | ⟨start, -, -, -, -, -, htiles⟩ := tiles_downsampleWindowsToRun watermark
        hvalid.interval hrange
      · rw [hnil]
        exact ⟨.nil, by simp, by simp, by simp, by simp⟩
      · have hmem := fun w hw => htiles.mem hvalid.interval (w := w) hw
        have hstop := toInt_eligibleUntil hvalid.interval hrange
        refine ⟨htiles.isChain, fun w hw => (hmem w hw).1, fun w hw => (hmem w hw).2.1, fun w hw => ?_,
          fun w hw => (hmem w hw).2.2.2.2⟩
        rw [← hstop]
        exact (hmem w hw).2.2.2.1.toInt_le

def Covers (processed : List DownsampleWindow) (stop : Int64) : Prop :=
  ∀ first ∈ processed.head?, ∀ t, first.start ≤ t → t < stop → ∃ w ∈ processed, w.start ≤ t ∧ t < w.stop

/-- A history of runs one after the other: a run starts only when none is in flight, range runs advance the
watermark, and the policy is not reset. -/
def Sequential (s : DownsampleState) : DownsampleEvent → Prop
  | .schedule .. | .run _ => s.runs = []
  | .range _ _ advance => s.runs = [] ∧ advance = true
  | .window .. | .update .. => True
  | .reset _ => False

/-- While the watermark is zero, no window and no update fails once a window has been processed, and `now` is not
so small that `now - delay` wraps around. -/
def Steady (policy : DownsamplePolicy) (s : DownsampleState) : DownsampleEvent → Prop
  | .schedule now _ | .run now => NowInRange policy now
  | .window _ outcome | .update _ _ outcome =>
    outcome.isSome = true → s.watermark.completedUntilUnix = 0 → s.processed = []
  | .range .. | .reset _ => True

/-- The windows that a run still has to process: they start where the completed time ends or before, and those
that are refreshed end before it. -/
def Remaining (policy : DownsamplePolicy) (processed : List DownsampleWindow) (completed : Int64)
    (windows : List DownsampleWindow) : Prop :=
  ∃ refresh start stop, Tiles policy.interval refresh start stop windows ∧ 0 ≤ start ∧
    (processed ≠ [] → start ≤ completed) ∧ ∀ w ∈ windows, w.refresh = true → w.stop ≤ completed

structure Completed (policy : DownsamplePolicy) (processed : List DownsampleWindow) (completed : Int64) : Prop where
  aligned : policy.interval.toInt ∣ completed.toInt
  nonneg : 0 ≤ completed
  covers : Covers processed completed
  nothing : processed = [] ↔ completed = 0

structure InFlight (policy : DownsamplePolicy) (s : DownsampleState) (r : DownsampleRun) : Prop where
  ahead : RunAhead s.watermark r
  completed : Completed policy s.processed r.completed
  checkpoint : policy.interval.toInt ∣ r.checkpoint.completedUntilUnix.toInt
  stored : policy.interval.toInt ∣ s.watermark.completedUntilUnix.toInt ∧ 0 ≤ s.watermark.completedUntilUnix
  phase : match r.phase with
    | .next windows | .checkpoint windows => Remaining policy s.processed r.completed windows
    | .failure _ => r.checkpoint.completedUntilUnix = 0 → s.processed = []
    | .success => True

def Covered (policy : DownsamplePolicy) (s : DownsampleState) : Prop :=
  (s.runs = [] ∧ Completed policy s.processed s.watermark.completedUntilUnix) ∨
    ∃ r, s.runs = [r] ∧ InFlight policy s r

theorem Covers.mono (h : Covers processed b) (hab : a ≤ b) : Covers processed a :=
  fun first hfirst t hle hlt => h first hfirst t hle (Int64.lt_of_lt_of_le hlt hab)

theorem Completed.process (hvalid : policy.Valid) {next : Int64} (h : Completed policy processed completed)
    (hremaining : Remaining policy processed completed (w :: windows))
    (hnext : next = if w.refresh = false ∧ completed < w.stop then w.stop else completed) :
    Completed policy (processed ++ [w]) next ∧ Remaining policy (processed ++ [w]) next windows := by
  obtain ⟨refresh, start, stop, htiles, hstart, hle, hrefresh⟩ := hremaining
  obtain ⟨haligned, hlength, -, -, -⟩ := htiles.mem hvalid.interval mem_cons_self
  obtain rfl := htiles.head
  have hpos : 0 < policy.interval.toInt := hvalid.interval.toInt_lt
  have hlt : w.start < w.stop := by
    rw [Int64.lt_iff_toInt_lt]
    omega
  have hstop : w.stop ≤ next := by
    rw [hnext]
    split
    · exact Int64.le_refl _
    · next hnot =>
      cases hw : w.refresh with
      | true => exact hrefresh w mem_cons_self hw
      | false => exact Int64.not_lt.mp fun hgt => hnot ⟨hw, hgt⟩
  have hcases : next = w.stop ∧ completed < w.stop ∨ next = completed := by
    rw [hnext]
    split
    · next h => exact .inl ⟨rfl, h.2⟩
    · exact .inr rfl
  have hcompleted : completed ≤ next := by
    obtain ⟨rfl, hgt⟩ | rfl := hcases
    · exact Int64.le_of_lt hgt
    · exact Int64.le_refl _
  have hstop0 : 0 < w.stop := Int64.lt_of_le_of_lt hstart hlt
  refine ⟨⟨?_, Int64.le_trans h.nonneg hcompleted, ?_, ?_⟩, refresh, w.stop, stop, htiles.tail,
    Int64.le_of_lt hstop0, fun _ => hstop, ?_⟩
  · obtain ⟨rfl, -⟩ | rfl := hcases
    · rw [hlength]
      exact Int.dvd_add haligned (Int.dvd_refl _)
    · exact h.aligned
  · intro first hfirst t hge hlt
    by_cases hsome : processed = []
    · -- the first window starts the covered time
      subst hsome
      obtain rfl : w = first := by simpa using hfirst
      refine ⟨w, by simp, hge, ?_⟩
      obtain ⟨rfl, -⟩ | rfl := hcases
      · exact hlt
      · rw [h.nothing.mp rfl] at hstop
        exact absurd hstop (Int64.not_le.mpr hstop0)
    · by_cases hold : t < completed
      · rw [head?_append_of_ne_nil _ hsome] at hfirst
        obtain ⟨u, hu, hcover⟩ := h.covers first hfirst t hge hold
        exact ⟨u, mem_append_left _ hu, hcover⟩
      · refine ⟨w, by simp, Int64.le_trans (hle hsome) (Int64.not_lt.mp hold), ?_⟩
        obtain ⟨rfl, -⟩ | rfl := hcases
        · exact hlt
        · exact absurd hlt hold
  · refine ⟨fun hnil => ?_, fun hzero => ?_⟩
    · simp at hnil
    · rw [hzero] at hstop
      exact absurd hstop (Int64.not_le.mpr hstop0)
  · intro u hu hur
    exact Int64.le_trans (hrefresh u (mem_cons_of_mem _ hu) hur) hcompleted

theorem remaining_nil (hnonneg : 0 ≤ completed) : Remaining policy processed completed [] :=
  ⟨fun _ => false, 0, 0, .nil 0, Int64.le_refl _, fun _ => hnonneg, by simp⟩

theorem remaining_of_now (hvalid : policy.Valid) (h : Completed policy processed watermark.completedUntilUnix) (hnow : NowInRange policy now) :
    Remaining policy processed watermark.completedUntilUnix (downsampleWindowsToRun policy watermark now) := by
  have hpos : 0 < policy.interval.toInt := hvalid.interval.toInt_lt
  obtain ⟨hnil, -⟩ | ⟨start, hstart, -, -, hle, hnone, htiles⟩ := tiles_downsampleWindowsToRun watermark
    hvalid.interval hnow
  · rw [hnil]
    exact remaining_nil h.nonneg
  by_cases hzero : watermark.completedUntilUnix = 0
  · refine ⟨_, start, _, htiles, hstart, fun hsome => absurd (h.nothing.mpr hzero) hsome, fun w hw hrefresh => ?_⟩
    -- without a watermark the run starts at the advance start, and refreshes nothing
    obtain ⟨-, -, hge, -, hmark⟩ := htiles.mem hvalid.interval hw
    rw [hmark, decide_eq_true_iff, ← hnone (by rw [hzero]; exact Int64.le_refl _)] at hrefresh
    exact absurd hge (Int64.not_le.mpr hrefresh)
  · have hadvance : downsampleAdvanceStart policy watermark (eligibleUntil policy now) =
        watermark.completedUntilUnix := by
      rw [downsampleAdvanceStart, if_neg hzero, if_neg (Int64.not_lt.mpr h.nonneg)]
      exact alignDownsampleWindow_of_dvd hvalid.interval h.nonneg h.aligned
    rw [hadvance] at hle htiles
    refine ⟨_, start, _, htiles, hstart, fun _ => hle, fun w hw hrefresh => ?_⟩
    obtain ⟨hdvd, hlength, -, -, hmark⟩ := htiles.mem hvalid.interval hw
    rw [hmark, decide_eq_true_iff, Int64.lt_iff_toInt_lt] at hrefresh
    rw [Int64.le_iff_toInt_le, hlength]
    exact add_interval_le hpos hdvd h.aligned hrefresh

theorem remaining_of_range (hvalid : policy.Valid) (h : Completed policy processed watermark.completedUntilUnix)
    (hwindows : downsampleRangeWindows policy watermark start stop true = .ok (windows, alignedStart))
    (hstart : 0 < watermark.completedUntilUnix → alignedStart ≤ watermark.completedUntilUnix) :
    Remaining policy processed watermark.completedUntilUnix windows := by
  have hpos : 0 < policy.interval.toInt := hvalid.interval.toInt_lt
  obtain ⟨hnonneg, last, htiles⟩ := tiles_downsampleRangeWindows hvalid.interval hwindows
  refine ⟨_, alignedStart, last, htiles, hnonneg, fun hsome => ?_, fun w hw hrefresh => ?_⟩
  · have hne : watermark.completedUntilUnix ≠ 0 := fun hzero => hsome (h.nothing.mpr hzero)
    exact hstart (Int64.lt_of_le_of_ne h.nonneg (Ne.symm hne))
  · obtain ⟨hdvd, hlength, -, -, hmark⟩ := htiles.mem hvalid.interval hw
    rw [hmark, Bool.not_true, Bool.false_or, decide_eq_true_iff, Int64.lt_iff_toInt_lt] at hrefresh
    rw [Int64.le_iff_toInt_le, hlength]
    exact add_interval_le hpos hdvd h.aligned hrefresh

theorem Completed.inFlight (scheduled : Bool) (h : Completed policy s.processed s.watermark.completedUntilUnix)
    (hwindows : Remaining policy s.processed s.watermark.completedUntilUnix windows) :
    InFlight policy s (newRun scheduled s.watermark windows) :=
  ⟨runAhead_newRun .., h, h.aligned, ⟨h.aligned, h.nonneg⟩, hwindows⟩

theorem InFlight.ends (h : InFlight policy s r) (haligned : policy.interval.toInt ∣ stop.toInt)
    (hlow : s.watermark.completedUntilUnix ≤ stop) (hhigh : stop ≤ r.completed)
    (hzero : stop = 0 → s.processed = []) : Completed policy s.processed stop := by
  refine ⟨haligned, Int64.le_trans h.stored.2 hlow, h.completed.covers.mono hhigh, fun hnil => ?_, hzero⟩
  rw [h.completed.nothing.mp hnil] at hhigh
  exact Int64.le_antisymm hhigh (Int64.le_trans h.stored.2 hlow)

theorem Covered.windowStep (hvalid : policy.Valid) (hs : s.runs = [r]) (h : InFlight policy s r)
    (outcome : Option GoString)
    (hsteady : outcome.isSome = true → s.watermark.completedUntilUnix = 0 → s.processed = []) :
    Covered policy (windowStep policy s 0 r outcome) := by
  have hset : ∀ (r' : DownsampleRun) (processed : List DownsampleWindow),
      InFlight policy { s with runs := [r'], processed := processed } r' →
      Covered policy { s with runs := s.runs.set 0 r', processed := processed } := by
    intro r' processed h'
    rw [hs]
    exact .inr ⟨r', rfl, h'⟩
  obtain ⟨hahead, hcompleted, hcheckpoint, hstored, hphase⟩ := h
  unfold Downsample.windowStep
  split
  · refine hset _ _ ⟨⟨hahead.stored, hahead.completed⟩, hcompleted, hcheckpoint, hstored, fun hzero => ?_⟩
    exact hsteady rfl (Int64.le_antisymm (hzero ▸ hahead.stored) hstored.2)
  · next w windows hnext =>
    rw [hnext] at hphase
    obtain ⟨hcp, hnextCompleted, hnextPhase⟩ := processed_spec policy r w windows
    obtain ⟨hcompleted', hremaining⟩ := hcompleted.process hvalid hphase hnextCompleted
    refine hset _ _ ⟨⟨?_, ?_⟩, hcompleted', ?_, hstored, ?_⟩
    · rw [hcp]
      exact hahead.stored
    · rw [hcp]
      exact Int64.le_trans hahead.completed (le_completed_processed policy r w windows)
    · rw [hcp]
      exact hcheckpoint
    · obtain heq | heq := hnextPhase <;> rw [heq] <;> exact hremaining
  · exact hset _ _ ⟨⟨hahead.stored, hahead.completed⟩, hcompleted, hcheckpoint, hstored, trivial⟩
  · exact .inr ⟨r, hs, hahead, hcompleted, hcheckpoint, hstored, hphase⟩

theorem Covered.updateStep (hs : s.runs = [r]) (h : InFlight policy s r) (time : Int64) (outcome : Option GoString)
    (hsteady : outcome.isSome = true → s.watermark.completedUntilUnix = 0 → s.processed = []) :
    Covered policy (updateStep s 0 r time outcome) := by
  -- the run ends, with its watermark stored or not
  have hfinish : ∀ watermark,
      Completed policy s.processed watermark.completedUntilUnix →
      Covered policy ((s.finish 0 r).store watermark outcome) := by
    intro watermark hcompleted
    cases outcome with
    | none => exact .inl ⟨by simp [DownsampleState.store, DownsampleState.finish, hs], hcompleted⟩
    | some cause =>
      refine .inl ⟨by simp [DownsampleState.store, DownsampleState.finish, hs], ?_⟩
      exact h.ends h.stored.1 (Int64.le_refl _) (Int64.le_trans h.ahead.stored h.ahead.completed) (hsteady rfl)
  have hle := Int64.le_trans h.ahead.stored h.ahead.completed
  obtain ⟨hahead, hcompleted, hcheckpoint, hstored, hphase⟩ := h
  unfold Downsample.updateStep
  split
  · exact .inr ⟨r, hs, hahead, hcompleted, hcheckpoint, hstored, hphase⟩
  · next windows hcp =>
    rw [hcp] at hphase
    cases outcome with
    | none =>
      simp only [DownsampleState.store, hs, set_cons_zero]
      exact .inr ⟨_, rfl, ⟨Int64.le_refl r.completed, Int64.le_refl r.completed⟩, hcompleted, hcompleted.aligned,
        ⟨hcompleted.aligned, hcompleted.nonneg⟩, hphase⟩
    | some cause =>
      simp only [DownsampleState.store, hs, set_cons_zero]
      exact .inr ⟨_, rfl, ⟨hle, Int64.le_refl r.completed⟩, hcompleted, hcompleted.aligned, hstored,
        hcompleted.nothing.mpr⟩
  · next cause hfail =>
    apply hfinish
    have hnothing := hphase
    rw [hfail] at hnothing
    exact InFlight.ends ⟨hahead, hcompleted, hcheckpoint, hstored, hphase⟩ hcheckpoint hahead.stored hahead.completed
      hnothing
  · exact hfinish _ hcompleted

theorem Covered.idle (h : Covered policy s) (hs : s.runs = []) :
    Completed policy s.processed s.watermark.completedUntilUnix := by
  rcases h with ⟨-, h⟩ | ⟨r, hr, -⟩
  · exact h
  · rw [hs] at hr
    cases hr

theorem Covered.of_getElem (h : Covered policy s) (hr : s.runs[index]? = some r) :
    index = 0 ∧ s.runs = [r] ∧ InFlight policy s r := by
  rcases h with ⟨h, -⟩ | ⟨r', h, hflight⟩
  · simp [h] at hr
  · rw [h, getElem?_singleton] at hr
    split at hr
    · next hindex => exact ⟨hindex, Option.some.inj hr ▸ h, Option.some.inj hr ▸ hflight⟩
    · cases hr

theorem remaining_of_start (hvalid : policy.Valid) (hseq : Sequential s e) (hsteady : Steady policy s e)
    (h : Completed policy s.processed s.watermark.completedUntilUnix)
    (hwindows : StartWindows policy s.watermark e windows) :
    Remaining policy s.processed s.watermark.completedUntilUnix windows := by
  cases hwindows with
  | schedule now admitted => exact remaining_of_now hvalid h hsteady
  | run now => exact remaining_of_now hvalid h hsteady
  | range hwindows hstart =>
    obtain ⟨-, rfl⟩ := hseq
    exact remaining_of_range hvalid h hwindows (hstart rfl)

theorem Covered.step (hvalid : policy.Valid) (h : Covered policy s) (hseq : Sequential s e)
    (hsteady : Steady policy s e) : Covered policy (downsampleStep policy s e) := by
  have hstart : e.reads = true → e.isReset = false → s.runs = [] → Covered policy (downsampleStep policy s e) := by
    intro hreads hreset hnone
    obtain heq | ⟨scheduled, windows, running, hwindows, heq⟩ := start_cases policy s hreads hreset
    · rw [heq]
      exact h
    · rw [heq]
      have hcompleted := h.idle hnone
      have hflight := hcompleted.inFlight scheduled (remaining_of_start hvalid hseq hsteady hcompleted hwindows)
      refine .inr ⟨newRun scheduled s.watermark windows, by simp [DownsampleState.begin, hnone], ?_⟩
      exact ⟨hflight.ahead, hflight.completed, hflight.checkpoint, hflight.stored, hflight.phase⟩
  cases e with
  | schedule now admitted => exact hstart rfl rfl hseq
  | run now => exact hstart rfl rfl hseq
  | range start stop advance => exact hstart rfl rfl hseq.1
  | window index outcome =>
    rw [downsampleStep]
    split
    · next r hr =>
      obtain ⟨rfl, hs, hflight⟩ := h.of_getElem hr
      exact Covered.windowStep hvalid hs hflight outcome hsteady
    · exact h
  | update index time outcome =>
    rw [downsampleStep]
    split
    · next r hr =>
      obtain ⟨rfl, hs, hflight⟩ := h.of_getElem hr
      exact Covered.updateStep hs hflight time outcome hsteady
    · exact h
  | reset request => exact hseq.elim

theorem Covered.covers (h : Covered policy s) : Covers s.processed s.watermark.completedUntilUnix := by
  rcases h with ⟨-, h⟩ | ⟨r, -, h⟩
  · exact h.covers
  · exact h.completed.covers.mono (Int64.le_trans h.ahead.stored h.ahead.completed)

theorem covered_initialState (policy : DownsamplePolicy) : Covered policy initialState := by
  refine .inl ⟨rfl, Int.dvd_zero _, Int64.le_refl _, ?_, ?_⟩
  · intro first hfirst
    cases hfirst
  · exact ⟨fun _ => rfl, fun _ => rfl⟩

/-- The windows of a scheduled run have no gap exactly when there are none or `now - delay` does not wrap around.
In a sequential history whose steps are all steady the processed windows have none either. -/
theorem downsample_covers {policy : DownsamplePolicy} (hvalid : policy.Valid) :
    (∀ watermark now, NoGaps policy watermark now (downsampleWindowsToRun policy watermark now) ↔
      downsampleWindowsToRun policy watermark now = [] ∨ NowInRange policy now) ∧
    ∀ events, Always (downsampleStep policy) Sequential initialState events →
      Always (downsampleStep policy) (Steady policy) initialState events →
      Covers (events.foldl (downsampleStep policy) initialState).processed
        (events.foldl (downsampleStep policy) initialState).watermark.completedUntilUnix := by
  refine ⟨noGaps_downsampleWindowsToRun hvalid, fun events hseq hsteady => ?_⟩
  have hboth : Always (downsampleStep policy) (fun s e => Sequential s e ∧ Steady policy s e) initialState events :=
    fun pre e post hsplit => ⟨hseq pre e post hsplit, hsteady pre e post hsplit⟩
  have hlast := (hboth.with_invariant (covered_initialState policy)
    fun s e hs he => hs.step hvalid he.1 he.2).1
  exact hlast.covers

instance (policy : DownsamplePolicy) (now : Int64) : Decidable (NowInRange policy now) :=
  inferInstanceAs (Decidable (_ ∧ _))

instance : DecidableRel Sequential := fun _ e => by
  cases e <;> unfold Sequential <;> infer_instance

instance (policy : DownsamplePolicy) : DecidableRel (Steady policy) := fun _ e => by
  cases e <;> unfold Steady <;> infer_instance

def lastTwoOfTen : DownsamplePolicy := ⟨[112], 10, [⟨.avg, [118], [97]⟩], [], 0, 20, 0, 2, [116], true, 1024⟩

theorem lastTwoOfTen_valid : lastTwoOfTen.Valid :=
  ⟨by decide, by decide, by decide, by decide, by decide, by decide, by decide⟩

/-- The first run processes the window from 80 and fails in the next one, before its checkpoint. The second run
starts at 180 again. -/
def forgottenRun : List DownsampleEvent :=
  [.schedule 100 true, .window 0 none, .window 0 (some [101]), .update 0 1 none,
    .schedule 200 true, .window 0 none, .window 0 none, .update 0 2 none, .window 0 none, .update 0 3 none]

theorem gap_after_failure :
    Always (downsampleStep lastTwoOfTen) Sequential initialState forgottenRun ∧
      ¬ Covers (forgottenRun.foldl (downsampleStep lastTwoOfTen) initialState).processed
        (forgottenRun.foldl (downsampleStep lastTwoOfTen) initialState).watermark.completedUntilUnix := by
  refine ⟨by decide +kernel, fun h => ?_⟩
  obtain ⟨w, hw, hcover⟩ := h ⟨80, 90, false⟩ (by decide +kernel) 100 (by decide +kernel) (by decide +kernel)
  have hnone : ∀ w ∈ (forgottenRun.foldl (downsampleStep lastTwoOfTen) initialState).processed,
      ¬ (w.start ≤ 100 ∧ 100 < w.stop) := by
    decide +kernel
  exact hnone w hw hcover

/-- A run to 100, one that fails after it refreshed two windows, and a range run up to 120. -/
def steadyRuns : List DownsampleEvent :=
  [.schedule 100 true, .window 0 none, .window 0 none, .update 0 1 none, .window 0 none, .update 0 2 none,
    .run 120, .window 0 none, .window 0 none, .window 0 (some [101]), .update 0 3 none,
    .range 100 120 true, .window 0 none, .window 0 none, .update 0 4 none, .window 0 none, .update 0 5 none]

theorem covered_after_failure :
    (steadyRuns.foldl (downsampleStep lastTwoOfTen) initialState).watermark.completedUntilUnix = 120 ∧
      Covers (steadyRuns.foldl (downsampleStep lastTwoOfTen) initialState).processed
        (steadyRuns.foldl (downsampleStep lastTwoOfTen) initialState).watermark.completedUntilUnix :=
  ⟨by decide +kernel, (downsample_covers lastTwoOfTen_valid).2 steadyRuns (by decide +kernel) (by decide +kernel)⟩

end Mts.Downsample
