import Mts.Queryexec.Aggregate

/-! The windows of a downsample policy, `engine/downsample_executor.go` and `downsample_validate.go`. A
scheduled run takes the windows from the watermark up to the aligned `now - delay`, and before them those that
the lookback refreshes; a range run takes the windows of its range. -/

namespace Mts.Downsample
open Lib Model

variable {interval stop start : Int64} {refresh : Int64 → Bool} {t now : Int64}

structure DownsampleFunction where
  function : Queryexec.AggregateFunction
  field : GoString
  as : GoString
  deriving DecidableEq

structure DownsamplePolicy where
  name : GoString
  interval : Int64
  functions : List DownsampleFunction
  groupByTags : List GoString
  delay : Int64
  lookback : Int64
  initialStartTime : Int64
  checkpointInterval : Int
  policyTagName : GoString
  enabled : Bool
  batchSize : Int

variable {policy : DownsamplePolicy}

structure DownsampleWatermark where
  completedUntilUnix : Int64
  lastRunUnix : Int64
  lastSuccessUnix : Int64
  lastError : GoString
  allowPolicyReplace : Bool
  deriving DecidableEq, Repr

structure DownsampleWindow where
  start : Int64
  stop : Int64
  refresh : Bool
  deriving DecidableEq, Repr

variable {windows : List DownsampleWindow} {w : DownsampleWindow}

inductive RangeError
  | negativeBoundary
  | startNotBeforeEnd
  | startsAfterWatermark
  deriving DecidableEq, Repr

def alignDownsampleWindow (timestamp interval : Int64) : Int64 :=
  if interval ≤ 0 then timestamp
  else if 0 ≤ timestamp then timestamp / interval * interval
  else ((timestamp + 1) / interval - 1) * interval

/-- The loop over `current`, which each round moves by one at least. -/
def windowLoop (interval stop : Int64) (refresh : Int64 → Bool) : Nat → Int64 → List DownsampleWindow
  | 0, _ => []
  | fuel + 1, current =>
    if current < stop then
      ⟨current, current + interval, refresh current⟩ :: windowLoop interval stop refresh fuel (current + interval)
    else []

def windowsBetween (interval start stop : Int64) (refresh : Int64 → Bool) : List DownsampleWindow :=
  windowLoop interval stop refresh (stop.toInt - start.toInt).toNat start

def downsampleInitialAdvanceStart (policy : DownsamplePolicy) (eligibleUntil : Int64) : Int64 :=
  if 0 < policy.initialStartTime then policy.initialStartTime
  else if 0 < policy.lookback then eligibleUntil - policy.lookback
  else eligibleUntil - policy.interval

def downsampleAdvanceStart (policy : DownsamplePolicy) (watermark : DownsampleWatermark) (eligibleUntil : Int64) :
    Int64 :=
  let start := if watermark.completedUntilUnix = 0 then downsampleInitialAdvanceStart policy eligibleUntil
    else watermark.completedUntilUnix
  alignDownsampleWindow (if start < 0 then 0 else start) policy.interval

def downsampleRefreshStart (policy : DownsamplePolicy) (watermark : DownsampleWatermark) (advanceStart : Int64) :
    Int64 :=
  if watermark.completedUntilUnix ≤ 0 || policy.lookback ≤ 0 then advanceStart
  else
    let start := watermark.completedUntilUnix - policy.lookback
    alignDownsampleWindow (if start < 0 then 0 else start) policy.interval

def downsampleWindowsToRun (policy : DownsamplePolicy) (watermark : DownsampleWatermark) (now : Int64) :
    List DownsampleWindow :=
  let eligibleUntil := alignDownsampleWindow (now - policy.delay) policy.interval
  if eligibleUntil ≤ 0 || policy.interval ≤ 0 then []
  else
    let advanceStart := downsampleAdvanceStart policy watermark eligibleUntil
    let refreshStart := downsampleRefreshStart policy watermark advanceStart
    let start := if refreshStart < advanceStart then refreshStart else advanceStart
    if eligibleUntil ≤ start then []
    else windowsBetween policy.interval start eligibleUntil fun current => current < advanceStart

def downsampleRangeWindows (policy : DownsamplePolicy) (watermark : DownsampleWatermark) (start stop : Int64)
    (advance : Bool) : Except RangeError (List DownsampleWindow × Int64) :=
  if start < 0 || stop < 0 then .error .negativeBoundary
  else if stop ≤ start then .error .startNotBeforeEnd
  else
    let alignedStart := alignDownsampleWindow start policy.interval
    let alignedEnd := alignDownsampleWindow stop policy.interval
    if alignedEnd ≤ alignedStart then .ok ([], alignedStart)
    else .ok (windowsBetween policy.interval alignedStart alignedEnd fun current =>
      !advance || decide (current < watermark.completedUntilUnix), alignedStart)

def markDownsampleWindowsRefresh (windows : List DownsampleWindow) : List DownsampleWindow :=
  windows.map fun window => { window with refresh := true }

inductive Tiles (interval : Int64) (refresh : Int64 → Bool) : Int64 → Int64 → List DownsampleWindow → Prop
  | nil (t : Int64) : Tiles interval refresh t t []
  | cons {w : DownsampleWindow} {stop : Int64} {windows : List DownsampleWindow}
      (aligned : interval.toInt ∣ w.start.toInt) (length : w.stop.toInt = w.start.toInt + interval.toInt)
      (mark : w.refresh = refresh w.start) (rest : Tiles interval refresh w.stop stop windows) :
      Tiles interval refresh w.start stop (w :: windows)

theorem toInt_alignDownsampleWindow (hi : 0 < interval) (ht : 0 ≤ t) :
    (alignDownsampleWindow t interval).toInt = t.toInt / interval.toInt * interval.toInt := by
  rw [alignDownsampleWindow, if_neg (Int64.not_le.mpr hi), if_pos ht]
  exact toInt_div_mul_of_nonneg hi.toInt_lt ht.toInt_le

theorem toInt_alignDownsampleWindow_of_neg (hi : 0 < interval) (ht : t.toInt < 0)
    (hlow : -2 ^ 63 ≤ t.toInt / interval.toInt * interval.toInt) :
    (alignDownsampleWindow t interval).toInt = t.toInt / interval.toInt * interval.toInt := by
  have hneg : ¬ 0 ≤ t := by
    rw [Int64.le_iff_toInt_le]
    exact Int.not_le.mpr ht
  rw [alignDownsampleWindow, if_neg (Int64.not_le.mpr hi), if_neg hneg]
  exact toInt_floor_of_neg hi.toInt_lt ht hlow

theorem alignDownsampleWindow_spec (hi : 0 < interval) (ht : 0 ≤ t) :
    interval.toInt ∣ (alignDownsampleWindow t interval).toInt ∧ 0 ≤ alignDownsampleWindow t interval ∧
      alignDownsampleWindow t interval ≤ t := by
  have hi' : 0 < interval.toInt := hi.toInt_lt
  have ht' : 0 ≤ t.toInt := ht.toInt_le
  have heq := toInt_alignDownsampleWindow hi ht
  refine ⟨heq ▸ Int.dvd_mul_left .., Int64.le_iff_toInt_le.mpr ?_, Int64.le_iff_toInt_le.mpr ?_⟩
  · rw [heq]
    exact Int.mul_nonneg (Int.ediv_nonneg ht' (Int.le_of_lt hi')) (Int.le_of_lt hi')
  · rw [heq]
    exact Int.ediv_mul_le _ (Int.ne_of_gt hi')

theorem alignDownsampleWindow_of_dvd (hi : 0 < interval) (ht : 0 ≤ t) (hdvd : interval.toInt ∣ t.toInt) :
    alignDownsampleWindow t interval = t := by
  apply Int64.toInt_inj.mp
  rw [toInt_alignDownsampleWindow hi ht, Int.ediv_mul_cancel hdvd]

theorem add_interval_le {interval a b : Int} (hi : 0 < interval) (ha : interval ∣ a) (hb : interval ∣ b)
    (hlt : a < b) : a + interval ≤ b := by
  obtain ⟨x, rfl⟩ := ha
  obtain ⟨y, rfl⟩ := hb
  have hxy : x < y := Int.lt_of_mul_lt_mul_left hlt (Int.le_of_lt hi)
  have := Int.mul_le_mul_of_nonneg_left (Int.add_one_le_of_lt hxy) (Int.le_of_lt hi)
  rwa [Int.mul_add, Int.mul_one] at this

theorem tiles_windowLoop (refresh : Int64 → Bool) (hi : 0 < interval) (hstop : interval.toInt ∣ stop.toInt)
    (fuel : Nat) (hcurrent : interval.toInt ∣ current.toInt) (hle : current ≤ stop)
    (hfuel : stop.toInt - current.toInt ≤ fuel) :
    Tiles interval refresh current stop (windowLoop interval stop refresh fuel current) := by
  have hi' : 0 < interval.toInt := hi.toInt_lt
  induction fuel generalizing current with
  | zero =>
    have hle' := hle.toInt_le
    obtain rfl : current = stop := Int64.toInt_inj.mp (by omega)
    exact .nil _
  | succ fuel ih =>
    rw [windowLoop]
    split
    · next hlt =>
      -- the next multiple is at most `stop`, so that the addition does not wrap around
      have hnext := add_interval_le hi' hcurrent hstop hlt.toInt_lt
      have hlow := current.le_toInt
      have hhigh := stop.toInt_lt
      have hadd : (current + interval).toInt = current.toInt + interval.toInt := by
        rw [Int64.toInt_add, Int.bmod_eq_of_le (by omega) (by omega)]
      refine .cons (w := ⟨current, current + interval, refresh current⟩) hcurrent hadd rfl (ih ?_ ?_ ?_)
      · rw [hadd]
        exact Int.dvd_add hcurrent (Int.dvd_refl _)
      · rw [Int64.le_iff_toInt_le, hadd]
        exact hnext
      · rw [hadd]
        omega
    · next hge =>
      obtain rfl : current = stop := Int64.le_antisymm hle (Int64.not_lt.mp hge)
      exact .nil _

theorem tiles_windowsBetween (refresh : Int64 → Bool) (hi : 0 < interval) (hstart : interval.toInt ∣ start.toInt)
    (hstop : interval.toInt ∣ stop.toInt) (hle : start ≤ stop) :
    Tiles interval refresh start stop (windowsBetween interval start stop refresh) :=
  tiles_windowLoop refresh hi hstop _ hstart hle (Int.self_le_toNat _)

def NowInRange (policy : DownsamplePolicy) (now : Int64) : Prop :=
  now.toInt - policy.delay.toInt < 2 ^ 63 ∧
    -2 ^ 63 ≤ (now.toInt - policy.delay.toInt) / policy.interval.toInt * policy.interval.toInt

def eligibleUntil (policy : DownsamplePolicy) (now : Int64) : Int64 :=
  alignDownsampleWindow (now - policy.delay) policy.interval

theorem toInt_eligibleUntil (hi : 0 < policy.interval) (h : NowInRange policy now) :
    (eligibleUntil policy now).toInt =
      (now.toInt - policy.delay.toInt) / policy.interval.toInt * policy.interval.toInt := by
  have hi' : 0 < policy.interval.toInt := hi.toInt_lt
  obtain ⟨hhigh, hlow⟩ := h
  have hfloor := Int.ediv_mul_le (now.toInt - policy.delay.toInt) (Int.ne_of_gt hi')
  have hsub : (now - policy.delay).toInt = now.toInt - policy.delay.toInt := by
    rw [Int64.toInt_sub, Int.bmod_eq_of_le (by omega) (by omega)]
  rw [← hsub] at hlow ⊢
  rcases lt_or_ge (now - policy.delay).toInt 0 with ht | ht
  · exact toInt_alignDownsampleWindow_of_neg hi ht hlow
  · exact toInt_alignDownsampleWindow hi (Int64.le_iff_toInt_le.mpr ht)

theorem downsampleAdvanceStart_spec (hi : 0 < policy.interval) (watermark : DownsampleWatermark) (eligible : Int64) :
    policy.interval.toInt ∣ (downsampleAdvanceStart policy watermark eligible).toInt ∧
      0 ≤ downsampleAdvanceStart policy watermark eligible := by
  have hclamp : ∀ t : Int64, 0 ≤ if t < 0 then 0 else t := by
    intro t
    split
    · exact Int64.le_refl _
    · next h => exact Int64.not_lt.mp h
  obtain ⟨hdvd, hnonneg, -⟩ := alignDownsampleWindow_spec hi (hclamp
    (if watermark.completedUntilUnix = 0 then downsampleInitialAdvanceStart policy eligible
      else watermark.completedUntilUnix))
  exact ⟨hdvd, hnonneg⟩

theorem downsampleRefreshStart_spec (hi : 0 < policy.interval) (watermark : DownsampleWatermark) (hdvd : policy.interval.toInt ∣ advanceStart.toInt) (hnonneg : 0 ≤ advanceStart) :
    policy.interval.toInt ∣ (downsampleRefreshStart policy watermark advanceStart).toInt ∧
      0 ≤ downsampleRefreshStart policy watermark advanceStart := by
  unfold downsampleRefreshStart
  split
  · exact ⟨hdvd, hnonneg⟩
  · dsimp only
    split
    · exact ⟨(alignDownsampleWindow_spec hi (Int64.le_refl _)).1, (alignDownsampleWindow_spec hi (Int64.le_refl _)).2.1⟩
    · next h =>
      obtain ⟨hdvd, hnonneg, -⟩ := alignDownsampleWindow_spec hi (Int64.not_lt.mp h)
      exact ⟨hdvd, hnonneg⟩

/-- The windows that a scheduled run takes fill the time from the first refreshed window, or without refresh
from the advance start, up to the eligible end. There are none when that is not positive or not past the advance
start. -/
theorem tiles_downsampleWindowsToRun (watermark : DownsampleWatermark) (hi : 0 < policy.interval)
    (hnow : NowInRange policy now) :
    downsampleWindowsToRun policy watermark now = [] ∧ (eligibleUntil policy now ≤ 0 ∨
      eligibleUntil policy now ≤ downsampleAdvanceStart policy watermark (eligibleUntil policy now)) ∨
    ∃ start, 0 ≤ start ∧ policy.interval.toInt ∣ start.toInt ∧ start < eligibleUntil policy now ∧
      start ≤ downsampleAdvanceStart policy watermark (eligibleUntil policy now) ∧
      (watermark.completedUntilUnix ≤ 0 → start = downsampleAdvanceStart policy watermark (eligibleUntil policy now)) ∧
      Tiles policy.interval
        (fun current => current < downsampleAdvanceStart policy watermark (eligibleUntil policy now))
        start (eligibleUntil policy now) (downsampleWindowsToRun policy watermark now) := by
  have hstop : policy.interval.toInt ∣ (eligibleUntil policy now).toInt := by
    rw [toInt_eligibleUntil hi hnow]
    exact Int.dvd_mul_left ..
  unfold downsampleWindowsToRun
  dsimp only
  rw [show alignDownsampleWindow (now - policy.delay) policy.interval = eligibleUntil policy now from rfl]
  obtain ⟨hadvance, hadvance0⟩ := downsampleAdvanceStart_spec hi watermark (eligibleUntil policy now)
  obtain ⟨hrefresh, hrefresh0⟩ := downsampleRefreshStart_spec hi watermark hadvance hadvance0
  split
  · next hnone =>
    refine .inl ⟨rfl, .inl ?_⟩
    simpa [Int64.not_le.mpr hi] using hnone
  generalize hA : downsampleAdvanceStart policy watermark (eligibleUntil policy now) = A at *
  generalize hR : downsampleRefreshStart policy watermark A = R at *
  obtain ⟨start, hstart, hdvd, hnonneg, hle, hnone⟩ : ∃ start, (if R < A then R else A) = start ∧
      policy.interval.toInt ∣ start.toInt ∧ 0 ≤ start ∧ start ≤ A ∧
      (watermark.completedUntilUnix ≤ 0 → start = A) := by
    refine ⟨_, rfl, ?_⟩
    split
    · next h =>
      refine ⟨hrefresh, hrefresh0, Int64.le_of_lt h, fun hw => ?_⟩
      rw [← hR, downsampleRefreshStart, decide_eq_true hw]
      rfl
    · exact ⟨hadvance, hadvance0, Int64.le_refl _, fun _ => rfl⟩
  rw [hstart]
  split
  · next hpast => exact .inl ⟨rfl, .inr (Int64.le_trans hpast hle)⟩
  · next hlt =>
    have hlt := Int64.not_le.mp hlt
    exact .inr ⟨start, hnonneg, hdvd, hlt, hle, hnone, tiles_windowsBetween _ hi hdvd hstop (Int64.le_of_lt hlt)⟩

theorem tiles_downsampleRangeWindows (hi : 0 < policy.interval)
    (h : downsampleRangeWindows policy watermark start stop advance = .ok (windows, alignedStart)) :
    0 ≤ alignedStart ∧ ∃ last, Tiles policy.interval
      (fun current => !advance || decide (current < watermark.completedUntilUnix)) alignedStart last windows := by
  unfold downsampleRangeWindows at h
  split at h
  · cases h
  next hsign =>
  have hstart : 0 ≤ start := Int64.not_lt.mp fun hlt => hsign (by simp [hlt])
  have hstop : 0 ≤ stop := Int64.not_lt.mp fun hlt => hsign (by simp [hlt])
  obtain ⟨hstartDvd, hstart0, -⟩ := alignDownsampleWindow_spec hi hstart
  obtain ⟨hstopDvd, -, -⟩ := alignDownsampleWindow_spec hi hstop
  split at h
  · cases h
  dsimp only at h
  split at h
  · cases h
    exact ⟨hstart0, _, .nil _⟩
  · next hlt =>
    cases h
    exact ⟨hstart0, _, tiles_windowsBetween _ hi hstartDvd hstopDvd (Int64.le_of_lt (Int64.not_le.mp hlt))⟩

theorem Tiles.le (hi : 0 < interval) (h : Tiles interval refresh start stop windows) : start ≤ stop := by
  have hi' : 0 < interval.toInt := hi.toInt_lt
  induction h with
  | nil t => exact Int64.le_refl t
  | cons _ hlength _ _ ih =>
    refine Int64.le_trans (Int64.le_iff_toInt_le.mpr ?_) ih
    omega

theorem Tiles.mem (hi : 0 < interval) (h : Tiles interval refresh start stop windows) (hw : w ∈ windows) :
    interval.toInt ∣ w.start.toInt ∧ w.stop.toInt = w.start.toInt + interval.toInt ∧ start ≤ w.start ∧
      w.stop ≤ stop ∧ w.refresh = refresh w.start := by
  have hi' : 0 < interval.toInt := hi.toInt_lt
  induction h with
  | nil => cases hw
  | @cons u stop windows haligned hlength hmark hrest ih =>
    rcases List.mem_cons.mp hw with rfl | hw
    · exact ⟨haligned, hlength, Int64.le_refl _, hrest.le hi, hmark⟩
    · obtain ⟨h1, h2, h3, h4, h5⟩ := ih hw
      refine ⟨h1, h2, Int64.le_trans (Int64.le_iff_toInt_le.mpr ?_) h3, h4, h5⟩
      omega

theorem Tiles.head (h : Tiles interval refresh start stop (w :: windows)) : w.start = start := by
  cases h
  rfl

theorem Tiles.tail (h : Tiles interval refresh start stop (w :: windows)) :
    Tiles interval refresh w.stop stop windows := by
  cases h
  assumption

theorem Tiles.isChain (h : Tiles interval refresh start stop windows) : windows.IsChain (·.stop = ·.start) := by
  induction h with
  | nil => exact .nil
  | @cons w stop windows _ _ _ hrest ih =>
    cases windows with
    | nil => exact .singleton _
    | cons next windows => exact .cons_cons hrest.head.symm ih

end Mts.Downsample
