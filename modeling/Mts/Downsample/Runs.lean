import Mts.Downsample.Windows
import Mts.Lib.Trace

/-! Runs of one downsample policy, `engine/downsample_executor.go`, `downsample_metadata.go` and
`downsample_scheduler.go`. A run reads the watermark once, works through its windows and writes the watermark at
checkpoints, at its end and when a window fails. The steps of several runs may interleave: only scheduled runs
exclude each other. -/

namespace Mts.Downsample
open Lib Model

variable {watermark : DownsampleWatermark} {policy : DownsamplePolicy}

/-- What a run does next: a window, the update of a checkpoint, the update after a failure, or the last update. -/
inductive RunPhase
  | next (windows : List DownsampleWindow)
  | checkpoint (windows : List DownsampleWindow)
  | failure (cause : GoString)
  | success
  deriving DecidableEq, Repr

structure DownsampleRun where
  scheduled : Bool
  checkpoint : DownsampleWatermark
  completed : Int64
  advanceSinceCheckpoint : Nat
  phase : RunPhase
  deriving DecidableEq, Repr

variable {r : DownsampleRun}

/-- `running` is the policy's entry in `downsampleRunning`; `processed` are the windows processed so far. -/
structure DownsampleState where
  watermark : DownsampleWatermark
  running : Bool
  runs : List DownsampleRun
  processed : List DownsampleWindow
  deriving DecidableEq, Repr

variable {s : DownsampleState}

structure DownsampleReset where
  completedUntilUnix : Int64
  allowPolicyReplace : Bool

/-- The steps of the runs of a policy. `outcome` is the error of a window or of a watermark update, if any;
`admitted` says whether the policy is due and fewer runs than allowed are in flight over all policies. -/
inductive DownsampleEvent
  | schedule (now : Int64) (admitted : Bool)
  | run (now : Int64)
  | range (start stop : Int64) (advance : Bool)
  | window (index : Nat) (outcome : Option GoString)
  | update (index : Nat) (time : Int64) (outcome : Option GoString)
  | reset (request : DownsampleReset)

variable {e : DownsampleEvent}

def newRun (scheduled : Bool) (watermark : DownsampleWatermark) (windows : List DownsampleWindow) : DownsampleRun :=
  ⟨scheduled, watermark, watermark.completedUntilUnix, 0, .next windows⟩

def DownsampleRun.processed (policy : DownsamplePolicy) (r : DownsampleRun) (w : DownsampleWindow)
    (windows : List DownsampleWindow) : DownsampleRun :=
  if w.refresh then { r with phase := .next windows }
  else
    let r := if r.completed < w.stop then
      { r with completed := w.stop, advanceSinceCheckpoint := r.advanceSinceCheckpoint + 1 } else r
    if policy.checkpointInterval ≤ r.advanceSinceCheckpoint then { r with phase := .checkpoint windows }
    else { r with phase := .next windows }

/-- The watermark of `recordDownsampleRunSuccess`. -/
def DownsampleRun.successWatermark (r : DownsampleRun) (time : Int64) : DownsampleWatermark :=
  ⟨r.completed, time, time, [], false⟩

/-- The watermark of `recordDownsampleRunFailure`. -/
def DownsampleRun.failureWatermark (r : DownsampleRun) (time : Int64) (cause : GoString) : DownsampleWatermark :=
  ⟨r.checkpoint.completedUntilUnix, time, r.checkpoint.lastSuccessUnix, cause, r.checkpoint.allowPolicyReplace⟩

namespace DownsampleState

def begin (s : DownsampleState) (r : DownsampleRun) : DownsampleState := { s with runs := s.runs ++ [r] }

def finish (s : DownsampleState) (index : Nat) (r : DownsampleRun) : DownsampleState :=
  { s with runs := s.runs.eraseIdx index, running := s.running && !r.scheduled }

/-- `UpdateDownsampleWatermark`; an update that fails leaves the old watermark. -/
def store (s : DownsampleState) (watermark : DownsampleWatermark) (outcome : Option GoString) : DownsampleState :=
  match outcome with
  | none => { s with watermark := watermark }
  | some _ => s

end DownsampleState

/-- `RunDownsamplePolicyRange` up to the loop. -/
def rangeRun (policy : DownsamplePolicy) (watermark : DownsampleWatermark) (start stop : Int64) (advance : Bool) :
    Except RangeError DownsampleRun := do
  let (windows, alignedStart) ← downsampleRangeWindows policy watermark start stop advance
  if advance && decide (0 < watermark.completedUntilUnix) && decide (watermark.completedUntilUnix < alignedStart) then
    .error .startsAfterWatermark
  else
    .ok (newRun false watermark (if advance then windows else markDownsampleWindowsRefresh windows))

def windowStep (policy : DownsamplePolicy) (s : DownsampleState) (index : Nat) (r : DownsampleRun)
    (outcome : Option GoString) : DownsampleState :=
  match r.phase, outcome with
  | .next (_ :: _), some cause => { s with runs := s.runs.set index { r with phase := .failure cause } }
  | .next (w :: windows), none =>
    { s with runs := s.runs.set index (r.processed policy w windows), processed := s.processed ++ [w] }
  | .next [], _ => { s with runs := s.runs.set index { r with phase := .success } }
  | _, _ => s

def updateStep (s : DownsampleState) (index : Nat) (r : DownsampleRun) (time : Int64) (outcome : Option GoString) :
    DownsampleState :=
  match r.phase with
  | .next _ => s
  | .checkpoint windows =>
    -- the run goes on from the new watermark also when it could not be stored
    let r := { r with checkpoint := r.successWatermark time }
    let r := match outcome with
      | none => { r with advanceSinceCheckpoint := 0, phase := .next windows }
      | some cause => { r with phase := .failure cause }
    { s with runs := s.runs.set index r }.store r.checkpoint outcome
  | .failure cause => (s.finish index r).store (r.failureWatermark time cause) outcome
  | .success => (s.finish index r).store (r.successWatermark time) outcome

def downsampleStep (policy : DownsamplePolicy) (s : DownsampleState) : DownsampleEvent → DownsampleState
  | .schedule now admitted =>
    if !policy.enabled || s.running || !admitted then s
    else { s.begin (newRun true s.watermark (downsampleWindowsToRun policy s.watermark now)) with running := true }
  | .run now =>
    if !policy.enabled then s
    else s.begin (newRun false s.watermark (downsampleWindowsToRun policy s.watermark now))
  | .range start stop advance =>
    match rangeRun policy s.watermark start stop advance with
    | .error _ => s
    | .ok r => s.begin r
  | .window index outcome =>
    match s.runs[index]? with
    | some r => windowStep policy s index r outcome
    | none => s
  | .update index time outcome =>
    match s.runs[index]? with
    | some r => updateStep s index r time outcome
    | none => s
  | .reset request =>
    if request.completedUntilUnix < 0 then s
    else { s with watermark := { s.watermark with
      completedUntilUnix := request.completedUntilUnix
      lastError := []
      allowPolicyReplace := request.allowPolicyReplace } }

def initialState : DownsampleState := ⟨⟨0, 0, 0, [], false⟩, false, [], []⟩

def DownsampleEvent.reads : DownsampleEvent → Bool
  | .schedule .. | .run _ | .range .. | .reset _ => true
  | _ => false

def DownsampleEvent.isReset : DownsampleEvent → Bool
  | .reset _ => true
  | _ => false

/-- A run starts, and the policy is reset, only while no run is in flight. -/
def Serial (s : DownsampleState) (e : DownsampleEvent) : Prop := e.reads = true → s.runs = []

instance : DecidableRel Serial := fun _ _ => inferInstanceAs (Decidable (_ → _))

/-- The step does not take the watermark back, unless it resets the policy. -/
def KeepsWatermark (policy : DownsamplePolicy) (s : DownsampleState) (e : DownsampleEvent) : Prop :=
  e.isReset = true ∨ s.watermark.completedUntilUnix ≤ (downsampleStep policy s e).watermark.completedUntilUnix

structure RunAhead (watermark : DownsampleWatermark) (r : DownsampleRun) : Prop where
  stored : watermark.completedUntilUnix ≤ r.checkpoint.completedUntilUnix
  completed : r.checkpoint.completedUntilUnix ≤ r.completed

def OneAhead (s : DownsampleState) : Prop := s.runs = [] ∨ ∃ r, s.runs = [r] ∧ RunAhead s.watermark r

theorem runAhead_newRun (scheduled : Bool) (watermark : DownsampleWatermark) (windows : List DownsampleWindow) :
    RunAhead watermark (newRun scheduled watermark windows) := ⟨Int64.le_refl _, Int64.le_refl _⟩

inductive StartWindows (policy : DownsamplePolicy) (watermark : DownsampleWatermark) :
    DownsampleEvent → List DownsampleWindow → Prop
  | schedule (now : Int64) (admitted : Bool) :
    StartWindows policy watermark (.schedule now admitted) (downsampleWindowsToRun policy watermark now)
  | run (now : Int64) : StartWindows policy watermark (.run now) (downsampleWindowsToRun policy watermark now)
  | range {start stop : Int64} {advance : Bool} {windows : List DownsampleWindow} {alignedStart : Int64}
    (hwindows : downsampleRangeWindows policy watermark start stop advance = .ok (windows, alignedStart))
    (hstart : advance = true → 0 < watermark.completedUntilUnix → alignedStart ≤ watermark.completedUntilUnix) :
    StartWindows policy watermark (.range start stop advance)
      (if advance then windows else markDownsampleWindowsRefresh windows)

theorem rangeRun_eq (h : rangeRun policy watermark start stop advance = .ok r) :
    ∃ windows, StartWindows policy watermark (.range start stop advance) windows ∧
      r = newRun false watermark windows := by
  obtain ⟨⟨windows, alignedStart⟩, hwindows, h⟩ := except_bind_ok h
  dsimp only at h
  split at h
  · cases h
  · next hcond =>
    refine ⟨_, .range hwindows fun hadvance hpos => ?_, (Except.ok.inj h).symm⟩
    rw [hadvance, decide_eq_true hpos] at hcond
    simpa using hcond

theorem start_cases (policy : DownsamplePolicy) (s : DownsampleState) (he : e.reads = true)
    (hreset : e.isReset = false) : downsampleStep policy s e = s ∨ ∃ scheduled windows running,
      StartWindows policy s.watermark e windows ∧
      downsampleStep policy s e = { s.begin (newRun scheduled s.watermark windows) with running := running } := by
  cases e with
  | schedule now admitted =>
    rw [downsampleStep]
    split
    · exact .inl rfl
    · exact .inr ⟨true, _, true, .schedule now admitted, rfl⟩
  | run now =>
    rw [downsampleStep]
    split
    · exact .inl rfl
    · exact .inr ⟨false, _, s.running, .run now, rfl⟩
  | range start stop advance =>
    rw [downsampleStep]
    split
    · exact .inl rfl
    · next r hr =>
      obtain ⟨windows, hwindows, rfl⟩ := rangeRun_eq hr
      exact .inr ⟨false, _, s.running, hwindows, rfl⟩
  | window index outcome => cases he
  | update index time outcome => cases he
  | reset request => cases hreset

theorem processed_spec (policy : DownsamplePolicy) (r : DownsampleRun) (w : DownsampleWindow)
    (windows : List DownsampleWindow) :
    (r.processed policy w windows).checkpoint = r.checkpoint ∧
      (r.processed policy w windows).completed =
        (if w.refresh = false ∧ r.completed < w.stop then w.stop else r.completed) ∧
      ((r.processed policy w windows).phase = .next windows ∨
        (r.processed policy w windows).phase = .checkpoint windows) := by
  unfold DownsampleRun.processed
  split
  · next hrefresh => simp [hrefresh]
  · next hrefresh =>
    dsimp only
    split <;> split <;> simp [*]

theorem le_completed_processed (policy : DownsamplePolicy) (r : DownsampleRun) (w : DownsampleWindow)
    (windows : List DownsampleWindow) : r.completed ≤ (r.processed policy w windows).completed := by
  rw [(processed_spec policy r w windows).2.1]
  split
  · next h => exact Int64.le_of_lt h.2
  · exact Int64.le_refl _

theorem OneAhead.of_getElem (h : OneAhead s) (hr : s.runs[index]? = some r) :
    index = 0 ∧ s.runs = [r] ∧ RunAhead s.watermark r := by
  rcases h with h | ⟨r', h, hahead⟩
  · simp [h] at hr
  · rw [h, List.getElem?_singleton] at hr
    split at hr
    · next hindex => exact ⟨hindex, Option.some.inj hr ▸ h, Option.some.inj hr ▸ hahead⟩
    · cases hr

theorem OneAhead.windowStep (hs : s.runs = [r]) (hahead : RunAhead s.watermark r) (policy : DownsamplePolicy)
    (outcome : Option GoString) :
    (windowStep policy s 0 r outcome).watermark = s.watermark ∧ OneAhead (windowStep policy s 0 r outcome) := by
  have hset : ∀ r' : DownsampleRun, RunAhead s.watermark r' → ∀ processed,
      OneAhead { s with runs := s.runs.set 0 r', processed := processed } := by
    intro r' h processed
    exact .inr ⟨r', by rw [hs]; rfl, h⟩
  unfold Downsample.windowStep
  split
  · refine ⟨rfl, hset _ ?_ _⟩
    exact ⟨hahead.stored, hahead.completed⟩
  · next w windows _ =>
    obtain ⟨hcheckpoint, -⟩ := processed_spec policy r w windows
    refine ⟨rfl, hset _ ⟨?_, ?_⟩ _⟩
    · rw [hcheckpoint]
      exact hahead.stored
    · rw [hcheckpoint]
      exact Int64.le_trans hahead.completed (le_completed_processed policy r w windows)
  · refine ⟨rfl, hset _ ?_ _⟩
    exact ⟨hahead.stored, hahead.completed⟩
  · exact ⟨rfl, .inr ⟨r, hs, hahead⟩⟩

theorem le_store (outcome : Option GoString) (h : s.watermark.completedUntilUnix ≤ watermark.completedUntilUnix) :
    s.watermark.completedUntilUnix ≤ (s.store watermark outcome).watermark.completedUntilUnix := by
  cases outcome with
  | none => exact h
  | some cause => exact Int64.le_refl s.watermark.completedUntilUnix

theorem OneAhead.updateStep (hs : s.runs = [r]) (hahead : RunAhead s.watermark r) (time : Int64)
    (outcome : Option GoString) :
    s.watermark.completedUntilUnix ≤ (updateStep s 0 r time outcome).watermark.completedUntilUnix ∧
      OneAhead (updateStep s 0 r time outcome) := by
  have hfinish : ∀ watermark, OneAhead ((s.finish 0 r).store watermark outcome) := by
    intro watermark
    refine .inl ?_
    cases outcome <;> simp [DownsampleState.store, DownsampleState.finish, hs]
  unfold Downsample.updateStep
  split
  · exact ⟨Int64.le_refl _, .inr ⟨r, hs, hahead⟩⟩
  · have hle := Int64.le_trans hahead.stored hahead.completed
    refine ⟨le_store outcome ?_, .inr ?_⟩
    · cases outcome <;> exact hle
    · cases outcome with
      | none =>
        simp only [DownsampleState.store, hs, List.set_cons_zero]
        exact ⟨_, rfl, Int64.le_refl r.completed, Int64.le_refl r.completed⟩
      | some cause =>
        simp only [DownsampleState.store, hs, List.set_cons_zero]
        exact ⟨_, rfl, hle, Int64.le_refl r.completed⟩
  · exact ⟨le_store outcome hahead.stored, hfinish _⟩
  · exact ⟨le_store outcome (Int64.le_trans hahead.stored hahead.completed), hfinish _⟩

theorem OneAhead.step (h : OneAhead s) (hserial : Serial s e) :
    OneAhead (downsampleStep policy s e) ∧ KeepsWatermark policy s e := by
  cases hreads : e.reads with
  | true =>
    have hnone := hserial hreads
    cases hreset : e.isReset with
    | true =>
      refine ⟨.inl ?_, .inl hreset⟩
      cases e <;> simp only [DownsampleEvent.isReset, Bool.false_eq_true] at hreset
      rw [downsampleStep]
      split <;> exact hnone
    | false =>
      obtain heq | ⟨scheduled, windows, running, -, heq⟩ := start_cases policy s hreads hreset
      · rw [KeepsWatermark, heq]
        exact ⟨h, .inr (Int64.le_refl _)⟩
      · rw [KeepsWatermark, heq]
        refine ⟨.inr ⟨_, ?_, runAhead_newRun scheduled s.watermark windows⟩, .inr (Int64.le_refl _)⟩
        simp [DownsampleState.begin, hnone]
  | false =>
    cases e with
    | window index outcome =>
      rw [KeepsWatermark, downsampleStep]
      split
      · next r hr =>
        obtain ⟨rfl, hs, hahead⟩ := h.of_getElem hr
        obtain ⟨hwatermark, hone⟩ := OneAhead.windowStep hs hahead policy outcome
        rw [hwatermark]
        exact ⟨hone, .inr (Int64.le_refl _)⟩
      · exact ⟨h, .inr (Int64.le_refl _)⟩
    | update index time outcome =>
      rw [KeepsWatermark, downsampleStep]
      split
      · next r hr =>
        obtain ⟨rfl, hs, hahead⟩ := h.of_getElem hr
        obtain ⟨hle, hone⟩ := OneAhead.updateStep hs hahead time outcome
        exact ⟨hone, .inr hle⟩
      · exact ⟨h, .inr (Int64.le_refl _)⟩
    | schedule now admitted => cases hreads
    | run now => cases hreads
    | range start stop advance => cases hreads
    | reset request => cases hreads

/-- While every run starts, and every reset happens, with no run in flight, the stored watermark goes back at
resets only. -/
theorem watermark_monotone (policy : DownsamplePolicy) (events : List DownsampleEvent)
    (hserial : Always (downsampleStep policy) Serial initialState events) :
    Always (downsampleStep policy) (KeepsWatermark policy) initialState events := by
  have hinit : OneAhead initialState := .inl rfl
  obtain ⟨-, h⟩ := hserial.with_invariant hinit fun s e hs he => (hs.step he).1
  exact h.imp fun s e hse => (hse.1.step hse.2).2

/-- Windows of ten, the last one only when nothing is completed, and a checkpoint after each. -/
def lastOfTen : DownsamplePolicy := ⟨[112], 10, [⟨.avg, [118], [97]⟩], [], 0, 0, 0, 1, [116], true, 1024⟩

instance (policy : DownsamplePolicy) : DecidableRel (KeepsWatermark policy) :=
  fun _ _ => inferInstanceAs (Decidable (_ ∨ _))

/-- A manual and a scheduled run read the watermark 0. The scheduled one stores 100, and the manual one, whose
window fails, puts 0 back. -/
theorem watermark_back_after_overlap :
    ¬ Always (downsampleStep lastOfTen) (KeepsWatermark lastOfTen) initialState
      [.run 100, .schedule 100 true, .window 1 none, .update 1 1 none, .window 0 (some [101]), .update 0 2 none] := by
  decide +kernel

theorem watermark_kept_in_turn :
    Always (downsampleStep lastOfTen) (KeepsWatermark lastOfTen) initialState
      [.schedule 100 true, .window 0 none, .update 0 1 none, .window 0 none, .update 0 2 none,
        .run 110, .window 0 (some [101]), .update 0 3 none] :=
  watermark_monotone lastOfTen _ (by decide +kernel)

/-- A replacement of the policy needs the permission of a reset, unless the two policies are compatible. -/
def validateDownsamplePolicyUpdate (watermark : DownsampleWatermark) (compatible : Bool) : Bool :=
  watermark.allowPolicyReplace || compatible

structure KeepsPermission (policy : DownsamplePolicy) (s : DownsampleState) (e : DownsampleEvent) : Prop where
  flag : (downsampleStep policy s e).watermark.allowPolicyReplace = s.watermark.allowPolicyReplace
  accepted : ∀ compatible, validateDownsamplePolicyUpdate s.watermark compatible = true →
    validateDownsamplePolicyUpdate (downsampleStep policy s e).watermark compatible = true

def NoPermission (s : DownsampleState) : Prop :=
  s.watermark.allowPolicyReplace = false ∧ ∀ r ∈ s.runs, r.checkpoint.allowPolicyReplace = false

/-- The update is stored, and its run has got to a checkpoint or to its end: the watermark is one of
`recordDownsampleRunSuccess`, or of a failure after it. -/
def storesSuccess (s : DownsampleState) : DownsampleEvent → Bool
  | .update index _ none => (s.runs[index]?).any fun r =>
    match r.phase with
    | .next _ => false
    | .failure _ => !r.checkpoint.allowPolicyReplace
    | .checkpoint _ | .success => true
  | _ => false

theorem keepsPermission_of_eq
    (h : (downsampleStep policy s e).watermark.allowPolicyReplace = s.watermark.allowPolicyReplace) :
    KeepsPermission policy s e := ⟨h, fun _ => by simp [validateDownsamplePolicyUpdate, h]⟩

theorem NoPermission.set (h : NoPermission s) (hr : r.checkpoint.allowPolicyReplace = false) (index : Nat)
    (processed : List DownsampleWindow) :
    NoPermission { s with runs := s.runs.set index r, processed := processed } := by
  refine ⟨h.1, fun r' hr' => ?_⟩
  rcases List.mem_or_eq_of_mem_set hr' with hr' | rfl
  · exact h.2 r' hr'
  · exact hr

theorem NoPermission.finish (h : NoPermission s) (index : Nat) (r : DownsampleRun) : NoPermission (s.finish index r) :=
  ⟨h.1, fun r' hr' => h.2 r' (List.mem_of_mem_eraseIdx hr')⟩

theorem NoPermission.store (h : NoPermission s)
    (hw : watermark.allowPolicyReplace = false) : NoPermission (s.store watermark outcome) := by
  cases outcome with
  | none => exact ⟨hw, h.2⟩
  | some cause => exact h

/-- What a step leaves where the permission is set, and where neither the watermark nor a run has it. -/
theorem permission_step (hreset : e.isReset = false) :
    (s.watermark.allowPolicyReplace = true →
      (downsampleStep policy s e).watermark.allowPolicyReplace = !storesSuccess s e) ∧
    (NoPermission s → NoPermission (downsampleStep policy s e)) := by
  cases hreads : e.reads with
  | true =>
    have hstores : storesSuccess s e = false := by cases e <;> first | rfl | cases hreads
    rw [hstores]
    obtain heq | ⟨scheduled, windows, running, -, heq⟩ := start_cases policy s hreads hreset
    · rw [heq]
      exact ⟨id, id⟩
    · rw [heq]
      refine ⟨id, fun h => ⟨h.1, fun r hr => ?_⟩⟩
      rcases List.mem_append.mp hr with hr | hr
      · exact h.2 r hr
      · exact List.mem_singleton.mp hr ▸ h.1
  | false =>
    cases e with
    | window index outcome =>
      rw [downsampleStep]
      split
      · next r hr =>
        have hrun : NoPermission s → r.checkpoint.allowPolicyReplace = false := fun h =>
          h.2 r (List.mem_of_getElem? hr)
        unfold windowStep
        split
        · refine ⟨id, fun h => h.set ?_ index _⟩
          exact hrun h
        · refine ⟨id, fun h => h.set ?_ index _⟩
          rw [(processed_spec policy r _ _).1]
          exact hrun h
        · refine ⟨id, fun h => h.set ?_ index _⟩
          exact hrun h
        · exact ⟨id, id⟩
      · exact ⟨id, id⟩
    | update index time outcome =>
      rw [downsampleStep]
      split
      · next r hr =>
        unfold updateStep
        split
        · next hphase => cases outcome <;> simp [storesSuccess, hr, hphase]
        · next hphase =>
          refine ⟨fun h => ?_, fun h => ?_⟩
          · cases outcome <;> simp [storesSuccess, DownsampleState.store, DownsampleRun.successWatermark, *]
          · cases outcome with
            | none => exact (h.set rfl index _).store rfl
            | some cause => exact h.set rfl index _
        · next hphase =>
          refine ⟨fun h => ?_, fun h => (h.finish index r).store (h.2 r (List.mem_of_getElem? hr))⟩
          cases outcome <;>
            simp [storesSuccess, DownsampleState.store, DownsampleRun.failureWatermark, DownsampleState.finish, *]
        · next hphase =>
          refine ⟨fun h => ?_, fun h => (h.finish index r).store rfl⟩
          cases outcome <;>
            simp [storesSuccess, DownsampleState.store, DownsampleRun.successWatermark, DownsampleState.finish, *]
      · next hr =>
        cases outcome <;> simp [storesSuccess, hr]
    | schedule now admitted => cases hreads
    | run now => cases hreads
    | range start stop advance => cases hreads
    | reset request => cases hreset

/-- Runs keep the permission to replace the policy iff there is none or no run stores a success. -/
theorem permission_kept_iff (policy : DownsamplePolicy) (watermark : DownsampleWatermark) (events : List DownsampleEvent)
    (hreset : ∀ e ∈ events, e.isReset = false) :
    Always (downsampleStep policy) (KeepsPermission policy) ⟨watermark, false, [], []⟩ events ↔
      watermark.allowPolicyReplace = false ∨
        Always (downsampleStep policy) (fun s e => storesSuccess s e = false) ⟨watermark, false, [], []⟩ events := by
  have hmem : ∀ {pre post : List DownsampleEvent} {e}, events = pre ++ e :: post → e.isReset = false :=
    fun hsplit => hreset _ (by simp [hsplit])
  cases hflag : watermark.allowPolicyReplace with
  | false =>
    have hall : Always (downsampleStep policy) (fun _ e => e.isReset = false) ⟨watermark, false, [], []⟩ events :=
      fun _ _ _ hsplit => hmem hsplit
    obtain ⟨-, hall⟩ := hall.with_invariant ⟨hflag, nofun⟩ fun s e hs he => (permission_step he).2 hs
    refine iff_of_true (hall.imp fun s e hse => keepsPermission_of_eq ?_) (.inl rfl)
    rw [((permission_step hse.2).2 hse.1).1, hse.1.1]
  | true =>
    constructor
    · intro h
      obtain ⟨-, hall⟩ := h.with_invariant hflag
        fun s e hs he => he.flag.trans hs
      refine .inr fun pre e post hsplit => ?_
      obtain ⟨hs, hkeeps⟩ := hall pre e post hsplit
      have hstep := hkeeps.flag.symm.trans ((permission_step (hmem hsplit)).1 hs)
      simpa [hs] using hstep
    · rintro (h | h)
      · cases h
      · have hstep : ∀ s e, s.watermark.allowPolicyReplace = true → e.isReset = false ∧ storesSuccess s e = false →
            (downsampleStep policy s e).watermark.allowPolicyReplace = true := fun s e hs he => by
          rw [(permission_step he.1).1 hs, he.2]
          rfl
        have hall : Always (downsampleStep policy) (fun s e => e.isReset = false ∧ storesSuccess s e = false)
            ⟨watermark, false, [], []⟩ events := fun pre e post hsplit => ⟨hmem hsplit, h pre e post hsplit⟩
        obtain ⟨-, hall⟩ := hall.with_invariant hflag hstep
        exact hall.imp fun s e hse => keepsPermission_of_eq ((hstep s e hse.1 hse.2).trans hse.1.symm)

/-- After a reset that permits a replacement, a run with one window takes the permission back. -/
theorem permission_lost_by_run :
    ¬ Always (downsampleStep lastOfTen) (KeepsPermission lastOfTen) ⟨⟨0, 0, 0, [], true⟩, false, [], []⟩
      [.run 100, .window 0 none, .update 0 1 none] :=
  fun h => absurd (h [.run 100, .window 0 none] _ [] rfl).flag (by decide +kernel)

theorem permission_kept_by_failure :
    Always (downsampleStep lastOfTen) (KeepsPermission lastOfTen) ⟨⟨0, 0, 0, [], true⟩, false, [], []⟩
      [.run 100, .window 0 (some [101]), .update 0 1 none] :=
  (permission_kept_iff lastOfTen _ _ (by decide)).mpr (.inr (by decide +kernel))

end Mts.Downsample
