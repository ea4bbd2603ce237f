import Mathlib

/-! Admission of queries, `queryservice/service.go`. The callers of `Admit` and of the release functions share two
counters and take atomic steps in any order: a load with the local test that follows it, a compare-and-swap, or an
addition. -/

namespace Mts.Queryservice
open List

structure Options where
  maxConcurrent : Int
  maxQueued : Int

/-- Where a caller stands in `Admit` or, once it has returned, in its release function. `polled` is whether it
waits in the queue meanwhile. -/
inductive Phase
  | start
  | acquire (polled : Bool)
  | swap (polled : Bool) (current : Int)
  | queue
  | swapQueued (current : Int)
  | waiting
  | leave (admitted : Bool)
  | admitted
  | released
  | done
  deriving DecidableEq

structure State where
  active : Int
  queued : Int
  callers : List Phase

def move (o : Options) (canceled : Bool) (active queued : Int) : Phase → Phase × Int × Int
  | .start => (if canceled then .done else .acquire false, active, queued)
  | .acquire polled =>
    if 0 < o.maxConcurrent ∧ active ≥ o.maxConcurrent then (if polled then .waiting else .queue, active, queued)
    else (.swap polled active, active, queued)
  | .swap polled current =>
    if active = current then (if polled then .leave true else .admitted, current + 1, queued)
    else (.acquire polled, active, queued)
  | .queue =>
    if o.maxQueued ≤ 0 ∨ queued ≥ o.maxQueued then (.done, active, queued) else (.swapQueued queued, active, queued)
  | .swapQueued current =>
    if queued = current then (.waiting, active, current + 1) else (.queue, active, queued)
  | .waiting => (if canceled then .leave false else .acquire true, active, queued)
  -- the deferred decrement
  | .leave admitted => (if admitted then .admitted else .done, active, queued - 1)
  | .admitted => (.admitted, active, queued)
  | .released => (.done, active - 1, queued)
  | .done => (.done, active, queued)

inductive Event
  | call
  | move (caller : Nat) (canceled : Bool)
  | release (caller : Nat)

def State.step (o : Options) (s : State) : Event → State
  | .call => { s with callers := s.callers ++ [.start] }
  | .move caller canceled =>
    match s.callers[caller]? with
    | none => s
    | some phase =>
      let next := Queryservice.move o canceled s.active s.queued phase
      ⟨next.2.1, next.2.2, s.callers.set caller next.1⟩
  -- only the first call finds the flag unset
  | .release caller =>
    if s.callers[caller]? = some .admitted then { s with callers := s.callers.set caller .released } else s

def run (o : Options) (events : List Event) : State := events.foldl (State.step o) ⟨0, 0, []⟩

/-- From the swap that admits the query to the decrement of its release. -/
@[simp] def Phase.holds : Phase → Bool
  | .leave true | .admitted | .released => true
  | _ => false

/-- From the swap that enters the queue to the deferred decrement. -/
@[simp] def Phase.waits : Phase → Bool
  | .acquire true | .swap true _ | .waiting | .leave _ => true
  | _ => false

structure Counted (o : Options) (s : State) : Prop where
  active : s.active = s.callers.countP Phase.holds
  concurrent : 0 < o.maxConcurrent → s.active ≤ o.maxConcurrent
  queued : s.queued = s.callers.countP Phase.waits
  queue : s.queued ≤ max 0 o.maxQueued

structure Limits (o : Options) (s : State) : Prop extends Counted o s where
  idle : (∀ phase ∈ s.callers, phase = .done) → s.active = 0 ∧ s.queued = 0

/-- A value that was loaded for a swap passed its test. -/
@[simp] def Phase.Tested (o : Options) : Phase → Prop
  | .swap _ current => 0 < o.maxConcurrent → current < o.maxConcurrent
  | .swapQueued current => current < o.maxQueued
  | _ => True

structure Inv (o : Options) (s : State) : Prop extends Counted o s where
  tested : ∀ phase ∈ s.callers, phase.Tested o

section
variable {o : Options} {old : Phase}

theorem countP_set_int (p : Phase → Bool) {l : List Phase} (new : Phase) (h : l[i]? = some old) :
    (l.set i new).countP p = l.countP p - (p old).toInt + (p new).toInt := by
  obtain ⟨hi, rfl⟩ := List.getElem?_eq_some_iff.mp h
  rw [countP_set hi]
  cases hold : p l[i] with
  | false => cases p new <;> simp
  | true =>
    have := countP_pos_iff.mpr ⟨_, getElem_mem hi, hold⟩
    cases p new <;> simp <;> omega

theorem move_spec {next : Phase × Int × Int} (h : old.Tested o)
    (hactive : 0 < o.maxConcurrent → active ≤ o.maxConcurrent) (hqueued : queued ≤ max 0 o.maxQueued)
    (hmove : move o canceled active queued old = next) :
    next.2.1 = active - old.holds.toInt + next.1.holds.toInt ∧ next.2.2 = queued - old.waits.toInt + next.1.waits.toInt ∧
      (0 < o.maxConcurrent → next.2.1 ≤ o.maxConcurrent) ∧ next.2.2 ≤ max 0 o.maxQueued ∧ next.1.Tested o := by
  subst hmove
  cases old with
  | start | waiting => cases canceled <;> simp [move] <;> omega
  | acquire polled | swap polled current =>
    simp only [move]
    split <;> cases polled <;> simp at h ⊢ <;> omega
  | queue | swapQueued current =>
    simp only [move]
    split <;> simp at h ⊢ <;> omega
  | leave admitted => cases admitted <;> simp [move] <;> omega
  | admitted | released | done =>
    simp [move]
    omega

theorem Inv.step {s : State} (h : Inv o s) (event : Event) : Inv o (s.step o event) := by
  cases event with
  | call =>
    refine ⟨⟨?_, h.concurrent, ?_, h.queue⟩, forall_mem_append.mpr ⟨h.tested, by simp⟩⟩
    · simpa [State.step] using h.active
    · simpa [State.step] using h.queued
  | move caller canceled =>
    rw [State.step]
    cases hcaller : s.callers[caller]? with
    | none => exact h
    | some old =>
      dsimp only
      have htested := h.tested old (mem_of_getElem? hcaller)
      obtain ⟨ha, hq, hconcurrent, hqueue, hnew⟩ := move_spec htested h.concurrent h.queue rfl
      refine ⟨⟨?_, hconcurrent, ?_, hqueue⟩, fun phase hmem => ?_⟩
      · rw [countP_set_int _ _ hcaller, ha, h.active]
      · rw [countP_set_int _ _ hcaller, hq, h.queued]
      · rcases mem_or_eq_of_mem_set hmem with hmem | rfl
        · exact h.tested phase hmem
        · exact hnew
  | release caller =>
    rw [State.step]
    split
    · next hcaller =>
      refine ⟨⟨?_, h.concurrent, ?_, h.queue⟩, fun phase hmem => ?_⟩
      · rw [countP_set_int _ _ hcaller, h.active]
        simp
      · rw [countP_set_int _ _ hcaller, h.queued]
        simp
      · rcases mem_or_eq_of_mem_set hmem with hmem | rfl
        · exact h.tested phase hmem
        · trivial
    · exact h

theorem Inv.limits (h : Inv o s) : Limits o s := by
  refine ⟨h.toCounted, fun hdone => ?_⟩
  have hnone : ∀ p, p .done = false → s.callers.countP p = 0 := fun p hp =>
    countP_eq_zero.mpr fun phase hmem => by simp [hdone phase hmem, hp]
  rw [h.active, h.queued, hnone _ rfl, hnone _ rfl]
  exact ⟨rfl, rfl⟩

end

theorem limits_run (o : Options) (events : List Event) : Limits o (run o events) := by
  have hstart : Inv o ⟨0, 0, []⟩ := ⟨⟨rfl, Int.le_of_lt, rfl, Int.le_max_left ..⟩, by simp⟩
  exact (List.foldlRecOn events (State.step o) (motive := Inv o) hstart fun s h event _ => h.step event).limits

end Mts.Queryservice
