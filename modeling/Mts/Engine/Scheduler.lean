import Mts.Engine.Compaction
import Mts.Lib.Decimal
import Mts.Lib.GoMap
import Mts.Lib.Trace

/-! The compaction scheduler that all shards of an engine share, `engine/compaction_scheduler.go`, under the
cascades of `runCompactionCascadeLocked`. A shard holds its lifecycle lock for a whole cascade; the steps of
different shards are interleaved. -/

namespace Mts.Engine
open Lib Model Sstable

inductive SkipReason
  | duplicateCandidate | memoryBusy | concurrencyLimit
  deriving DecidableEq

structure SchedulerStats where
  totalSkips : Nat
  duplicateSkips : Nat
  memorySkips : Nat
  concurrencySkips : Nat
  lastSkipReason : Option SkipReason
  inFlightCompacts : Nat

structure CompactionScheduler where
  maxConcurrent : Int
  inFlight : GoMap GoString Unit
  stats : SchedulerStats

def defaultMaxConcurrentCompaction : Int := 1

def newCompactionScheduler (maxConcurrent : Int) : CompactionScheduler :=
  ⟨if maxConcurrent ≤ 0 then defaultMaxConcurrentCompaction else maxConcurrent, ∅, ⟨0, 0, 0, 0, none, 0⟩⟩

namespace CompactionScheduler

def recordSkip (s : CompactionScheduler) (reason : SkipReason) : CompactionScheduler :=
  { s with stats :=
    { s.stats with
      totalSkips := s.stats.totalSkips + 1
      lastSkipReason := some reason
      duplicateSkips := s.stats.duplicateSkips + if reason = .duplicateCandidate then 1 else 0
      memorySkips := s.stats.memorySkips + if reason = .memoryBusy then 1 else 0
      concurrencySkips := s.stats.concurrencySkips + if reason = .concurrencyLimit then 1 else 0 } }

/-- Whether a plan may run, with the scheduler after the call. -/
def start (s : CompactionScheduler) (signature : GoString) : Bool × CompactionScheduler :=
  if signature = [] then (true, s)
  else if (s.inFlight.get? signature).isSome then (false, s.recordSkip .duplicateCandidate)
  else if 0 < s.maxConcurrent ∧ s.maxConcurrent ≤ s.inFlight.size then (false, s.recordSkip .concurrencyLimit)
  else
    let inFlight := s.inFlight.set signature ()
    (true, { s with inFlight := inFlight, stats := { s.stats with inFlightCompacts := inFlight.size } })

def finish (s : CompactionScheduler) (signature : GoString) : CompactionScheduler :=
  if signature = [] then s
  else
    let inFlight := s.inFlight.delete signature
    { s with inFlight := inFlight, stats := { s.stats with inFlightCompacts := inFlight.size } }

end CompactionScheduler

/-- The text of a signature: `level:`, the level, and the part IDs after a bar each. -/
def signatureText (signature : Int × List GoString) : GoString :=
  [108, 101, 118, 101, 108, 58] ++ sprintInt (Int64.ofInt signature.1) ++ signature.2.flatMap (124 :: ·)

/-- Where the cascade of a shard is; the number counts the steps that are left. -/
inductive CascadePhase (F : Type)
  | idle
  | planning (left : Nat)
  | skipped
  | running (plan : CompactionPlan F) (left : Nat)
  deriving DecidableEq

/-- What the cascade of a shard reads, and the skips in its own statistics. -/
structure CascadingShard (F : Type) where
  parts : List PartMeta
  tombstones : List Tombstone
  phase : CascadePhase F
  skipped : Nat
  lastSkipReason : Option SkipReason

structure CompactingEngine (ι F : Type) where
  scheduler : CompactionScheduler
  shards : ι → CascadingShard F

def CompactingEngine.opened {ι F : Type} (maxConcurrent : Int) (shards : ι → List PartMeta × List Tombstone) :
    CompactingEngine ι F :=
  ⟨newCompactionScheduler maxConcurrent, fun id => ⟨(shards id).1, (shards id).2, .idle, 0, none⟩⟩

/-- `change` is any other operation on a shard, `complete` the end of `compactPartsLocked`, and `busy` a round of the
background compaction that the memory budget keeps out. -/
inductive CascadeEvent (ι ε : Type)
  | change (id : ι) (parts : List PartMeta) (tombstones : List Tombstone)
  | cascade (id : ι)
  | plan (id : ι) (directorySize : GoString → Except ε Int64)
  | recordSkip (id : ι)
  | complete (id : ι) (parts : List PartMeta) (tombstones : List Tombstone) (failed : Bool)
  | busy

section Model
variable {ι F ε : Type} [DecidableEq ι] [ScoreArith F] (opts : CompactionOptions)

def CompactingEngine.setShard (e : CompactingEngine ι F) (id : ι) (shard : CascadingShard F) : CompactingEngine ι F :=
  { e with shards := Function.update e.shards id shard }

def CascadingShard.attempt (shard : CascadingShard F) (directorySize : GoString → Except ε Int64) :
    Option (CompactionPlan F × Nat) :=
  match shard.phase with
  | .planning (left + 1) =>
    match nextCompactionPlan directorySize shard.parts shard.tombstones opts with
    | .ok (some plan) => some (plan, left)
    | _ => none
  | _ => none

def CompactingEngine.step (e : CompactingEngine ι F) : CascadeEvent ι ε → CompactingEngine ι F
  | .change id parts tombstones =>
    match (e.shards id).phase with
    | .idle => e.setShard id { e.shards id with parts := parts, tombstones := tombstones }
    | _ => e
  | .cascade id =>
    match (e.shards id).phase with
    | .idle => e.setShard id { e.shards id with phase := .planning opts.maxCascadeSteps }
    | _ => e
  | .plan id directorySize =>
    match (e.shards id).phase with
    | .planning _ =>
      match (e.shards id).attempt opts directorySize with
      | none => e.setShard id { e.shards id with phase := .idle }
      | some (plan, left) =>
        let result := e.scheduler.start (signatureText plan.candidateSignature)
        { e with scheduler := result.2 }.setShard id
          { e.shards id with phase := if result.1 then .running plan left else .skipped }
    | _ => e
  | .recordSkip id =>
    -- the reason is read again from the scheduler, after other shards may have been skipped
    match (e.shards id).phase with
    | .skipped =>
      e.setShard id { e.shards id with
        phase := .idle
        skipped := (e.shards id).skipped + 1
        lastSkipReason := some (e.scheduler.stats.lastSkipReason.getD .duplicateCandidate) }
    | _ => e
  | .complete id parts tombstones failed =>
    match (e.shards id).phase with
    | .running plan left =>
      { e with scheduler := e.scheduler.finish (signatureText plan.candidateSignature) }.setShard id
        { e.shards id with
          parts := parts
          tombstones := tombstones
          phase := if failed then .idle else .planning left }
    | _ => e
  | .busy => { e with scheduler := e.scheduler.recordSkip .memoryBusy }

/-- What is expected of an event: a shard is skipped as a duplicate, by the scheduler or in its own statistics, only
while it runs the same plan itself, and the end of a plan leaves the marks of the others. -/
def Independent (e : CompactingEngine ι F) : CascadeEvent ι ε → Prop
  | .plan id directorySize => ∀ plan left, (e.shards id).attempt opts directorySize = some (plan, left) →
    (e.scheduler.start (signatureText plan.candidateSignature)).1 = false →
    (e.scheduler.start (signatureText plan.candidateSignature)).2.stats.lastSkipReason = some .duplicateCandidate →
    ∃ left, (e.shards id).phase = .running plan left
  | .recordSkip id => (e.shards id).phase = .skipped →
    ((e.step opts (.recordSkip id : CascadeEvent ι ε)).shards id).lastSkipReason ≠ some .duplicateCandidate
  | .complete id parts tombstones failed => ∀ other plan left, other ≠ id →
    (e.shards other).phase = .running plan left →
    ((e.step opts (.complete id parts tombstones failed : CascadeEvent ι ε)).scheduler.inFlight.get?
      (signatureText plan.candidateSignature)).isSome
  | _ => True

/-- No other shard runs a plan with the signature of the one that is tried. -/
def Apart (e : CompactingEngine ι F) : CascadeEvent ι ε → Prop
  | .plan id directorySize => ∀ plan left, (e.shards id).attempt opts directorySize = some (plan, left) →
    ∀ other plan' left', other ≠ id → (e.shards other).phase = .running plan' left' →
      signatureText plan'.candidateSignature ≠ signatureText plan.candidateSignature
  | _ => True

end Model

section Scheduler
variable {s : CompactionScheduler} {signature : GoString}

theorem signatureText_ne_nil (signature : Int × List GoString) : signatureText signature ≠ [] := by
  simp [signatureText]

theorem start_cases (h : signature ≠ []) :
    (s.inFlight.get? signature).isSome ∧ s.start signature = (false, s.recordSkip .duplicateCandidate) ∨
    s.inFlight.get? signature = none ∧ s.start signature = (false, s.recordSkip .concurrencyLimit) ∨
    s.inFlight.get? signature = none ∧ (s.start signature).1 = true ∧
      (s.start signature).2.inFlight = s.inFlight.set signature () ∧
      (s.start signature).2.stats.lastSkipReason = s.stats.lastSkipReason := by
  rw [CompactionScheduler.start, if_neg h]
  cases hget : s.inFlight.get? signature with
  | some _ => exact .inl ⟨rfl, rfl⟩
  | none =>
    rw [if_neg (by simp)]
    split
    · exact .inr (.inl ⟨rfl, rfl⟩)
    · exact .inr (.inr ⟨rfl, rfl, rfl, rfl⟩)

end Scheduler

section Marks
variable {ι F ε : Type} [DecidableEq ι] [ScoreArith F] {opts : CompactionOptions} {e : CompactingEngine ι F}
  {plan : CompactionPlan F}

def CascadePhase.mark : CascadePhase F → Option GoString
  | .running plan _ => some (signatureText plan.candidateSignature)
  | _ => none

def CompactingEngine.mark (e : CompactingEngine ι F) (id : ι) : Option GoString := (e.shards id).phase.mark

structure Marked (e : CompactingEngine ι F) : Prop where
  marks : ∀ {signature}, (e.scheduler.inFlight.get? signature).isSome ↔ ∃ id, e.mark id = some signature
  distinct : ∀ {id id' signature}, e.mark id = some signature → e.mark id' = some signature → id = id'

inductive MarkChange (e e' : CompactingEngine ι F) : Prop
  | none (inFlight : e'.scheduler.inFlight = e.scheduler.inFlight) (mark : ∀ id, e'.mark id = e.mark id)
  | start (id : ι) (signature : GoString) (free : e.scheduler.inFlight.get? signature = Option.none)
    (idle : e.mark id = Option.none) (inFlight : e'.scheduler.inFlight = e.scheduler.inFlight.set signature ())
    (mark : ∀ id', e'.mark id' = if id' = id then some signature else e.mark id')
  | finish (id : ι) (signature : GoString) (running : e.mark id = some signature)
    (inFlight : e'.scheduler.inFlight = e.scheduler.inFlight.delete signature)
    (mark : ∀ id', e'.mark id' = if id' = id then Option.none else e.mark id')

omit [ScoreArith F] in
theorem mark_setShard {id id' : ι} : ({ e with scheduler := scheduler }.setShard id shard).mark id' =
      if id' = id then shard.phase.mark else e.mark id' := by
  rw [CompactingEngine.mark, CompactingEngine.setShard]
  dsimp only
  rw [Function.update_apply]
  split <;> rfl

omit [ScoreArith F] in
theorem markChange_setShard {id : ι}
    (hinFlight : scheduler.inFlight = e.scheduler.inFlight) (hbefore : e.mark id = none)
    (hafter : shard.phase.mark = none) : MarkChange e ({ e with scheduler := scheduler }.setShard id shard) := by
  refine .none hinFlight fun id' => ?_
  rw [mark_setShard]
  split
  · next hid => rw [hid, hbefore, hafter]
  · rfl

theorem markChange_step (ev : CascadeEvent ι ε) : MarkChange e (e.step opts ev) := by
  have hsame : MarkChange e e := .none rfl fun _ => rfl
  cases ev with
  | change id parts tombstones =>
    rw [CompactingEngine.step]
    split
    · next hphase => exact markChange_setShard rfl (congrArg _ hphase) (congrArg _ hphase)
    · exact hsame
  | cascade id =>
    rw [CompactingEngine.step]
    split
    · next hphase => exact markChange_setShard rfl (congrArg _ hphase) rfl
    · exact hsame
  | plan id directorySize =>
    rw [CompactingEngine.step]
    split
    · next hphase =>
      have hidle : e.mark id = none := congrArg _ hphase
      split
      · exact markChange_setShard rfl hidle rfl
      · next plan left _ =>
        rcases start_cases (signatureText_ne_nil plan.candidateSignature) with
          ⟨-, hstart⟩ | ⟨-, hstart⟩ | ⟨hfree, hstarted, hinFlight, -⟩
        · rw [hstart]
          exact markChange_setShard rfl hidle rfl
        · rw [hstart]
          exact markChange_setShard rfl hidle rfl
        · refine .start id _ hfree hidle hinFlight fun id' => ?_
          rw [mark_setShard, hstarted]
          rfl
    · exact hsame
  | recordSkip id =>
    rw [CompactingEngine.step]
    split
    · next hphase => exact markChange_setShard rfl (congrArg _ hphase) rfl
    · exact hsame
  | complete id parts tombstones failed =>
    rw [CompactingEngine.step]
    split
    · next plan left hphase =>
      refine .finish id (signatureText plan.candidateSignature) (congrArg _ hphase) ?_ fun id' => ?_
      · rw [CompactingEngine.setShard, CompactionScheduler.finish, if_neg (signatureText_ne_nil _)]
      · rw [mark_setShard]
        cases failed <;> rfl
    · exact hsame
  | busy => exact .none rfl fun _ => rfl

omit [ScoreArith F] in
theorem Marked.of_change (h : Marked e) (hchange : MarkChange e e') : Marked e' := by
  cases hchange with
  | none hinFlight hmark =>
    refine ⟨fun {signature} => ?_, fun {id id' signature} hid hid' => ?_⟩
    · simp [hinFlight, hmark, h.marks]
    · rw [hmark] at hid hid'
      exact h.distinct hid hid'
  | start id signature hfree hidle hinFlight hmark =>
    have hnot : ∀ other, e.mark other ≠ some signature := by
      intro other hother
      have hsome := h.marks.mpr ⟨other, hother⟩
      rw [hfree] at hsome
      cases hsome
    refine ⟨fun {signature'} => ?_, fun {a b signature'} ha hb => ?_⟩
    · rw [hinFlight, GoMap.get?_set]
      constructor
      · intro hsome
        split at hsome
        · next heq => exact ⟨id, by rw [hmark, if_pos rfl, heq]⟩
        · obtain ⟨other, hother⟩ := h.marks.mp hsome
          refine ⟨other, ?_⟩
          rw [hmark, if_neg, hother]
          rintro rfl
          rw [hidle] at hother
          cases hother
      · rintro ⟨other, hother⟩
        split
        · rfl
        · next hne =>
          rw [hmark] at hother
          split at hother
          · exact absurd (Option.some.inj hother).symm hne
          · exact h.marks.mpr ⟨other, hother⟩
    · rw [hmark] at ha hb
      split at ha <;> split at hb
      · next hida hidb => rw [hida, hidb]
      · exact absurd (hb.trans ha.symm) (hnot b)
      · exact absurd (ha.trans hb.symm) (hnot a)
      · exact h.distinct ha hb
  | finish id signature hrunning hinFlight hmark =>
    refine ⟨fun {signature'} => ?_, fun {a b signature'} ha hb => ?_⟩
    · rw [hinFlight, GoMap.get?_delete]
      constructor
      · intro hsome
        split at hsome
        · cases hsome
        · next hne =>
          obtain ⟨other, hother⟩ := h.marks.mp hsome
          refine ⟨other, ?_⟩
          rw [hmark, if_neg, hother]
          rintro rfl
          exact hne (Option.some.inj (hother.symm.trans hrunning))
      · rintro ⟨other, hother⟩
        rw [hmark] at hother
        split at hother
        · cases hother
        · next hne =>
          rw [if_neg]
          · exact h.marks.mpr ⟨other, hother⟩
          · rintro rfl
            exact hne (h.distinct hother hrunning)
    · rw [hmark] at ha hb
      split at ha
      · cases ha
      · split at hb
        · cases hb
        · exact h.distinct ha hb

omit [DecidableEq ι] [ScoreArith F] in
theorem marked_opened (maxConcurrent : Int) (shards : ι → List PartMeta × List Tombstone) :
    Marked (CompactingEngine.opened maxConcurrent shards : CompactingEngine ι F) := by
  refine ⟨fun {signature} => ?_, fun {id id' signature} hid => ?_⟩
  · simp [CompactingEngine.opened, newCompactionScheduler, CompactingEngine.mark, CascadePhase.mark]
  · cases hid

theorem phase_of_attempt {shard : CascadingShard F}
    (h : shard.attempt opts directorySize = some (plan, left)) : shard.phase = .planning (left + 1) := by
  rw [CascadingShard.attempt] at h
  split at h
  · next hphase =>
    split at h
    · cases h
      exact hphase
    · cases h
  · cases h

omit [DecidableEq ι] in
theorem Marked.free {id : ι} (h : Marked e) (hapart : Apart opts e (.plan id directorySize))
    (hattempt : (e.shards id).attempt opts directorySize = some (plan, left)) :
    e.scheduler.inFlight.get? (signatureText plan.candidateSignature) = none := by
  rw [← Option.not_isSome_iff_eq_none, h.marks]
  rintro ⟨other, hother⟩
  have hphase := phase_of_attempt hattempt
  rw [CompactingEngine.mark] at hother
  cases hrunning : (e.shards other).phase with
  | running plan' left' =>
    rw [hrunning] at hother
    refine hapart plan left hattempt other plan' left' ?_ hrunning (Option.some.inj hother)
    rintro rfl
    rw [hrunning] at hphase
    cases hphase
  | idle => rw [hrunning] at hother; cases hother
  | planning _ => rw [hrunning] at hother; cases hother
  | skipped => rw [hrunning] at hother; cases hother

/-- No skip so far was one of a duplicate, and a shard that was skipped has a reason to read. -/
structure NoDuplicate (e : CompactingEngine ι F) : Prop where
  last : e.scheduler.stats.lastSkipReason ≠ some .duplicateCandidate
  reason : ∀ id, (e.shards id).phase = .skipped → e.scheduler.stats.lastSkipReason ≠ none

omit [ScoreArith F] in
theorem NoDuplicate.setShard (h : NoDuplicate e)
    (hlast : scheduler.stats.lastSkipReason = e.scheduler.stats.lastSkipReason ∨
      ∃ reason ≠ SkipReason.duplicateCandidate, scheduler.stats.lastSkipReason = some reason)
    (id : ι) (hshard : shard.phase = .skipped → scheduler.stats.lastSkipReason ≠ none) :
    NoDuplicate ({ e with scheduler := scheduler }.setShard id shard) := by
  refine ⟨?_, fun other hother => ?_⟩
  · rcases hlast with hlast | ⟨reason, hreason, hlast⟩
    · exact hlast ▸ h.last
    · exact fun heq => hreason (Option.some.inj (hlast.symm.trans heq))
  · rw [CompactingEngine.setShard] at hother
    dsimp only at hother
    rw [Function.update_apply] at hother
    split at hother
    · exact hshard hother
    · rcases hlast with hlast | ⟨reason, -, hlast⟩
      · exact hlast ▸ h.reason other hother
      · exact fun hnone => by cases hlast.symm.trans hnone

theorem NoDuplicate.step (h : NoDuplicate e) (hmarked : Marked e)
    (hapart : Apart opts e ev) : NoDuplicate (e.step opts ev) := by
  cases ev with
  | change id parts tombstones =>
    rw [CompactingEngine.step]
    split
    · next hphase => exact h.setShard (.inl rfl) id fun hskipped => by cases hphase.symm.trans hskipped
    · exact h
  | cascade id =>
    rw [CompactingEngine.step]
    split
    · exact h.setShard (.inl rfl) id fun hskipped => by cases hskipped
    · exact h
  | plan id directorySize =>
    rw [CompactingEngine.step]
    split
    · split
      · exact h.setShard (.inl rfl) id fun hskipped => by cases hskipped
      · next plan left hattempt =>
        have hfree := hmarked.free hapart hattempt
        rcases start_cases (signatureText_ne_nil plan.candidateSignature) with
          ⟨hsome, -⟩ | ⟨-, hstart⟩ | ⟨-, hstarted, -, hlast⟩
        · rw [hfree] at hsome
          cases hsome
        · rw [hstart]
          refine h.setShard (.inr ⟨.concurrencyLimit, by decide, rfl⟩) id fun _ hnone => ?_
          cases hnone
        · refine h.setShard (.inl hlast) id fun hskipped => ?_
          rw [hstarted] at hskipped
          cases hskipped
    · exact h
  | recordSkip id =>
    rw [CompactingEngine.step]
    split
    · exact h.setShard (.inl rfl) id fun hskipped => by cases hskipped
    · exact h
  | complete id parts tombstones failed =>
    rw [CompactingEngine.step]
    split
    · next plan left _ =>
      refine h.setShard (.inl ?_) id fun hskipped => ?_
      · rw [CompactionScheduler.finish, if_neg (signatureText_ne_nil _)]
      · cases failed <;> cases hskipped
    · exact h
  | busy => exact ⟨fun hlast => (by cases hlast), fun _ _ hnone => (by cases hnone)⟩

theorem Marked.complete (h : Marked e) {id other : ι} {parts : List PartMeta} (hne : other ≠ id) (hrunning : (e.shards other).phase = .running plan left) :
    ((e.step opts (.complete id parts tombstones failed : CascadeEvent ι ε)).scheduler.inFlight.get?
      (signatureText plan.candidateSignature)).isSome := by
  refine (h.of_change (markChange_step _)).marks.mpr ⟨other, ?_⟩
  rw [CompactingEngine.step]
  have hmark : e.mark other = some (signatureText plan.candidateSignature) := congrArg CascadePhase.mark hrunning
  split
  · rw [mark_setShard, if_neg hne, hmark]
  · exact hmark

variable (opts ε) in
/-- In a run of the cascades the plans of the shards are independent exactly where no shard tries a plan with the
signature that another one is running. -/
theorem independent_iff (maxConcurrent : Int) (shards : ι → List PartMeta × List Tombstone)
    (events : List (CascadeEvent ι ε)) :
    Always (CompactingEngine.step opts) (Independent (F := F) opts) (CompactingEngine.opened maxConcurrent shards) events ↔
      Always (CompactingEngine.step opts) (Apart (F := F) opts) (CompactingEngine.opened maxConcurrent shards) events := by
  have hmarked := marked_opened (F := F) maxConcurrent shards
  constructor
  · intro h
    refine (h.with_invariant hmarked fun e ev he _ => he.of_change (markChange_step ev)).2.imp ?_
    rintro e ev ⟨he, hindependent⟩
    cases ev with
    | plan id directorySize =>
      intro plan left hattempt other plan' left' _ hrunning heq
      have hsome : (e.scheduler.inFlight.get? (signatureText plan.candidateSignature)).isSome :=
        he.marks.mpr ⟨other, heq ▸ congrArg CascadePhase.mark hrunning⟩
      rcases start_cases (signatureText_ne_nil plan.candidateSignature) with
        ⟨-, hstart⟩ | ⟨hnone, -⟩ | ⟨hnone, -⟩
      · obtain ⟨left₁, hphase⟩ := hindependent plan left hattempt (by rw [hstart]) (by rw [hstart]; rfl)
        rw [phase_of_attempt hattempt] at hphase
        cases hphase
      · rw [hnone] at hsome
        cases hsome
      · rw [hnone] at hsome
        cases hsome
    | _ => trivial
  · intro h
    have hstart : NoDuplicate (CompactingEngine.opened (F := F) maxConcurrent shards) :=
      ⟨fun hlast => (by cases hlast), fun _ hphase => (by cases hphase)⟩
    refine (h.with_invariant (I := fun e => Marked e ∧ NoDuplicate e) ⟨hmarked, hstart⟩ ?_).2.imp ?_
    · rintro e ev ⟨he, hnone⟩ hapart
      exact ⟨he.of_change (markChange_step ev), hnone.step he hapart⟩
    · rintro e ev ⟨⟨he, hnone⟩, hapart⟩
      cases ev with
      | plan id directorySize =>
        intro plan left hattempt hskipped hlast
        have hfree := he.free hapart hattempt
        rcases start_cases (signatureText_ne_nil plan.candidateSignature) with
          ⟨hsome, -⟩ | ⟨-, hlimit⟩ | ⟨-, hstarted, -⟩
        · rw [hfree] at hsome
          cases hsome
        · rw [hlimit] at hlast
          cases hlast
        · rw [hstarted] at hskipped
          cases hskipped
      | recordSkip id =>
        intro hphase
        obtain ⟨reason, hreason⟩ := Option.ne_none_iff_exists'.mp (hnone.reason id hphase)
        have hne := hnone.last
        simpa [CompactingEngine.step, hphase, CompactingEngine.setShard, hreason] using hne
      | complete id parts tombstones failed =>
        intro other plan left hne hrunning
        exact he.complete hne hrunning
      | _ => trivial

end Marks

def twinParts (dir : GoString) : List PartMeta :=
  [(Shard.samplePart dir 0 1 1 ⟨5, 1, .int64 10⟩).partMeta, (Shard.samplePart dir 0 2 1 ⟨5, 2, .int64 20⟩).partMeta]

def twinShards (second : Bool) : List PartMeta × List Tombstone := (twinParts (if second then [98] else [97]), [])

def twinEvents : List (CascadeEvent Bool Unit) :=
  [.cascade false, .plan false fun _ => .ok 1, .cascade true, .plan true fun _ => .ok 1]

def twinState : CompactingEngine Bool ℚ :=
  (twinEvents.take 3).foldl (CompactingEngine.step Shard.leveledOptions.compaction) (.opened 2 twinShards)

theorem twinEvents_not_independent :
    ¬ Always (CompactingEngine.step Shard.leveledOptions.compaction)
      (Independent (F := ℚ) Shard.leveledOptions.compaction) (CompactingEngine.opened 2 twinShards) twinEvents := by
  intro h
  have hplan : Independent Shard.leveledOptions.compaction twinState (.plan true fun _ => (.ok 1 : Except Unit Int64)) :=
    h (twinEvents.take 3) _ [] rfl
  have hskipped : ∃ r ∈ (twinState.shards true).attempt Shard.leveledOptions.compaction
        (fun _ => (.ok 1 : Except Unit Int64)),
      (twinState.scheduler.start (signatureText r.1.candidateSignature)).1 = false ∧
        (twinState.scheduler.start (signatureText r.1.candidateSignature)).2.stats.lastSkipReason =
          some .duplicateCandidate := by
    decide +kernel
  obtain ⟨⟨plan, left⟩, hattempt, hfalse, hlast⟩ := hskipped
  obtain ⟨left', hphase⟩ := hplan plan left hattempt hfalse hlast
  cases hphase

end Mts.Engine
