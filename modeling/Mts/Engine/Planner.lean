import Mts.Sstable.Part
import Mts.Lib.Exec

/-! The compaction planner, `engine/compaction_planner.go`. Scores are `float64` in the source; the
planner is generic in the arithmetic they are computed with. -/

namespace Mts.Engine
open Lib Model Sstable

variable {parts : List PartMeta} {tombstones : List Tombstone}

/-- The operations on scores and the rounding of output estimates. -/
class ScoreArith (F : Type) where
  ofInt : Int → F
  add : F → F → F
  mul : F → F → F
  div : F → F → F
  gt : F → F → Bool
  eq : F → F → Bool
  /-- `int64(math.Ceil(float64(n) * compactionOutputEstimateKeepRatio))`. -/
  keepEstimate : Int64 → Int64

/-- Exact scores, for evaluation. -/
instance : ScoreArith ℚ where
  ofInt n := n
  add a b := a + b
  mul a b := a * b
  div a b := a / b
  gt a b := a > b
  eq a b := a = b
  keepEstimate n := Int64.ofInt ((n.toInt : ℚ) * (4 / 5)).ceil

structure CompactionLevelOptions where
  level : Int
  partLimit : Int
  sizeLimit : Int64
  maxOutputPartBytes : Int64
  deriving DecidableEq, Repr

structure CompactionOptions where
  enabled : Bool
  levels : List CompactionLevelOptions
  maxOutputPartBytes : Int64
  readAmplificationPartLimit : Int
  backlogDegradedThreshold : Int
  maxCascadeSteps : Nat
  diskSpaceReserveBytes : Int64
  minFreeBytes : Int64
  deriving DecidableEq, Repr

variable {opts : CompactionOptions}

inductive CompactionReason
  | tombstone | partLimit | sizeLimit | overlap | readAmplification | full
  deriving DecidableEq, Repr

def defaultLevelPartLimit : Int := 4
def compactionReadAmplificationBoost : Int := 1000
def compactionOverlapBoost : Int := 100

structure CompactionPlan (F : Type) where
  level : Int
  outputLevel : Int
  candidates : List PartMeta
  maxOutputPartBytes : Int64
  reason : CompactionReason
  score : F
  inputBytes : Int64
  outputEstimateBytes : Int64
  /-- The level and the sorted part IDs that `candidateSignature` spells out. -/
  candidateSignature : Int × List GoString
  deriving DecidableEq

structure CompactionLevelBacklog (F : Type) where
  level : Int
  candidateCount : Nat
  overlapCount : Nat
  inputBytes : Int64
  outputEstimateBytes : Int64
  score : F
  reason : CompactionReason

structure CompactionBacklogSnapshot (F : Type) where
  levels : List (CompactionLevelBacklog F)
  pendingPlans : Nat
  overlapCount : Nat
  maxScore : F
  inputBytes : Int64
  outputEstimateBytes : Int64
  degraded : Bool
  best : Option (CompactionPlan F)

def partHasHealthRange (p : PartMeta) : Bool := p.rowsCount > 0 || p.seriesCount > 0 || p.blockCount > 0

def partsOverlap (left right : PartMeta) : Bool :=
  partHasHealthRange left && partHasHealthRange right &&
    (left.maxSeriesID ≥ right.minSeriesID && right.maxSeriesID ≥ left.minSeriesID) &&
    (left.maxTime ≥ right.minTime && right.maxTime ≥ left.minTime)

def overlapsWithNext : List PartMeta → Nat
  | left :: right :: rest => (if partsOverlap left right then 1 else 0) + overlapsWithNext (right :: rest)
  | _ => 0

def levelOverlapCount (parts : List PartMeta) : Nat :=
  overlapsWithNext <| parts.insertionSort fun a b =>
    a.minSeriesID < b.minSeriesID ∨ a.minSeriesID = b.minSeriesID ∧ a.minTime ≤ b.minTime

def maxCompactionLevel (parts : List PartMeta) (levels : List CompactionLevelOptions) : Int :=
  levels.foldl (fun m l => max m l.level) (parts.foldl (fun m p => max m p.level) 0)

def partsAtLevel (parts : List PartMeta) (level : Int) : List PartMeta :=
  (parts.filter fun p => p.level = level).insertionSort fun a b =>
    a.minTime < b.minTime ∨ a.minTime = b.minTime ∧ a.id ≤ b.id

def compactionLevelOptions (opts : CompactionOptions) (level : Int) : CompactionLevelOptions :=
  (opts.levels.find? fun l => l.level = level).getD
    ⟨level, defaultLevelPartLimit, 0, opts.maxOutputPartBytes⟩

/-- `directorySize` is the size of a part directory as the file system reports it. -/
def compactionPartsSize {ε : Type} (directorySize : GoString → Except ε Int64)
    (parts : List PartMeta) : Except ε Int64 :=
  parts.foldlM (fun total p =>
    if p.path = [] then pure (total + Int64.ofNat p.blockCount)
    else do return total + (← directorySize p.path)) 0

def compactionCandidateSignature (level : Int) (parts : List PartMeta) : Int × List GoString :=
  (level, (parts.map PartMeta.id).insertionSort (· ≤ ·))

section
variable {F ε : Type} [ScoreArith F]
open ScoreArith

variable {directorySize : GoString → Except ε Int64} {plan : CompactionPlan F}

/-- `scoreFromRatio` and `scoreFromRatioInt64`. -/
def scoreFromRatio (value limit : Int) : F :=
  if limit ≤ 0 then ofInt value else div (ofInt value) (ofInt limit)

variable (F) in
def estimateCompactionOutputBytes (inputBytes : Int64) (tombstones : List Tombstone) : Int64 :=
  if inputBytes ≤ 0 then 0
  else if tombstones.isEmpty then inputBytes
  else if keepEstimate F inputBytes ≤ 0 then inputBytes
  else keepEstimate F inputBytes

structure CompactionTriggerDecision (F : Type) where
  reason : CompactionReason
  score : F
  overlapCount : Nat

/-- `none` stands for a decision that is not triggered. -/
def compactionTrigger (directorySize : GoString → Except ε Int64) (parts : List PartMeta)
    (tombstones : List Tombstone) (opts : CompactionLevelOptions) (global : CompactionOptions) :
    Except ε (Option (CompactionTriggerDecision F)) :=
  let overlapCount := levelOverlapCount parts
  let count : Int := parts.length
  if !tombstones.isEmpty && !parts.isEmpty then
    pure (some ⟨.tombstone, scoreFromRatio (tombstones.length + count) 1, overlapCount⟩)
  else if global.readAmplificationPartLimit > 0 ∧ count > global.readAmplificationPartLimit then
    pure (some ⟨.readAmplification,
      add (add (ofInt compactionReadAmplificationBoost)
          (scoreFromRatio count global.readAmplificationPartLimit))
        (mul (ofInt overlapCount) (ofInt compactionOverlapBoost)), overlapCount⟩)
  else if count > opts.partLimit then
    pure (some ⟨.partLimit, scoreFromRatio count opts.partLimit, overlapCount⟩)
  else if overlapCount > 0 then
    pure (some ⟨.overlap, add (ofInt compactionOverlapBoost) (ofInt overlapCount), overlapCount⟩)
  else if opts.sizeLimit ≤ 0 then pure none
  else do
    let size ← compactionPartsSize directorySize parts
    if size ≤ opts.sizeLimit then pure none
    else pure (some ⟨.sizeLimit, scoreFromRatio size.toInt opts.sizeLimit.toInt, overlapCount⟩)

def levelPlan (tombstones : List Tombstone) (opts : CompactionOptions) (level : Int)
    (candidates : List PartMeta) (trigger : CompactionTriggerDecision F) (inputBytes : Int64) :
    CompactionPlan F where
  level := level
  outputLevel := level + 1
  candidates := candidates
  maxOutputPartBytes := (compactionLevelOptions opts (level + 1)).maxOutputPartBytes
  reason := trigger.reason
  score := trigger.score
  inputBytes := inputBytes
  outputEstimateBytes := estimateCompactionOutputBytes F inputBytes tombstones
  candidateSignature := compactionCandidateSignature level candidates

def betterPlan (best : Option (CompactionPlan F)) (plan : CompactionPlan F) : CompactionPlan F :=
  match best with
  | none => plan
  | some b =>
    if gt plan.score b.score || (eq plan.score b.score && plan.level < b.level) then plan else b

def backlogLevel (directorySize : GoString → Except ε Int64) (parts : List PartMeta)
    (tombstones : List Tombstone) (opts : CompactionOptions)
    (snapshot : CompactionBacklogSnapshot F) (level : Nat) :
    Except ε (CompactionBacklogSnapshot F) :=
  let candidates := partsAtLevel parts level
  if candidates.isEmpty then pure snapshot
  else do
    match ← compactionTrigger directorySize candidates tombstones
      (compactionLevelOptions opts level) opts with
    | none => pure snapshot
    | some trigger =>
      let inputBytes ← compactionPartsSize directorySize candidates
      let plan := levelPlan tombstones opts level candidates trigger inputBytes
      pure { snapshot with
        levels := snapshot.levels ++ [⟨level, candidates.length, trigger.overlapCount, inputBytes,
          plan.outputEstimateBytes, trigger.score, trigger.reason⟩]
        pendingPlans := snapshot.pendingPlans + 1
        overlapCount := snapshot.overlapCount + trigger.overlapCount
        inputBytes := snapshot.inputBytes + inputBytes
        outputEstimateBytes := snapshot.outputEstimateBytes + plan.outputEstimateBytes
        maxScore := if gt trigger.score snapshot.maxScore then trigger.score else snapshot.maxScore
        best := some (betterPlan snapshot.best plan) }

def compactionBacklogDegraded (snapshot : CompactionBacklogSnapshot F) (opts : CompactionOptions) : Bool :=
  snapshot.overlapCount > 0 ||
    (opts.backlogDegradedThreshold > 0 && snapshot.pendingPlans ≥ opts.backlogDegradedThreshold)

def buildCompactionBacklog (directorySize : GoString → Except ε Int64) (parts : List PartMeta)
    (tombstones : List Tombstone) (opts : CompactionOptions) :
    Except ε (CompactionBacklogSnapshot F) := do
  let levels := List.range ((maxCompactionLevel parts opts.levels).toNat + 1)
  let snapshot ← levels.foldlM (backlogLevel directorySize parts tombstones opts)
    ⟨[], 0, 0, ofInt 0, 0, 0, false, none⟩
  return { snapshot with degraded := compactionBacklogDegraded snapshot opts }

def nextCompactionPlan (directorySize : GoString → Except ε Int64) (parts : List PartMeta)
    (tombstones : List Tombstone) (opts : CompactionOptions) :
    Except ε (Option (CompactionPlan F)) := do
  return (← buildCompactionBacklog directorySize parts tombstones opts).best

def partMetaBytes (parts : List PartMeta) : Int64 := parts.foldl (fun total p => total + Int64.ofNat p.blockCount) 0

def fullCompactionPlan (parts : List PartMeta) (tombstones : List Tombstone)
    (opts : CompactionOptions) : Option (CompactionPlan F) :=
  if parts.isEmpty || (parts.length = 1 && tombstones.isEmpty) then none
  else
    let outputLevel := maxCompactionLevel parts [] + 1
    some
      { level := -1
        outputLevel := outputLevel
        candidates := parts
        maxOutputPartBytes := (compactionLevelOptions opts outputLevel).maxOutputPartBytes
        reason := .full
        score := ofInt parts.length
        inputBytes := partMetaBytes parts
        outputEstimateBytes := estimateCompactionOutputBytes F (partMetaBytes parts) tombstones
        candidateSignature := compactionCandidateSignature (-1) parts }

def PlansLevel (parts : List PartMeta) (plan : CompactionPlan F) : Prop :=
  plan.candidates = partsAtLevel parts plan.level ∧ plan.candidates ≠ []

omit [ScoreArith F] in
theorem PlansLevel.ite (ha : PlansLevel parts a) (hb : PlansLevel parts b) (c : Bool) :
    PlansLevel parts (if c then a else b) := by
  cases c
  · exact hb
  · exact ha

theorem backlogLevel_best {snapshot snapshot' : CompactionBacklogSnapshot F}
    (hbest : ∀ plan ∈ snapshot.best, PlansLevel parts plan)
    (h : backlogLevel directorySize parts tombstones opts snapshot level = .ok snapshot') :
    ∀ plan ∈ snapshot'.best, PlansLevel parts plan := by
  unfold backlogLevel at h
  dsimp only at h
  split at h
  · cases h
    exact hbest
  · next hempty =>
    have hne : partsAtLevel parts level ≠ [] := by simpa using hempty
    obtain ⟨trigger, -, h⟩ := except_bind_ok h
    cases trigger with
    | none =>
      cases h
      exact hbest
    | some trigger =>
      obtain ⟨inputBytes, -, h⟩ := except_bind_ok h
      cases h
      intro plan hplan
      cases hplan
      have hnew : PlansLevel parts (levelPlan tombstones opts level (partsAtLevel parts level) trigger
          inputBytes) := ⟨rfl, hne⟩
      unfold betterPlan
      split
      · exact hnew
      · next b hb => exact hnew.ite (hbest b hb) _

theorem nextCompactionPlan_plansLevel
    (h : nextCompactionPlan directorySize parts tombstones opts = .ok (some plan)) : PlansLevel parts plan := by
  obtain ⟨backlog, hbacklog, h⟩ := except_bind_ok h
  obtain ⟨snapshot, hsnapshot, hbacklog⟩ := except_bind_ok hbacklog
  cases hbacklog
  have hbest := foldlM_ok_invariant (fun s => ∀ plan ∈ s.best, PlansLevel parts plan)
    (fun _ _ _ => backlogLevel_best) (by simp) hsnapshot
  exact hbest plan (Except.ok.inj h)

omit [ScoreArith F] in
theorem mem_partsAtLevel : p ∈ partsAtLevel parts level ↔ p ∈ parts ∧ p.level = level := by
  simp [partsAtLevel]

theorem fullCompactionPlan_candidates (h : fullCompactionPlan parts tombstones opts = some plan) :
    plan.candidates = parts ∧ parts ≠ [] := by
  unfold fullCompactionPlan at h
  split at h
  · simp at h
  · next hne =>
    cases h
    refine ⟨rfl, ?_⟩
    rintro rfl
    simp at hne

end
end Mts.Engine
