import Mts.Engine.Routing
import Mts.Lib.GroupBy

/-! The routing of a batch, `groupByShardLocked` in `engine/shard_routing.go`. The batch of the first shard is built
in place over the slice that the loop still reads. What a shard directory has as its greatest sequence number when
it is opened is a parameter. -/

namespace Mts.Engine.Routing
open Lib Model List

variable {p : ResolvedPoint} {points : List ResolvedPoint}

structure WriteEngine where
  engine : Engine
  writeSeq : UInt64

variable {e e' : WriteEngine}

def nextWriteSeq (e : WriteEngine) : WriteEngine := { e with writeSeq := e.writeSeq + 1 }

def observeWriteSeq (e : WriteEngine) (maxSeq : UInt64) : WriteEngine :=
  if maxSeq ≤ e.writeSeq then e else { e with writeSeq := maxSeq }

def withSeq (p : ResolvedPoint) (seq : UInt64) : ResolvedPoint := { p with writeSeq := seq }

section Model
variable (accepts : FilePath → Bool) (maxSeq : FilePath → UInt64)

/-- `shardForStartLocked` with the sequence number of a shard that it opens. -/
def openShardForStart (e : WriteEngine) (k : ShardKey) : Option (GoString × WriteEngine) :=
  match shardForStartLocked accepts e.engine k with
  | none => none
  | some (id, engine) =>
    if (e.engine.shards.get? (shardID k)).isSome then some (id, e)
    else some (id, observeWriteSeq { e with engine := engine } (maxSeq (shardDir e.engine.opts.path k)))

def pointKey (opts : EngineOptions) (p : ResolvedPoint) : ShardKey :=
  ⟨p.database, p.retentionPolicy, shardStart p.timestamp opts.shardDuration⟩

abbrev Lookups := GoMap ShardKey GoString

def shardForPointLocked (e : WriteEngine) (shards : Lookups) (p : ResolvedPoint) :
    Option (GoString × WriteEngine × Lookups) :=
  match shards.get? (pointKey e.engine.opts p) with
  | some id => some (id, e, shards)
  | none =>
    match openShardForStart accepts maxSeq e (pointKey e.engine.opts p) with
    | none => none
    | some (id, e') => some (id, e', shards.set (pointKey e.engine.opts p) id)

/-- The points of a batch: the first so many of the slice that is read, or a slice of their own. -/
inductive BatchPoints
  | shared (length : Nat)
  | own (points : List ResolvedPoint)

def BatchPoints.read (memory : List ResolvedPoint) : BatchPoints → List ResolvedPoint
  | shared length => memory.take length
  | own points => points

structure ShardBatch where
  shard : GoString
  points : BatchPoints

/-- The variables of the loop; `points` is the slice it reads and writes. -/
structure Grouping where
  points : List ResolvedPoint
  engine : WriteEngine
  positions : GoMap GoString Nat
  shards : Lookups
  batches : List ShardBatch

def Grouping.append (g : Grouping) (position : Nat) (p : ResolvedPoint) : Grouping :=
  match g.batches[position]? with
  | some ⟨shard, .shared length⟩ =>
    { g with
      points := g.points.set length p
      batches := g.batches.set position ⟨shard, .shared (length + 1)⟩ }
  | some ⟨shard, .own points⟩ => { g with batches := g.batches.set position ⟨shard, .own (points ++ [p])⟩ }
  | none => g

def groupStep (g : Grouping) (index : Nat) : Option Grouping := do
  let p ← g.points[index]?
  let (shard, engine, shards) ← shardForPointLocked accepts maxSeq g.engine g.shards p
  let engine := nextWriteSeq engine
  let p := withSeq p engine.writeSeq
  let g := { g with points := g.points.set index p, engine := engine, shards := shards }
  match g.positions.get? shard with
  | some position => some (g.append position p)
  | none =>
    let position := g.batches.length
    let batch : ShardBatch := ⟨shard, if g.batches.isEmpty then .shared 0 else .own []⟩
    let g := { g with positions := g.positions.set shard position, batches := g.batches ++ [batch] }
    some (g.append position p)

/-- The batches with their shards by ID, and the engine after it. -/
def groupByShardLocked (e : WriteEngine) (points : List ResolvedPoint) :
    Option (List (GoString × List ResolvedPoint) × WriteEngine) := do
  let g ← (List.range points.length).foldlM (groupStep accepts maxSeq) ⟨points, e, ∅, ∅, []⟩
  some (g.batches.map fun b => (b.shard, b.points.read g.points), g.engine)

/-- The same grouping with a slice for every batch; `assigned` are the points with their sequence numbers. -/
structure Copying where
  engine : WriteEngine
  positions : GoMap GoString Nat
  shards : Lookups
  batches : List (GoString × List ResolvedPoint)
  assigned : List ResolvedPoint

def copyStep (c : Copying) (p : ResolvedPoint) : Option Copying := do
  let (shard, engine, shards) ← shardForPointLocked accepts maxSeq c.engine c.shards p
  let engine := nextWriteSeq engine
  let p := withSeq p engine.writeSeq
  let (positions, batches) := place c.positions c.batches shard p
  some ⟨engine, positions, shards, batches, c.assigned ++ [p]⟩

end Model

variable {c c' : Copying}

/-- What is expected of the batches; `assigned` are the points in input order with their new sequence numbers. -/
structure Partitions (e e' : WriteEngine) (points assigned : List ResolvedPoint)
    (batches : List (GoString × List ResolvedPoint)) : Prop where
  content : assigned.map (withSeq · 0) = points.map (withSeq · 0)
  once : (batches.flatMap Prod.snd).Perm assigned
  order : ∀ b ∈ batches, b.2.Sublist assigned
  distinct : (batches.map Prod.fst).Nodup
  shards : ∀ b ∈ batches, ∀ p ∈ b.2, ∃ s, e'.engine.shards.get? b.1 = some s ∧ s.key = pointKey e.engine.opts p
  fresh : ∀ p ∈ assigned, e.writeSeq < p.writeSeq
  increasing : assigned.Pairwise fun p q => p.writeSeq < q.writeSeq

/-- Points with one shard ID have one key, and so has an open shard of this ID. -/
structure KeysApart (e : WriteEngine) (points : List ResolvedPoint) : Prop where
  among : ∀ p ∈ points, ∀ q ∈ points, shardID (pointKey e.engine.opts p) = shardID (pointKey e.engine.opts q) →
    pointKey e.engine.opts p = pointKey e.engine.opts q
  opened : ∀ p ∈ points, ∀ s, e.engine.shards.get? (shardID (pointKey e.engine.opts p)) = some s →
    s.key = pointKey e.engine.opts p

/-- The sequence numbers in the directories that the points open, 0 where a shard is open already. -/
def openedSeqs (maxSeq : FilePath → UInt64) (opts : EngineOptions) (known : GoString → Bool) :
    List ResolvedPoint → List Nat
  | [] => []
  | p :: points =>
    let id := shardID (pointKey opts p)
    (if known id then 0 else (maxSeq (shardDir opts.path (pointKey opts p))).toNat) ::
      openedSeqs maxSeq opts (fun id' => id' = id || known id') points

def seqReached (start : Nat) (opened : List Nat) : Nat := opened.foldl (fun seq m => max seq m + 1) start

def isOpen (e : Engine) (id : GoString) : Bool := (e.shards.get? id).isSome

/-- What the counter would reach over the points without wraparound. -/
def reachedSeq (maxSeq : FilePath → UInt64) (e : WriteEngine) (points : List ResolvedPoint) : Nat :=
  seqReached e.writeSeq.toNat (openedSeqs maxSeq e.engine.opts (isOpen e.engine) points)

section Lookup
variable {accepts : FilePath → Bool} {maxSeq : FilePath → UInt64} {k : ShardKey} {id : GoString}

def LookedUp (shards : Lookups) (e : Engine) : Prop :=
  ∀ {k id}, shards.get? k = some id → id = shardID k ∧ (e.shards.get? id).isSome

structure Served (maxSeq : FilePath → UInt64) (e e' : WriteEngine) (k : ShardKey) : Prop where
  opts : e'.engine.opts = e.engine.opts
  shards : ∀ id, e'.engine.shards.get? id =
    if id = shardID k ∧ e.engine.shards.get? id = none then some ⟨shardDir e.engine.opts.path k, k⟩
    else e.engine.shards.get? id
  seq : e'.writeSeq.toNat = max e.writeSeq.toNat (if (e.engine.shards.get? (shardID k)).isSome then 0
    else (maxSeq (shardDir e.engine.opts.path k)).toNat)

theorem toNat_observeWriteSeq (e : WriteEngine) (seq : UInt64) :
    (observeWriteSeq e seq).writeSeq.toNat = max e.writeSeq.toNat seq.toNat := by
  rw [observeWriteSeq]
  split
  · next h => rw [max_eq_left (UInt64.le_iff_toNat_le.mp h)]
  · next h =>
    rw [UInt64.le_iff_toNat_le, not_le] at h
    exact (max_eq_right h.le).symm

theorem engine_observeWriteSeq (e : WriteEngine) (seq : UInt64) : (observeWriteSeq e seq).engine = e.engine := by
  rw [observeWriteSeq]
  split <;> rfl

theorem Served.of_open (h : (e.engine.shards.get? (shardID k)).isSome) : Served maxSeq e e k where
  opts := rfl
  shards id := by
    rw [if_neg]
    rintro ⟨rfl, hnone⟩
    rw [hnone] at h
    cases h
  seq := by rw [if_pos h, Nat.max_zero]

theorem openShardForStart_served (h : openShardForStart accepts maxSeq e k = some (id, e')) :
    id = shardID k ∧ Served maxSeq e e' k := by
  rw [openShardForStart] at h
  cases hopen : e.engine.shards.get? (shardID k) with
  | some s =>
    have hstart : shardForStartLocked accepts e.engine k = some (shardID k, e.engine) := by
      rw [shardForStartLocked, hopen]
    rw [hstart, hopen] at h
    cases h
    exact ⟨rfl, Served.of_open (by rw [hopen]; rfl)⟩
  | none =>
    rw [hopen, shardForStartLocked, hopen] at h
    by_cases haccepts : accepts (shardDir e.engine.opts.path k)
    · simp only [haccepts, if_true, Option.isSome_none, Bool.false_eq_true, if_false, Option.some.injEq,
        Prod.mk.injEq] at h
      obtain ⟨rfl, rfl⟩ := h
      refine ⟨rfl, ?_, fun id => ?_, ?_⟩
      · rw [engine_observeWriteSeq]
      · rw [engine_observeWriteSeq, GoMap.get?_set]
        by_cases hid : id = shardID k
        · rw [if_pos hid, if_pos ⟨hid, by rw [hid, hopen]⟩]
        · rw [if_neg hid, if_neg fun h => hid h.1]
      · rw [toNat_observeWriteSeq, hopen]
        rfl
    · simp [haccepts] at h

theorem Served.isSome (h : Served maxSeq e e' k) (id : GoString) :
    (e'.engine.shards.get? id).isSome = (id = shardID k || (e.engine.shards.get? id).isSome) := by
  rw [h.shards]
  by_cases hid : id = shardID k
  · cases hopen : e.engine.shards.get? id <;> simp [hid]
  · simp [hid]

theorem shardForPointLocked_served (h : shardForPointLocked accepts maxSeq e shards p = some (id, e', shards'))
    (hlooked : LookedUp shards e.engine) :
    id = shardID (pointKey e.engine.opts p) ∧ Served maxSeq e e' (pointKey e.engine.opts p) ∧
      LookedUp shards' e'.engine := by
  rw [shardForPointLocked] at h
  split at h
  · next id' hget =>
    cases h
    obtain ⟨rfl, hsome⟩ := hlooked hget
    exact ⟨rfl, Served.of_open hsome, hlooked⟩
  · split at h
    · cases h
    · next id' e'' hopen =>
      cases h
      obtain ⟨rfl, hserved⟩ := openShardForStart_served hopen
      refine ⟨rfl, hserved, fun {k id} hget => ?_⟩
      rw [GoMap.get?_set] at hget
      split at hget
      · next hk =>
        cases hget
        subst hk
        exact ⟨rfl, by simp [hserved.isSome]⟩
      · obtain ⟨hid, hsome⟩ := hlooked hget
        exact ⟨hid, by simp [hserved.isSome, hsome]⟩

end Lookup

section Copying
variable {accepts : FilePath → Bool} {maxSeq : FilePath → UInt64} {c c' : Copying} {p : ResolvedPoint}

def pointID (opts : EngineOptions) (p : ResolvedPoint) : GoString := shardID (pointKey opts p)

/-- One iteration: the shard is looked up, and the point is placed with the next sequence number. -/
structure Copied (maxSeq : FilePath → UInt64) (c c' : Copying) (p : ResolvedPoint) : Prop where
  looked : LookedUp c'.shards c'.engine.engine
  served : ∃ e, Served maxSeq c.engine e (pointKey c.engine.engine.opts p) ∧ c'.engine = nextWriteSeq e
  assigned : c'.assigned = c.assigned ++ [withSeq p c'.engine.writeSeq]
  placed : (c'.positions, c'.batches) =
    place c.positions c.batches (pointID c.engine.engine.opts p) (withSeq p c'.engine.writeSeq)

theorem copyStep_copied (h : copyStep accepts maxSeq c p = some c') (hlooked : LookedUp c.shards c.engine.engine) :
    Copied maxSeq c c' p := by
  simp only [copyStep, Option.bind_eq_bind, Option.bind_eq_some_iff, Option.some.injEq] at h
  obtain ⟨⟨id, e, shards⟩, hshard, rfl⟩ := h
  obtain ⟨rfl, hserved, hlooked'⟩ := shardForPointLocked_served hshard hlooked
  exact ⟨hlooked', ⟨e, hserved, rfl⟩, rfl, rfl⟩

structure Reached (e : WriteEngine) (read : List ResolvedPoint) (c : Copying) : Prop where
  groups : Groups (pointID e.engine.opts) c.positions c.batches c.assigned
  looked : LookedUp c.shards c.engine.engine
  opts : c.engine.engine.opts = e.engine.opts
  content : c.assigned.map (withSeq · 0) = read.map (withSeq · 0)
  kept : ∀ {id s}, e.engine.shards.get? id = some s → c.engine.engine.shards.get? id = some s
  opened : ∀ {id s}, c.engine.engine.shards.get? id = some s →
    e.engine.shards.get? id = some s ∨ ∃ p ∈ read, id = pointID e.engine.opts p ∧ s.key = pointKey e.engine.opts p
  found : ∀ {p}, p ∈ read → (c.engine.engine.shards.get? (pointID e.engine.opts p)).isSome

theorem Reached.start (e : WriteEngine) : Reached e [] ⟨e, ∅, ∅, [], []⟩ where
  groups := Groups.empty
  looked := by simp [LookedUp]
  opts := rfl
  content := rfl
  kept h := h
  opened h := .inl h
  found h := absurd h not_mem_nil

theorem Reached.step {read : List ResolvedPoint} (h : Reached e read c) (hstep : Copied maxSeq c c' p) :
    Reached e (read ++ [p]) c' := by
  obtain ⟨e', hserved, hengine⟩ := hstep.served
  have hplaced := hstep.placed
  rw [h.opts] at hserved hplaced
  have hshards : ∀ id, c'.engine.engine.shards.get? id = e'.engine.shards.get? id := by
    intro id
    rw [hengine]
    rfl
  refine ⟨?_, hstep.looked, ?_, ?_, fun {id s} hs => ?_, fun {id s} hs => ?_, fun {q} hq => ?_⟩
  · have hgroups := h.groups.place (a := withSeq p c'.engine.writeSeq) (k := pointID e.engine.opts p) rfl
    rw [← hplaced] at hgroups
    rwa [hstep.assigned]
  · rw [hengine, ← h.opts]
    exact hserved.opts
  · rw [hstep.assigned, map_append, map_append, h.content]
    rfl
  · rw [hshards, hserved.shards, if_neg (fun hnone => by rw [h.kept hs] at hnone; cases hnone.2)]
    exact h.kept hs
  · rw [hshards, hserved.shards] at hs
    split at hs
    · next hid =>
      cases hs
      exact .inr ⟨p, by simp, hid.1, rfl⟩
    · rcases h.opened hs with hs | ⟨q, hq, hid, hkey⟩
      · exact .inl hs
      · exact .inr ⟨q, mem_append_left _ hq, hid, hkey⟩
  · rw [hshards, hserved.isSome]
    rcases mem_append.mp hq with hq | hq
    · rw [h.found hq, Bool.or_true]
    · rw [mem_singleton.mp hq, pointID, decide_eq_true rfl, Bool.true_or]

end Copying

section InPlace
variable {accepts : FilePath → Bool} {maxSeq : FilePath → UInt64} {i : Nat} {g : Grouping} {b : ShardBatch}
  {position : Nat} {g' : Grouping}

def readBatches (points : List ResolvedPoint) (batches : List ShardBatch) : List (GoString × List ResolvedPoint) :=
  batches.map fun b => (b.shard, b.points.read points)

/-- Only the first batch shares the slice, and it is no longer than what has been read. -/
def SharesRead (i : Nat) (batches : List ShardBatch) : Prop :=
  ∀ j b n, batches[j]? = some b → b.points = .shared n → j = 0 ∧ n ≤ i

theorem readBatches_set (h : SharesRead i batches) (p : ResolvedPoint) :
    readBatches (g.points.set i p) batches = readBatches g.points batches := by
  refine map_congr_left fun b hb => ?_
  obtain ⟨j, hj⟩ := mem_iff_getElem?.mp hb
  cases hpoints : b.points with
  | own points => rfl
  | shared n => rw [BatchPoints.read, BatchPoints.read, take_set_of_le (h j b n hj hpoints).2]

theorem readBatches_addAt {after : BatchPoints}
    (hget : batches[position]? = some b) (hread : after.read points' = b.points.read points ++ [p])
    (hothers : ∀ {j b'}, j ≠ position → batches[j]? = some b' → b'.points.read points' = b'.points.read points) :
    readBatches points' (batches.set position ⟨b.shard, after⟩) = addAt (readBatches points batches) position p := by
  obtain ⟨hlt, rfl⟩ := List.getElem?_eq_some_iff.mp hget
  refine ext_getElem? fun j => ?_
  rw [readBatches, readBatches, addAt, getElem?_modify, getElem?_map, getElem?_map, getElem?_set]
  by_cases hj : position = j
  · subst hj
    simp [hlt, hread]
  · cases hget' : batches[j]? with
    | none => simp [hj]
    | some b' => simp [hj, hothers (Ne.symm hj) hget']

theorem SharesRead.set (h : SharesRead i batches)
    (hb : ∀ {n}, b.points = .shared n → position = 0 ∧ n ≤ i + 1) : SharesRead (i + 1) (batches.set position b) := by
  intro j b' n hj hn
  rw [getElem?_set] at hj
  split at hj
  · next heq =>
    split at hj
    · cases hj
      exact heq ▸ hb hn
    · cases hj
  · obtain ⟨hzero, hle⟩ := h j b' n hj hn
    exact ⟨hzero, by omega⟩

/-- The loop over the slice has the variables of the copying loop, and what is still to be read is untouched. -/
structure Simulates (points : List ResolvedPoint) (i : Nat) (g : Grouping) (c : Copying) : Prop where
  engine : g.engine = c.engine
  positions : g.positions = c.positions
  shards : g.shards = c.shards
  length : g.points.length = points.length
  ahead : g.points.drop i = points.drop i
  batches : readBatches g.points g.batches = c.batches
  shares : SharesRead i g.batches

variable {points : List ResolvedPoint} {c : Copying}

theorem readBatches_extend (shard : GoString) :
    readBatches points (batches ++ [⟨shard, if batches.isEmpty then .shared 0 else .own []⟩]) =
      readBatches points batches ++ [(shard, [])] := by
  rw [readBatches, map_append, map_singleton]
  split <;> rfl

theorem SharesRead.extend (h : SharesRead i batches) (shard : GoString) :
    SharesRead i (batches ++ [⟨shard, if batches.isEmpty then .shared 0 else .own []⟩]) := by
  intro j b n hj hn
  rw [getElem?_append] at hj
  split at hj
  · exact h j b n hj hn
  · obtain rfl := mem_singleton.mp (mem_of_getElem? hj)
    cases batches with
    | nil =>
      cases hn
      have hlt := (List.getElem?_eq_some_iff.mp hj).1
      exact ⟨by simpa using hlt, Nat.zero_le i⟩
    | cons b batches => cases hn

theorem Simulates.append (hlength : g.points.length = points.length)
    (hahead : g.points.drop (i + 1) = points.drop (i + 1)) (hshares : SharesRead i g.batches)
    (hi : i < g.points.length) (hposition : position < g.batches.length) (p : ResolvedPoint)
    (assigned : List ResolvedPoint) :
    Simulates points (i + 1) (g.append position p)
      ⟨g.engine, g.positions, g.shards, addAt (readBatches g.points g.batches) position p, assigned⟩ := by
  rw [Grouping.append]
  split
  · next shard n hget =>
    obtain ⟨rfl, hn⟩ := hshares _ _ n hget rfl
    refine ⟨rfl, rfl, rfl, length_set.trans hlength, (drop_set_of_lt (by omega)).trans hahead, ?_, ?_⟩
    · refine readBatches_addAt hget ?_ fun {j b} hj hb => ?_
      · rw [BatchPoints.read, BatchPoints.read, take_add_one, take_set_of_le le_rfl, getElem?_set_self (by omega)]
        rfl
      · cases hpoints : b.points with
        | own points => rfl
        | shared n => exact absurd (hshares j b n hb hpoints).1 hj
    · exact hshares.set fun hn' => ⟨rfl, by cases hn'; omega⟩
  · next shard points hget =>
    refine ⟨rfl, rfl, rfl, hlength, hahead, readBatches_addAt hget rfl fun _ _ => rfl, ?_⟩
    exact hshares.set fun hn => by cases hn
  · next hget => exact absurd (List.getElem?_eq_none_iff.mp hget) (by omega)

theorem Simulates.step (h : Simulates points i g c) (hp : points[i]? = some p)
    (hplaced : ∀ {id j}, c.positions.get? id = some j → j < c.batches.length)
    (hstep : groupStep accepts maxSeq g i = some g') :
    ∃ c', copyStep accepts maxSeq c p = some c' ∧ Simulates points (i + 1) g' c' := by
  obtain ⟨engine, positions, shards, batches, assigned⟩ := c
  obtain ⟨rfl, rfl, rfl, hlength, hahead, rfl, hshares⟩ := h
  have hi : i < g.points.length := hlength ▸ (List.getElem?_eq_some_iff.mp hp).1
  have hread : g.points[i]? = some p := by
    rw [← hp, ← Nat.add_zero i, ← getElem?_drop, ← getElem?_drop, hahead]
  have hlater : ∀ p', (g.points.set i p').drop (i + 1) = points.drop (i + 1) := by
    intro p'
    rw [drop_set_of_lt (by omega), ← drop_drop, ← drop_drop, hahead]
  have hbatches : (readBatches g.points g.batches).length = g.batches.length := length_map _
  simp only [groupStep, hread, Option.bind_eq_bind, Option.bind_some, Option.bind_eq_some_iff] at hstep
  obtain ⟨⟨id, e, shards⟩, hshard, hstep⟩ := hstep
  simp only [copyStep, hshard, Option.bind_eq_bind, Option.bind_some]
  refine ⟨_, rfl, ?_⟩
  cases hposition : g.positions.get? id with
  | some position =>
    simp only [hposition, Option.some.injEq] at hstep
    subst hstep
    rw [place, hposition, ← readBatches_set hshares (withSeq p (nextWriteSeq e).writeSeq)]
    refine Simulates.append ?_ (hlater _) ?_ ?_ ?_ _ _
    · exact length_set.trans hlength
    · exact hshares
    · exact hi.trans_eq length_set.symm
    · exact hbatches ▸ hplaced hposition
  | none =>
    simp only [hposition, Option.some.injEq] at hstep
    subst hstep
    rw [place, hposition, hbatches, ← readBatches_set hshares (withSeq p (nextWriteSeq e).writeSeq),
      ← readBatches_extend]
    refine Simulates.append ?_ (hlater _) ?_ ?_ ?_ _ _
    · exact length_set.trans hlength
    · exact hshares.extend id
    · exact hi.trans_eq length_set.symm
    · simp

theorem Simulates.run (k : Nat) (hk : i + k = points.length) (h : Simulates points i g c)
    (hreached : Reached e (points.take i) c)
    (hrun : (List.range' i k).foldlM (groupStep accepts maxSeq) g = some g') :
    ∃ c', (points.drop i).foldlM (copyStep accepts maxSeq) c = some c' ∧ Simulates points points.length g' c' := by
  induction k generalizing i g c with
  | zero =>
    cases hrun
    have hi : i = points.length := hk
    refine ⟨c, ?_, hi ▸ h⟩
    rw [hi, drop_length]
    rfl
  | succ k ih =>
    have hi : i < points.length := by omega
    rw [range'_succ, foldlM_cons, Option.bind_eq_bind, Option.bind_eq_some_iff] at hrun
    obtain ⟨g₁, hstep, hrun⟩ := hrun
    obtain ⟨c₁, hcopy, hnext⟩ := h.step (getElem?_eq_getElem hi) (fun hj => by
      simpa using (List.getElem?_eq_some_iff.mp (hreached.groups.positions.mp hj)).1) hstep
    have hreached₁ : Reached e (points.take (i + 1)) c₁ := by
      rw [take_add_one, getElem?_eq_getElem hi]
      exact hreached.step (copyStep_copied hcopy hreached.looked)
    obtain ⟨c', hrest, hend⟩ := ih (by omega) hnext hreached₁ hrun
    refine ⟨c', ?_, hend⟩
    rw [drop_eq_getElem_cons hi, foldlM_cons, hcopy]
    exact hrest

theorem groupByShardLocked_copying (h : groupByShardLocked accepts maxSeq e points = some (batches, e')) :
    ∃ c, points.foldlM (copyStep accepts maxSeq) ⟨e, ∅, ∅, [], []⟩ = some c ∧ c.batches = batches ∧ c.engine = e' := by
  simp only [groupByShardLocked, Option.bind_eq_bind, Option.bind_eq_some_iff, Option.some.injEq, Prod.mk.injEq] at h
  obtain ⟨g, hrun, rfl, rfl⟩ := h
  rw [range_eq_range'] at hrun
  have hstart : Simulates points 0 ⟨points, e, ∅, ∅, []⟩ ⟨e, ∅, ∅, [], []⟩ :=
    ⟨rfl, rfl, rfl, rfl, rfl, rfl, fun _ _ _ h => by cases h⟩
  obtain ⟨c, hcopy, hend⟩ := hstart.run points.length (Nat.zero_add _) (Reached.start e) hrun
  exact ⟨c, hcopy, hend.batches.symm, hend.engine.symm⟩

end InPlace

section Sequences
variable {accepts : FilePath → Bool} {maxSeq : FilePath → UInt64}

theorem le_seqReached (start : Nat) (opened : List Nat) : start ≤ seqReached start opened := by
  induction opened generalizing start with
  | nil => exact le_rfl
  | cons m opened ih => exact (Nat.le_succ_of_le (le_max_left start m)).trans (ih _)

theorem reachedSeq_cons (h : Copied maxSeq c c' p) (points : List ResolvedPoint) :
    ∃ seq : UInt64, c'.engine.writeSeq = seq + 1 ∧ c.engine.writeSeq ≤ seq ∧
      seq.toNat + 1 ≤ reachedSeq maxSeq c.engine (p :: points) ∧
      (seq.toNat + 1 < 2 ^ 64 → reachedSeq maxSeq c.engine (p :: points) = reachedSeq maxSeq c'.engine points) := by
  obtain ⟨e, hserved, hengine⟩ := h.served
  have hopts : c'.engine.engine.opts = c.engine.engine.opts := by rw [hengine]; exact hserved.opts
  have hopen : isOpen c'.engine.engine =
      fun id => id = pointID c.engine.engine.opts p || isOpen c.engine.engine id := by
    funext id
    rw [hengine]
    exact hserved.isSome id
  have hcons : reachedSeq maxSeq c.engine (p :: points) = seqReached (e.writeSeq.toNat + 1)
      (openedSeqs maxSeq c'.engine.engine.opts (isOpen c'.engine.engine) points) := by
    rw [hopts, hopen, hserved.seq]
    rfl
  refine ⟨e.writeSeq, by rw [hengine]; rfl, ?_, ?_, fun hlt => ?_⟩
  · rw [UInt64.le_iff_toNat_le, hserved.seq]
    exact le_max_left _ _
  · rw [hcons]
    exact le_seqReached _ _
  · have hnext : c'.engine.writeSeq.toNat = e.writeSeq.toNat + 1 := by
      rw [hengine, nextWriteSeq, UInt64.toNat_add, UInt64.toNat_one, Nat.mod_eq_of_lt hlt]
    rw [hcons, reachedSeq, hnext]

theorem seqs_of_run (hlooked : LookedUp c.shards c.engine.engine)
    (h : points.foldlM (copyStep accepts maxSeq) c = some c') : ∃ added, c'.assigned = c.assigned ++ added ∧
      ((∀ p ∈ added, p.writeSeq ≠ 0) → reachedSeq maxSeq c.engine points < 2 ^ 64) ∧
      (reachedSeq maxSeq c.engine points < 2 ^ 64 → (∀ p ∈ added, c.engine.writeSeq < p.writeSeq) ∧
        added.Pairwise (·.writeSeq < ·.writeSeq)) := by
  induction points generalizing c with
  | nil =>
    cases h
    exact ⟨[], (append_nil _).symm, fun _ => UInt64.toNat_lt _, by simp⟩
  | cons p points ih =>
    rw [foldlM_cons, Option.bind_eq_bind, Option.bind_eq_some_iff] at h
    obtain ⟨c₁, hstep, hrun⟩ := h
    have hcopied := copyStep_copied hstep hlooked
    obtain ⟨seq, hseq, hle, hreached, hnext⟩ := reachedSeq_cons hcopied points
    obtain ⟨added, hadded, hzero, hroom⟩ := ih hcopied.looked hrun
    have hwrap := UInt64.toNat_lt seq
    refine ⟨withSeq p c₁.engine.writeSeq :: added, ?_, fun hnonzero => ?_, fun hlt => ?_⟩
    · rw [hadded, hcopied.assigned, append_assoc]
      rfl
    · obtain ⟨hfirst, hrest⟩ := forall_mem_cons.mp hnonzero
      rcases Nat.lt_or_ge (seq.toNat + 1) (2 ^ 64) with hfits | hfits
      · rw [hnext hfits]
        exact hzero hrest
      · refine absurd ?_ hfirst
        rw [withSeq, hseq, ← UInt64.toNat_inj, UInt64.toNat_add, UInt64.toNat_one, UInt64.toNat_zero]
        omega
    · have hfits := hreached.trans_lt hlt
      obtain ⟨hfresh, hpairwise⟩ := hroom (hnext hfits ▸ hlt)
      have hfirst : c.engine.writeSeq < c₁.engine.writeSeq := by
        rw [UInt64.lt_iff_toNat_lt, hseq, UInt64.toNat_add, UInt64.toNat_one, Nat.mod_eq_of_lt hfits]
        exact Nat.lt_succ_of_le (UInt64.le_iff_toNat_le.mp hle)
      refine ⟨forall_mem_cons.mpr ⟨hfirst, fun q hq => UInt64.lt_trans hfirst (hfresh q hq)⟩, ?_⟩
      exact pairwise_cons.mpr ⟨hfresh, hpairwise⟩

end Sequences

section Partition
variable {accepts : FilePath → Bool} {maxSeq : FilePath → UInt64} {e e' : WriteEngine} {points : List ResolvedPoint}
  {batches : List (GoString × List ResolvedPoint)}

theorem Reached.run {read : List ResolvedPoint} (hreached : Reached e read c)
    (h : points.foldlM (copyStep accepts maxSeq) c = some c') : Reached e (read ++ points) c' := by
  induction points generalizing read c with
  | nil =>
    cases h
    rwa [append_nil]
  | cons p points ih =>
    rw [foldlM_cons, Option.bind_eq_bind, Option.bind_eq_some_iff] at h
    obtain ⟨c₁, hstep, hrun⟩ := h
    rw [append_cons]
    exact ih (hreached.step (copyStep_copied hstep hreached.looked)) hrun

theorem exists_pointKey_eq {left right : List ResolvedPoint}
    (h : left.map (withSeq · 0) = right.map (withSeq · 0)) (hp : p ∈ left) :
    ∃ q ∈ right, ∀ opts, pointKey opts q = pointKey opts p := by
  have hmem : withSeq p 0 ∈ right.map (withSeq · 0) := h ▸ mem_map_of_mem hp
  obtain ⟨q, hq, heq⟩ := mem_map.mp hmem
  refine ⟨q, hq, fun opts => ?_⟩
  calc pointKey opts q = pointKey opts (withSeq q 0) := rfl
    _ = pointKey opts (withSeq p 0) := by rw [heq]

theorem Partitions.keys {assigned : List ResolvedPoint} (h : Partitions e e' points assigned batches)
    (hids : ∀ b ∈ batches, ∀ p ∈ b.2, pointID e.engine.opts p = b.1) (hp : p ∈ points) :
    ∃ s, e'.engine.shards.get? (pointID e.engine.opts p) = some s ∧ s.key = pointKey e.engine.opts p := by
  obtain ⟨q, hq, hkey⟩ := exists_pointKey_eq h.content.symm hp
  obtain ⟨b, hb, hqb⟩ := mem_flatMap.mp (h.once.mem_iff.mpr hq)
  obtain ⟨s, hs, hskey⟩ := h.shards b hb q hqb
  refine ⟨s, ?_, by rw [hskey, hkey]⟩
  rw [pointID, ← hkey, ← hs, ← hids b hb q hqb]
  rfl

/-- The batches are the partition of the points exactly where shard IDs tell keys apart and the sequence counter
does not wrap around. -/
theorem partitions_iff (h : groupByShardLocked accepts maxSeq e points = some (batches, e')) :
    (∃ assigned, Partitions e e' points assigned batches) ↔
      KeysApart e points ∧ reachedSeq maxSeq e points < 2 ^ 64 := by
  obtain ⟨c, hrun, rfl, rfl⟩ := groupByShardLocked_copying h
  have hreached : Reached e points c := (Reached.start e).run hrun
  obtain ⟨added, hadded, hzero, hroom⟩ := seqs_of_run (Reached.start e).looked hrun
  obtain rfl : c.assigned = added := hadded
  constructor
  · rintro ⟨assigned, hpartition⟩
    have hkeys : ∀ {p}, p ∈ points → ∃ s, c.engine.engine.shards.get? (pointID e.engine.opts p) = some s ∧
        s.key = pointKey e.engine.opts p :=
      hpartition.keys fun b hb p hp => hreached.groups.key_eq hb hp
    refine ⟨⟨fun p hp q hq hid => ?_, fun p hp s hs => ?_⟩, hzero fun p hp => ?_⟩
    · obtain ⟨s, hs, hskey⟩ := hkeys hp
      obtain ⟨s', hs', hskey'⟩ := hkeys hq
      rw [pointID, ← hid] at hs'
      rw [← hskey, ← hskey', Option.some.inj (hs.symm.trans hs')]
    · obtain ⟨s', hs', hskey⟩ := hkeys hp
      rw [← hskey, Option.some.inj ((hreached.kept hs).symm.trans hs')]
    · have hmem : p ∈ assigned := hpartition.once.mem_iff.mp (hreached.groups.perm.mem_iff.mpr hp)
      intro heq
      have hfresh := hpartition.fresh p hmem
      rw [heq, UInt64.lt_iff_toNat_lt, UInt64.toNat_zero] at hfresh
      omega
  · rintro ⟨hapart, hlt⟩
    obtain ⟨hfresh, hincreasing⟩ := hroom hlt
    refine ⟨c.assigned, hreached.content, hreached.groups.perm, fun b hb => hreached.groups.sublist hb,
      hreached.groups.nodup, fun b hb p hp => ?_, hfresh, hincreasing⟩
    have hassigned : p ∈ c.assigned := (hreached.groups.sublist hb).subset hp
    obtain ⟨q, hq, hkey⟩ := exists_pointKey_eq hreached.content hassigned
    have hid : b.1 = pointID e.engine.opts q := by
      rw [← hreached.groups.key_eq hb hp, pointID, pointID, hkey]
    obtain ⟨s, hs⟩ := Option.isSome_iff_exists.mp (hreached.found hq)
    refine ⟨s, hid ▸ hs, ?_⟩
    rw [← hkey]
    rcases hreached.opened hs with hs | ⟨r, hr, hid, hskey⟩
    · exact hapart.opened q hq s hs
    · rw [hskey]
      exact hapart.among r hr q hq hid.symm

end Partition

def sampleStart (writeSeq : UInt64) : WriteEngine := ⟨openEngine sampleOptions [], writeSeq⟩

def samplePoint (database retentionPolicy : GoString) (timestamp : Int64) : ResolvedPoint :=
  ⟨database, retentionPolicy, [109], TagMap.empty, 1, timestamp, 0, []⟩

/-- The database `a/b` with the policy `c`, and the database `a` with the policy `b/c`. -/
def slashPoints : List ResolvedPoint := [samplePoint [97, 47, 98] [99] 0, samplePoint [97] [98, 47, 99] 0]

theorem slashPoints_not_partitioned : ∃ batches e',
    groupByShardLocked (fun _ => true) (fun _ => 0) (sampleStart 0) slashPoints = some (batches, e') ∧
      ¬ ∃ assigned, Partitions (sampleStart 0) e' slashPoints assigned batches := by
  have hmixed : ∃ r ∈ groupByShardLocked (fun _ => true) (fun _ => 0) (sampleStart 0) slashPoints,
      ∃ b ∈ r.1, ∃ p ∈ b.2, ∀ s ∈ r.2.engine.shards.get? b.1, s.key ≠ pointKey (sampleStart 0).engine.opts p := by
    decide +kernel
  obtain ⟨⟨batches, e'⟩, hgroup, b, hb, p, hp, hkey⟩ := hmixed
  refine ⟨batches, e', hgroup, ?_⟩
  rintro ⟨assigned, h⟩
  obtain ⟨s, hs, hskey⟩ := h.shards b hb p hp
  exact hkey s hs hskey

def turnPoints : List ResolvedPoint :=
  [samplePoint [100, 98] [112] (-1), samplePoint [100, 98] [112] 1, samplePoint [100, 98] [112] (-2)]

/-- The shards are on disk with sequence numbers above the counter. -/
theorem turnPoints_partitioned : ∃ batches e',
    groupByShardLocked (fun _ => true) (fun _ => 9) (sampleStart 5) turnPoints = some (batches, e') ∧
      ∃ assigned, Partitions (sampleStart 5) e' turnPoints assigned batches := by
  have hsome : (groupByShardLocked (fun _ => true) (fun _ => 9) (sampleStart 5) turnPoints).isSome := by
    decide +kernel
  obtain ⟨⟨batches, e'⟩, hgroup⟩ := Option.isSome_iff_exists.mp hsome
  refine ⟨batches, e', hgroup, (partitions_iff hgroup).mpr ⟨⟨?_, ?_⟩, ?_⟩⟩
  · decide +kernel
  · intro p _ s hs
    simp [sampleStart, openEngine, loadExistingShards, walkDir] at hs
  · decide +kernel

end Mts.Engine.Routing
