import Mts.Engine.MemTable
import Mts.Lib.GoMap
import Mts.Lib.Trace

/-! The pool of column buffers that the MemTables share, `memtable/pool.go`. Of a buffer only what the order statistics
read is kept; a buffer in the pool is its last timestamp, the rest is emptied or set anew. The capacities, which
decide whether a released buffer is cleared, are left open. -/

namespace Mts.Engine.Pool
open Lib List

structure ColumnBuffer where
  times : List Int64
  lastTimestamp : Option Int64

abbrev ColumnKey := UInt64 × UInt32

abbrev TableData := GoMap ColumnKey ColumnBuffer

abbrev ColumnBufferFreeList := List (Option Int64)

def maxPooledColumnBuffers : Nat := 2 ^ 16

/-- Only a buffer with large arrays forgets its last timestamp. -/
def releaseColumnBuffer (pool : ColumnBufferFreeList) (c : ColumnBuffer) (large : Bool) : ColumnBufferFreeList :=
  if pool.length ≥ maxPooledColumnBuffers then pool else (if large then none else c.lastTimestamp) :: pool

/-- `ensureColumn` with `borrowColumnBuffer`: the buffer of a column and what remains of the pool. -/
def ensureColumn (data : TableData) (pool : ColumnBufferFreeList) (key : ColumnKey) :
    ColumnBuffer × ColumnBufferFreeList :=
  match data.get? key with
  | some c => (c, pool)
  | none => (⟨[], pool.head?.join⟩, pool.tail)

structure MemTable where
  data : TableData
  outOfOrderSamples : Nat
  duplicateSamples : Nat

/-- `appendSample` and `noteAppendOrderLocked` on the buffer of a column. -/
def MemTable.append (m : MemTable) (key : ColumnKey) (c : ColumnBuffer) (timestamp : Int64) : MemTable :=
  let (outOfOrder, duplicate) := Engine.MemTable.orderCounts c.lastTimestamp timestamp
  { data := m.data.set key ⟨c.times ++ [timestamp], some timestamp⟩
    outOfOrderSamples := m.outOfOrderSamples + outOfOrder
    duplicateSamples := m.duplicateSamples + duplicate }

/-- The MemTables and the snapshots of a process, numbered by their owners. -/
structure State where
  tables : Nat → MemTable
  snapshots : Nat → TableData
  pool : ColumnBufferFreeList

/-- A write reserves columns and appends samples; a release walks over the columns in any order and clears those with
large arrays. -/
inductive Event
  | reserve (table : Nat) (key : ColumnKey)
  | append (table : Nat) (key : ColumnKey) (timestamp : Int64)
  | snapshotAndReset (table snapshot : Nat)
  | release (snapshot : Nat) (walk : List (ColumnKey × Bool))

namespace State

def start : State := ⟨fun _ => ⟨∅, 0, 0⟩, fun _ => ∅, []⟩

def step (s : State) : Event → State
  | .reserve table key =>
    let m := s.tables table
    let (c, pool) := ensureColumn m.data s.pool key
    { s with tables := Function.update s.tables table { m with data := m.data.set key c }, pool := pool }
  | .append table key timestamp =>
    let m := s.tables table
    let (c, pool) := ensureColumn m.data s.pool key
    { s with tables := Function.update s.tables table (m.append key c timestamp), pool := pool }
  | .snapshotAndReset table snapshot =>
    let m := s.tables table
    { s with
      tables := Function.update s.tables table { m with data := ∅ }
      snapshots := Function.update s.snapshots snapshot m.data }
  | .release snapshot walk =>
    let data := s.snapshots snapshot
    if (walk.map Prod.fst).Perm data.keys then
      let columns := walk.filterMap fun (key, large) => (data.get? key).map (·, large)
      { s with
        snapshots := Function.update s.snapshots snapshot ∅
        pool := columns.foldl (fun pool (c, large) => releaseColumnBuffer pool c large) s.pool }
    else s

/-- The time of the sample appended last to a column since it was created. -/
def preceding (s : State) (table : Nat) (key : ColumnKey) : Option Int64 :=
  ((s.tables table).data.get? key).bind fun c => c.times.getLast?

/-- An append is counted by the preceding sample of its own column. -/
def CountsLocally (s : State) : Event → Prop
  | .append table key timestamp =>
    let m := s.tables table
    let m' := (s.step (.append table key timestamp)).tables table
    let last := s.preceding table key
    m'.outOfOrderSamples = m.outOfOrderSamples + (if ∃ t ∈ last, timestamp < t then 1 else 0) ∧
      m'.duplicateSamples = m.duplicateSamples + (if last = some timestamp then 1 else 0)
  | _ => True

/-- The first sample of a column is later than the time that its buffer brings from the pool. -/
def FirstLater (s : State) : Event → Prop
  | .append table key timestamp =>
    s.preceding table key = none →
      ∀ t ∈ (ensureColumn (s.tables table).data s.pool key).1.lastTimestamp, t < timestamp
  | _ => True

/-- A buffer that has samples remembers the time of the last one. -/
def Noted (data : TableData) : Prop :=
  ∀ key c, data.get? key = some c → ∀ t ∈ c.times.getLast?, c.lastTimestamp = some t

variable {s : State} {data : TableData}

theorem Noted.set (h : Noted data) {c : ColumnBuffer} (hc : ∀ t ∈ c.times.getLast?, c.lastTimestamp = some t)
    (key : ColumnKey) : Noted (data.set key c) := by
  intro k c' hc'
  rw [GoMap.get?_set] at hc'
  split at hc'
  · cases hc'
    exact hc
  · exact h k c' hc'

theorem Noted.ensureColumn (h : Noted data) (pool : ColumnBufferFreeList) (key : ColumnKey) :
    ∀ t ∈ (ensureColumn data pool key).1.times.getLast?, (ensureColumn data pool key).1.lastTimestamp = some t := by
  unfold Pool.ensureColumn
  split
  · next c hc => exact h key c hc
  · exact fun _ ht => nomatch ht

theorem noted_step (h : ∀ i, Noted (s.tables i).data) (e : Event) (i : Nat) : Noted ((s.step e).tables i).data := by
  have hset : ∀ {m : MemTable}, Noted m.data → ∀ table, Noted (Function.update s.tables table m i).data := by
    intro m hm table
    rw [Function.update_apply]
    split
    · exact hm
    · exact h i
  cases e with
  | reserve table key => exact hset ((h table).set ((h table).ensureColumn s.pool key) key) table
  | append table key timestamp => exact hset ((h table).set (by simp) key) table
  | snapshotAndReset table => exact hset (fun key c hc => by simp at hc) table
  | release snapshot walk =>
    change Noted ((if _ then _ else s : State).tables i).data
    split <;> exact h i

theorem noted_run (events : List Event) (i : Nat) : Noted ((events.foldl step start).tables i).data :=
  List.foldlRecOn events _ (motive := fun s : State => ∀ i, Noted (s.tables i).data) (fun _ key c hc => by simp [start] at hc)
    (fun _ h e _ => noted_step h e) i

theorem orderCounts_eq (last : Option Int64) (timestamp : Int64) : MemTable.orderCounts last timestamp =
    (if ∃ t ∈ last, timestamp < t then 1 else 0, if last = some timestamp then 1 else 0) := by
  cases last with
  | none => simp [MemTable.orderCounts]
  | some t =>
    rw [MemTable.orderCounts]
    by_cases hlt : timestamp < t
    · simp [hlt, (Int64.ne_of_lt hlt).symm]
    · by_cases heq : timestamp = t
      · simp [heq]
      · simp [hlt, heq, eq_comm]

theorem countsLocally_iff (h : ∀ i, Noted (s.tables i).data) (e : Event) : s.CountsLocally e ↔ s.FirstLater e := by
  cases e with
  | append table key timestamp =>
    have htable : (s.step (.append table key timestamp)).tables table = (s.tables table).append key
        (ensureColumn (s.tables table).data s.pool key).1 timestamp := Function.update_self ..
    rw [CountsLocally, FirstLater, htable, Pool.MemTable.append, orderCounts_eq, Nat.add_left_cancel_iff,
      Nat.add_left_cancel_iff]
    cases hlast : s.preceding table key with
    | some t =>
      obtain ⟨c, hc, ht⟩ := Option.bind_eq_some_iff.mp hlast
      rw [ensureColumn, hc, h table key c hc t ht]
      exact iff_of_true ⟨rfl, rfl⟩ nofun
    | none =>
      cases (ensureColumn (s.tables table).data s.pool key).1.lastTimestamp with
      | none => simp
      | some t => simpa using Int64.lt_iff_le_and_ne.symm
  | _ => exact Iff.rfl

end State

/-- Appends are counted by their own columns exactly when no buffer brings a time that the first sample does not pass. -/
theorem countsLocally_iff_firstLater (events : List Event) :
    Always State.step State.CountsLocally .start events ↔ Always State.step State.FirstLater .start events := by
  constructor
  · exact fun h pre e post hsplit => (State.countsLocally_iff (State.noted_run pre) e).mp (h pre e post hsplit)
  · exact fun h pre e post hsplit => (State.countsLocally_iff (State.noted_run pre) e).mpr (h pre e post hsplit)

/-- The first sample of a table counts as out of order after another table has flushed a later one. -/
theorem flushed_time_counted : ¬ Always State.step State.CountsLocally .start
    [.append 0 (1, 1) 10, .snapshotAndReset 0 0, .release 0 [((1, 1), false)], .append 1 (2, 1) 5] := by
  intro h
  exact absurd (h [_, _, _] _ [] rfl).1 (by decide)

end Mts.Engine.Pool
