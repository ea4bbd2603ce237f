import Mts.Lib.GoMap
import Mts.Lib.Int64
import Mts.Lib.Trace

/-! The memory limiter of the storage engine, `engine/memory_budget.go`. A granted reservation is handed out as a
function that gives it back, once however often it is called. The snapshots and the count of triggered flushes are
left out, no decision reads them. -/

namespace Mts.Engine.Memory
open Lib List

inductive StorageMemoryKind
  | write | flush | query | compaction | compression
  deriving DecidableEq, Repr

structure StorageMemoryOptions where
  hardBytesLimit : Int64
  queryBytesLimit : Int64
  flushBytesLimit : Int64
  compactionBytesLimit : Int64
  compressionBytesLimit : Int64
  deriving DecidableEq, Repr

/-- No limit is 0. -/
def StorageMemoryOptions.operationLimit (opts : StorageMemoryOptions) : StorageMemoryKind → Int64
  | .query => opts.queryBytesLimit
  | .flush => opts.flushBytesLimit
  | .compaction => opts.compactionBytesLimit
  | .compression => opts.compressionBytesLimit
  | .write => 0

structure StorageMemoryLimiter where
  opts : StorageMemoryOptions
  reservations : GoMap StorageMemoryKind Int64
  totalReserved : Int64
  peakBytes : Int64
  rejected : UInt64
  rejectedReservations : UInt64

/-- `ErrStorageMemoryLimitExceeded` with what its text shows. -/
structure StorageMemoryLimitError where
  kind : StorageMemoryKind
  actual : Int64
  limit : Int64
  deriving DecidableEq, Repr

structure StorageMemoryReservation where
  kind : StorageMemoryKind
  bytes : Int64
  deriving DecidableEq, Repr

namespace StorageMemoryLimiter

def new (opts : StorageMemoryOptions) : StorageMemoryLimiter := ⟨opts, ∅, 0, 0, 0, 0⟩

def reserved (l : StorageMemoryLimiter) (kind : StorageMemoryKind) : Int64 := (l.reservations.get? kind).getD 0

def checkLocked (l : StorageMemoryLimiter) (kind : StorageMemoryKind) (activeBytes bytes : Int64) :
    Except StorageMemoryLimitError Unit :=
  if l.opts.operationLimit kind > 0 ∧ l.reserved kind + bytes > l.opts.operationLimit kind then
    .error ⟨kind, l.reserved kind + bytes, l.opts.operationLimit kind⟩
  else if l.opts.hardBytesLimit > 0 ∧ activeBytes + l.totalReserved + bytes > l.opts.hardBytesLimit then
    .error ⟨kind, activeBytes + l.totalReserved + bytes, l.opts.hardBytesLimit⟩
  else .ok ()

def recordRejectLocked (l : StorageMemoryLimiter) (kind : StorageMemoryKind) : StorageMemoryLimiter :=
  if kind = .write then { l with rejected := l.rejected + 1 }
  else { l with rejectedReservations := l.rejectedReservations + 1 }

def updatePeakLocked (l : StorageMemoryLimiter) (activeBytes : Int64) : StorageMemoryLimiter :=
  let current := activeBytes + l.totalReserved
  if current > l.peakBytes then { l with peakBytes := current } else l

/-- `Reserve`; `none` stands for the function that gives nothing back. -/
def reserve (l : StorageMemoryLimiter) (kind : StorageMemoryKind) (activeBytes bytes : Int64) :
    StorageMemoryLimiter × Except StorageMemoryLimitError (Option StorageMemoryReservation) :=
  if bytes ≤ 0 then (l, .ok none)
  else
    match l.checkLocked kind activeBytes bytes with
    | .error e => (l.recordRejectLocked kind, .error e)
    | .ok () =>
      let l := { l with
        reservations := l.reservations.set kind (l.reserved kind + bytes)
        totalReserved := l.totalReserved + bytes }
      (l.updatePeakLocked activeBytes, .ok (some ⟨kind, bytes⟩))

def release (l : StorageMemoryLimiter) (r : StorageMemoryReservation) : StorageMemoryLimiter :=
  { l with
    reservations :=
      if l.reserved r.kind ≤ r.bytes then l.reservations.delete r.kind
      else l.reservations.set r.kind (l.reserved r.kind - r.bytes)
    totalReserved := if l.totalReserved ≤ r.bytes then 0 else l.totalReserved - r.bytes }

end StorageMemoryLimiter

/-- A reservation in the hands of a caller, with the state of its `sync.Once`. -/
structure Handle where
  reservation : StorageMemoryReservation
  released : Bool
  deriving DecidableEq, Repr

structure System where
  limiter : StorageMemoryLimiter
  handles : List Handle

/-- The limiter's lock makes the calls one after the other. -/
inductive Event
  | reserve (kind : StorageMemoryKind) (activeBytes bytes : Int64)
  | release (i : Nat)
  deriving DecidableEq, Repr

namespace System

def start (opts : StorageMemoryOptions) : System := ⟨.new opts, []⟩

def step (s : System) : Event → System
  | .reserve kind activeBytes bytes =>
    match s.limiter.reserve kind activeBytes bytes with
    | (limiter, .ok (some r)) => ⟨limiter, s.handles ++ [⟨r, false⟩]⟩
    | (limiter, _) => { s with limiter := limiter }
  | .release i =>
    match s.handles[i]? with
    | some ⟨r, false⟩ => ⟨s.limiter.release r, s.handles.set i ⟨r, true⟩⟩
    | _ => s

end System

def Handle.liveBytes (kinds : StorageMemoryKind → Bool) (h : Handle) : Int :=
  if !h.released && kinds h.reservation.kind then h.reservation.bytes.toInt else 0

def liveBytes (kinds : StorageMemoryKind → Bool) (handles : List Handle) : Int :=
  (handles.map (Handle.liveBytes kinds)).sum

def System.live (s : System) : Int := liveBytes (fun _ => true) s.handles

def System.liveOf (s : System) (kind : StorageMemoryKind) : Int := liveBytes (fun k => k = kind) s.handles

structure System.Balanced (s : System) : Prop where
  total : s.limiter.totalReserved.toInt = s.live
  kinds : ∀ kind, (s.limiter.reserved kind).toInt = s.liveOf kind
  total_nonneg : 0 ≤ s.limiter.totalReserved.toInt
  kinds_nonneg : ∀ kind, 0 ≤ (s.limiter.reserved kind).toInt

/-- A reservation that is granted stays within the limits. -/
def System.WithinLimits (s : System) : Event → Prop
  | .reserve kind activeBytes bytes =>
    ∀ r, (s.limiter.reserve kind activeBytes bytes).2 = .ok (some r) →
      let limiter := (s.limiter.reserve kind activeBytes bytes).1
      (0 < limiter.opts.operationLimit kind → limiter.reserved kind ≤ limiter.opts.operationLimit kind) ∧
        (0 < limiter.opts.hardBytesLimit →
          activeBytes.toInt + limiter.totalReserved.toInt ≤ limiter.opts.hardBytesLimit.toInt)
  | .release _ => True

/-- What is reserved, asked for and active fits into an `int64`. -/
def System.Fits (s : System) : Event → Prop
  | .reserve _ activeBytes bytes => 0 < bytes → max activeBytes.toInt 0 + s.live + bytes.toInt < 2 ^ 63
  | .release _ => True

section Sums
variable {kinds : StorageMemoryKind → Bool} {handles : List Handle} {r : StorageMemoryReservation}

theorem liveBytes_append (handles more : List Handle) :
    liveBytes kinds (handles ++ more) = liveBytes kinds handles + liveBytes kinds more := by
  simp [liveBytes]

theorem liveBytes_release (h : handles[i]? = some ⟨r, false⟩) :
    liveBytes kinds (handles.set i ⟨r, true⟩) = liveBytes kinds handles - Handle.liveBytes kinds ⟨r, false⟩ := by
  obtain ⟨hi, hget⟩ := List.getElem?_eq_some_iff.mp h
  have hsplit : handles = handles.take i ++ ⟨r, false⟩ :: handles.drop (i + 1) := by
    rw [← hget, ← drop_eq_getElem_cons hi, take_append_drop]
  have hset : handles.set i ⟨r, true⟩ = handles.take i ++ ⟨r, true⟩ :: handles.drop (i + 1) :=
    set_eq_take_append_cons_drop.trans (if_pos hi)
  have hzero : Handle.liveBytes kinds ⟨r, true⟩ = 0 := rfl
  rw [hset]
  conv_rhs => rw [hsplit]
  simp only [liveBytes, map_append, map_cons, sum_append, sum_cons, hzero]
  omega

theorem Handle.liveBytes_nonneg {h : Handle} (hpos : 0 < h.reservation.bytes.toInt) : 0 ≤ h.liveBytes kinds := by
  rw [Handle.liveBytes]
  split
  · exact hpos.le
  · exact le_rfl

theorem Handle.liveBytes_le {h : Handle} (hpos : 0 < h.reservation.bytes.toInt) :
    h.liveBytes kinds ≤ h.liveBytes fun _ => true := by
  simp only [Handle.liveBytes, Bool.and_true]
  cases h.released <;> cases kinds h.reservation.kind <;> simp [hpos.le]

variable (hpos : ∀ h ∈ handles, 0 < h.reservation.bytes.toInt)
include hpos

theorem liveBytes_nonneg : 0 ≤ liveBytes kinds handles :=
  sum_nonneg fun n hn => by
    obtain ⟨h, hh, rfl⟩ := mem_map.mp hn
    exact Handle.liveBytes_nonneg (hpos h hh)

theorem liveBytes_le : liveBytes kinds handles ≤ liveBytes (fun _ => true) handles :=
  sum_le_sum fun h hh => Handle.liveBytes_le (hpos h hh)

theorem bytes_le_liveBytes {i : Nat} (h : handles[i]? = some ⟨r, false⟩) (hkind : kinds r.kind = true) :
    r.bytes.toInt ≤ liveBytes kinds handles := by
  have hrest : 0 ≤ liveBytes kinds (handles.set i ⟨r, true⟩) := by
    refine liveBytes_nonneg fun h' hh' => ?_
    rcases mem_or_eq_of_mem_set hh' with hold | rfl
    · exact hpos h' hold
    · exact hpos ⟨r, false⟩ (mem_of_getElem? h)
  rw [liveBytes_release h] at hrest
  simp only [Handle.liveBytes, hkind] at hrest
  simpa using hrest

end Sums

section Limiter
variable {l : StorageMemoryLimiter} {kind : StorageMemoryKind} {activeBytes bytes : Int64}

theorem StorageMemoryLimiter.checkLocked_ok (h : l.checkLocked kind activeBytes bytes = .ok ()) :
    (0 < l.opts.operationLimit kind → l.reserved kind + bytes ≤ l.opts.operationLimit kind) ∧
      (0 < l.opts.hardBytesLimit → activeBytes + l.totalReserved + bytes ≤ l.opts.hardBytesLimit) := by
  rw [checkLocked] at h
  split at h
  · cases h
  · next hkind =>
    split at h
    · cases h
    · next hhard =>
      refine ⟨fun hlimit => ?_, fun hlimit => ?_⟩
      · exact Int64.not_lt.mp fun hgt => hkind ⟨hlimit, hgt⟩
      · exact Int64.not_lt.mp fun hgt => hhard ⟨hlimit, hgt⟩

theorem StorageMemoryLimiter.updatePeakLocked_counters (l : StorageMemoryLimiter) (activeBytes : Int64) :
    (l.updatePeakLocked activeBytes).opts = l.opts ∧
      (l.updatePeakLocked activeBytes).reservations = l.reservations ∧
      (l.updatePeakLocked activeBytes).totalReserved = l.totalReserved := by
  rw [updatePeakLocked]
  split <;> exact ⟨rfl, rfl, rfl⟩

theorem StorageMemoryLimiter.reserve_cases (l : StorageMemoryLimiter) (kind : StorageMemoryKind)
    (activeBytes bytes : Int64) :
    (0 < bytes ∧ l.checkLocked kind activeBytes bytes = .ok () ∧
      ∃ l', l.reserve kind activeBytes bytes = (l', .ok (some ⟨kind, bytes⟩)) ∧ l'.opts = l.opts ∧
        l'.reservations = l.reservations.set kind (l.reserved kind + bytes) ∧
        l'.totalReserved = l.totalReserved + bytes) ∨
    ∃ l' result, l.reserve kind activeBytes bytes = (l', result) ∧ (∀ r, result ≠ .ok (some r)) ∧
      l'.reservations = l.reservations ∧ l'.totalReserved = l.totalReserved := by
  by_cases hbytes : bytes ≤ 0
  · refine .inr ⟨l, .ok none, by rw [reserve, if_pos hbytes], fun r h => ?_, rfl, rfl⟩
    cases h
  · cases hcheck : l.checkLocked kind activeBytes bytes with
    | error e =>
      refine .inr ⟨l.recordRejectLocked kind, .error e, ?_, fun r h => ?_, ?_, ?_⟩
      · rw [reserve, if_neg hbytes, hcheck]
      · cases h
      · rw [recordRejectLocked]
        split <;> rfl
      · rw [recordRejectLocked]
        split <;> rfl
    | ok _ =>
      let granted : StorageMemoryLimiter := { l with
        reservations := l.reservations.set kind (l.reserved kind + bytes)
        totalReserved := l.totalReserved + bytes }
      obtain ⟨hopts, hreservations, htotal⟩ := granted.updatePeakLocked_counters activeBytes
      refine .inl ⟨Int64.not_le.mp hbytes, rfl, granted.updatePeakLocked activeBytes, ?_, hopts, hreservations, htotal⟩
      rw [reserve, if_neg hbytes, hcheck]

theorem StorageMemoryLimiter.reserved_set (l : StorageMemoryLimiter) {l' : StorageMemoryLimiter} (h : l'.reservations = l.reservations.set kind n) (k : StorageMemoryKind) :
    l'.reserved k = if k = kind then n else l.reserved k := by
  rw [reserved, h, GoMap.get?_set, reserved]
  split <;> rfl

theorem StorageMemoryLimiter.reserved_release (l : StorageMemoryLimiter) (r : StorageMemoryReservation)
    (k : StorageMemoryKind) : (l.release r).reserved k =
      if k = r.kind then (if l.reserved r.kind ≤ r.bytes then 0 else l.reserved r.kind - r.bytes)
      else l.reserved k := by
  by_cases hle : l.reserved r.kind ≤ r.bytes
  · have h : (l.release r).reservations = l.reservations.delete r.kind := if_pos hle
    rw [reserved, h, GoMap.get?_delete, if_pos hle, reserved]
    split <;> rfl
  · have h : (l.release r).reservations = l.reservations.set r.kind (l.reserved r.kind - r.bytes) := if_neg hle
    rw [l.reserved_set h, if_neg hle]

theorem toInt_giveBack {current given : Int64} (hgiven : 0 ≤ given.toInt) (hle : given.toInt ≤ current.toInt) :
    (if current ≤ given then 0 else current - given).toInt = current.toInt - given.toInt := by
  have hcurrent := Int64.toInt_lt current
  split
  · next h =>
    have h := h.toInt_le
    change (0 : Int) = _
    omega
  · exact toInt_sub_of_fits (by omega) (by omega)

end Limiter

section Steps
variable {s : System}

structure System.Inv (s : System) : Prop where
  total : s.limiter.totalReserved.toInt = s.live
  kinds : ∀ kind, (s.limiter.reserved kind).toInt = s.liveOf kind
  positive : ∀ h ∈ s.handles, 0 < h.reservation.bytes.toInt

theorem System.Inv.balanced (h : s.Inv) : s.Balanced where
  total := h.total
  kinds := h.kinds
  total_nonneg := h.total ▸ liveBytes_nonneg h.positive
  kinds_nonneg kind := h.kinds kind ▸ liveBytes_nonneg h.positive

theorem System.Inv.liveOf_le (h : s.Inv) (kind : StorageMemoryKind) : s.liveOf kind ≤ s.live := liveBytes_le h.positive

variable {kind : StorageMemoryKind} {activeBytes bytes : Int64}

theorem System.Inv.toInt_granted (h : s.Inv) (hfits : s.Fits (.reserve kind activeBytes bytes)) (hpos : 0 < bytes) :
    (s.limiter.totalReserved + bytes).toInt = s.live + bytes.toInt ∧
      (s.limiter.reserved kind + bytes).toInt = s.liveOf kind + bytes.toInt := by
  have hbytes : 0 < bytes.toInt := hpos.toInt_lt
  have hfits := hfits hpos
  have hb := h.balanced
  have htotal := hb.total_nonneg
  have hkind := hb.kinds_nonneg kind
  have hle := h.liveOf_le kind
  rw [hb.kinds] at hkind
  constructor
  · rw [toInt_add_of_fits (by rw [h.total]; omega) (by rw [h.total]; omega), h.total]
  · rw [toInt_add_of_fits (by rw [h.kinds]; omega) (by rw [h.kinds]; omega), h.kinds]

theorem System.Inv.reserve (h : s.Inv) (hfits : s.Fits (.reserve kind activeBytes bytes)) :
    (s.step (.reserve kind activeBytes bytes)).Inv := by
  rcases s.limiter.reserve_cases kind activeBytes bytes with
    ⟨hpos, -, l', hreserve, -, hreservations, htotal⟩ | ⟨l', result, hreserve, hnone, hreservations, htotal⟩
  · have hbytes : 0 < bytes.toInt := hpos.toInt_lt
    obtain ⟨hgrantedTotal, hgrantedKind⟩ := h.toInt_granted hfits hpos
    have hstep : s.step (.reserve kind activeBytes bytes) = ⟨l', s.handles ++ [⟨⟨kind, bytes⟩, false⟩]⟩ := by
      rw [step, hreserve]
    rw [hstep]
    refine ⟨?_, fun k => ?_, fun h' hh' => ?_⟩
    · change l'.totalReserved.toInt = liveBytes _ (_ ++ _)
      rw [htotal, hgrantedTotal, liveBytes_append]
      simp [liveBytes, Handle.liveBytes, live]
    · change (l'.reserved k).toInt = liveBytes _ (_ ++ _)
      rw [s.limiter.reserved_set hreservations, liveBytes_append]
      split
      · next heq =>
        subst heq
        rw [hgrantedKind]
        simp [liveBytes, Handle.liveBytes, liveOf]
      · next hne =>
        rw [h.kinds]
        simp [liveBytes, Handle.liveBytes, liveOf, Ne.symm hne]
    · rcases mem_append.mp hh' with hold | hnew
      · exact h.positive h' hold
      · rw [mem_singleton.mp hnew]
        exact hbytes
  · have hstep : s.step (.reserve kind activeBytes bytes) = { s with limiter := l' } := by
      rw [step, hreserve]
      match result, hnone with
      | .error _, _ => rfl
      | .ok none, _ => rfl
      | .ok (some r), hnone => exact absurd rfl (hnone r)
    rw [hstep]
    refine ⟨?_, fun k => ?_, h.positive⟩
    · exact htotal ▸ h.total
    · change ((l'.reservations.get? k).getD 0).toInt = s.liveOf k
      rw [hreservations]
      exact h.kinds k

theorem System.Inv.release (h : s.Inv) (i : Nat) : (s.step (.release i)).Inv := by
  rw [step]
  split
  · next r hget =>
    have hpos : 0 < r.bytes.toInt := h.positive ⟨r, false⟩ (mem_of_getElem? hget)
    refine ⟨?_, fun k => ?_, fun h' hh' => ?_⟩
    · change (if s.limiter.totalReserved ≤ r.bytes then 0 else s.limiter.totalReserved - r.bytes).toInt =
        liveBytes _ (s.handles.set i ⟨r, true⟩)
      have hle : r.bytes.toInt ≤ s.limiter.totalReserved.toInt := by
        rw [h.total]
        exact bytes_le_liveBytes h.positive hget rfl
      rw [toInt_giveBack hpos.le hle, liveBytes_release hget, h.total]
      rfl
    · change ((s.limiter.release r).reserved k).toInt = liveBytes _ (s.handles.set i ⟨r, true⟩)
      rw [s.limiter.reserved_release, liveBytes_release hget]
      split
      · next heq =>
        subst heq
        have hle : r.bytes.toInt ≤ (s.limiter.reserved r.kind).toInt := by
          rw [h.kinds]
          exact bytes_le_liveBytes h.positive hget (by simp)
        rw [toInt_giveBack hpos.le hle, h.kinds]
        simp [Handle.liveBytes, liveOf]
      · next hne =>
        rw [h.kinds]
        simp [Handle.liveBytes, liveOf, Ne.symm hne]
    · rcases mem_or_eq_of_mem_set hh' with hold | rfl
      · exact h.positive h' hold
      · exact hpos
  · exact h

theorem System.Inv.step (h : s.Inv) (e : Event) (hfits : s.Fits e) : (s.step e).Inv := by
  cases e with
  | reserve kind activeBytes bytes => exact h.reserve hfits
  | release i => exact h.release i

theorem System.Inv.withinLimits (h : s.Inv) (e : Event) (hfits : s.Fits e) : s.WithinLimits e := by
  cases e with
  | release i => trivial
  | reserve kind activeBytes bytes =>
    intro r hr
    rcases s.limiter.reserve_cases kind activeBytes bytes with
      ⟨hpos, hcheck, l', hreserve, hopts, hreservations, htotal⟩ | ⟨l', result, hreserve, hnone, -⟩
    · obtain ⟨hkind, hhard⟩ := StorageMemoryLimiter.checkLocked_ok hcheck
      rw [hreserve]
      dsimp only
      rw [hopts, s.limiter.reserved_set hreservations, if_pos rfl, htotal]
      refine ⟨hkind, fun hlimit => ?_⟩
      have hhard := (hhard hlimit).toInt_le
      obtain ⟨hgranted, -⟩ := h.toInt_granted hfits hpos
      have hlive : 0 ≤ s.live := liveBytes_nonneg h.positive
      have hbytes : 0 < bytes.toInt := hpos.toInt_lt
      have hfits := hfits hpos
      have hactive := Int64.le_toInt activeBytes
      have hsum : (activeBytes + s.limiter.totalReserved + bytes).toInt =
          activeBytes.toInt + (s.live + bytes.toInt) := by
        rw [Int64.add_assoc, toInt_add_of_fits (by rw [hgranted]; omega) (by rw [hgranted]; omega), hgranted]
      rw [hgranted, ← hsum]
      exact hhard
    · rw [hreserve] at hr
      exact absurd hr (hnone r)

end Steps

instance (s : System) (e : Event) : Decidable (s.Fits e) :=
  match e with
  | .reserve .. => inferInstanceAs (Decidable (_ → _))
  | .release _ => inferInstanceAs (Decidable True)

def smallOptions : StorageMemoryOptions := ⟨10, 0, 0, 0, 0⟩

/-- The second sum wraps around to a negative number, which is below the limit. -/
def wrappingEvents : List Event := [.reserve .query 0 5, .reserve .query 0 9223372036854775807]

def fittingEvents : List Event := [.reserve .query 0 5, .reserve .write 2 4, .release 0, .release 0, .reserve .write 2 8]

end Mts.Engine.Memory
