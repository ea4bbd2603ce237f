import Mts.Wal.LogRun

/-! What is on stable storage after a call that syncs. The counter of pending records belongs to the log and an
`fsync` to one file, so that the records outside of the open file have to be stable already. -/

namespace Mts.Wal
open Lib Model List

variable {files : List SegmentFile}

def stableSize (name : GoString) (files : List SegmentFile) : Nat :=
  ((files.find? fun f => f.name = name).map fun f => min f.stable f.data.length).getD 0

def Durable (l : Log) (a : Ack) : Prop := a.stop ≤ stableSize (segmentName a.number) l.files

instance (l : Log) (a : Ack) : Decidable (Durable l a) := inferInstanceAs (Decidable (_ ≤ _))

section Files

structure Grows (files files' : List SegmentFile) : Prop where
  size : ∀ name, fileSize name files ≤ fileSize name files'
  stable : ∀ name, stableSize name files ≤ stableSize name files'

theorem grows_refl (files : List SegmentFile) : Grows files files := ⟨fun _ => le_rfl, fun _ => le_rfl⟩

theorem Grows.trans (h : Grows a b) (h' : Grows b c) : Grows a c :=
  ⟨fun name => (h.size name).trans (h'.size name), fun name => (h.stable name).trans (h'.stable name)⟩

theorem find?_updateFile (update : SegmentFile → SegmentFile) (hname : ∀ f, (update f).name = f.name)
    (name target : GoString) (files : List SegmentFile) :
    (updateFile target update files).find? (fun f => f.name = name) =
      (files.find? fun f => f.name = name).map fun f => if name = target then update f else f := by
  induction files with
  | nil => rfl
  | cons f files ih =>
    have hsame : (if f.name = target then update f else f).name = f.name := by
      split
      · exact hname f
      · rfl
    rw [updateFile, map_cons, find?_cons, find?_cons, hsame, ← updateFile, ih]
    by_cases hf : f.name = name
    · subst hf
      simp
    · simp [hf]

theorem grows_updateFile (update : SegmentFile → SegmentFile) (hname : ∀ f, (update f).name = f.name)
    (hsize : ∀ f, f.data.length ≤ (update f).data.length)
    (hstable : ∀ f, min f.stable f.data.length ≤ min (update f).stable (update f).data.length)
    (target : GoString) (files : List SegmentFile) : Grows files (updateFile target update files) := by
  constructor <;> intro name
  · rw [fileSize, fileSize, find?_updateFile update hname]
    cases files.find? fun f => f.name = name with
    | none => exact le_rfl
    | some f =>
      by_cases h : name = target
      · simpa [h] using hsize f
      · simp [h]
  · rw [stableSize, stableSize, find?_updateFile update hname]
    cases files.find? fun f => f.name = name with
    | none => exact le_rfl
    | some f =>
      by_cases h : name = target
      · simpa only [h, Option.map_some, if_true, Option.getD_some] using hstable f
      · simp [h]

theorem grows_writeFile (name : GoString) (bytes : Bytes) (files : List SegmentFile) :
    Grows files (writeFile name bytes files) := by
  refine grows_updateFile (fun f => { f with data := f.data ++ bytes }) (fun _ => rfl) (fun f => ?_) (fun f => ?_)
    name files
  · rw [length_append]
    omega
  · dsimp only
    rw [length_append]
    omega

theorem grows_syncFile (name : GoString) (files : List SegmentFile) : Grows files (syncFile name files) := by
  refine grows_updateFile (fun f => { f with stable := f.data.length }) (fun _ => rfl) (fun _ => le_rfl) (fun f => ?_)
    name files
  dsimp only
  omega

theorem grows_createFile (name : GoString) (files : List SegmentFile) : Grows files (createFile name files) := by
  rw [createFile]
  split
  · exact grows_refl files
  · constructor <;> intro other
    · rw [fileSize, fileSize, find?_append]
      cases files.find? fun f => f.name = other with
      | none => exact Nat.zero_le _
      | some f => exact le_rfl
    · rw [stableSize, stableSize, find?_append]
      cases files.find? fun f => f.name = other with
      | none => exact Nat.zero_le _
      | some f => exact le_rfl

theorem find?_syncFile (name : GoString) (files : List SegmentFile) :
    (syncFile name files).find? (fun f => f.name = name) =
      (files.find? fun f => f.name = name).map fun f => { f with stable := f.data.length } := by
  have hfind := find?_updateFile (fun f => { f with stable := f.data.length }) (fun _ => rfl) name name files
  rw [syncFile]
  simpa only [if_true] using hfind

theorem stableSize_syncFile (name : GoString) (files : List SegmentFile) :
    stableSize name (syncFile name files) = fileSize name files := by
  rw [stableSize, find?_syncFile, fileSize]
  cases files.find? fun f => f.name = name <;> simp

theorem openSize_synced (l : Log) : l.synced.openSize = l.openSize := by
  change fileSize (segmentName l.segment) (syncFile (segmentName l.segment) l.files) = _
  rw [fileSize, find?_syncFile, Log.openSize, fileSize]
  cases l.files.find? fun f => f.name = segmentName l.segment <;> simp

end Files

/-- What the log knows about the acknowledged records: they are written, stable unless they are in the open file,
and stable if nothing is pending. -/
structure Settled (l : Log) (acked : List Ack) : Prop where
  written : ∀ a ∈ acked, a.stop ≤ fileSize (segmentName a.number) l.files
  closed : ∀ a ∈ acked, a.number ≠ l.segment → Durable l a
  pending : l.pendingRecords = 0 → ∀ a ∈ acked, Durable l a
  noFile : l.file = .none → l.pendingRecords = 0

section Steps
variable {crc : Bytes → UInt32} {grow : Nat → Nat → Nat} {l l' : Log} {acked : List Ack}

structure SameCounters (l l' : Log) : Prop where
  records : l'.pendingRecords = l.pendingRecords
  bytes : l'.pendingBytes = l.pendingBytes
  opts : l'.opts = l.opts

theorem shouldSync_congr (h : SameCounters l l') (frameSize : Nat) (syncWrite : Bool) :
    (l'.countFrame frameSize).shouldSync syncWrite = (l.countFrame frameSize).shouldSync syncWrite := by
  simp only [Log.shouldSync, Log.countFrame, h.records, h.bytes, h.opts]
  rfl

theorem settled_removeCheckpointed (hfile : l.file = .opened) (number : Nat) :
    Settled (l.removeCheckpointed number) [] := by
  refine ⟨by simp, by simp, by simp, fun hnone => ?_⟩
  rw [Log.removeCheckpointed, hfile] at hnone
  simp at hnone

section
variable (h : Settled l acked)
include h

theorem Settled.move (hpending : l.pendingRecords = 0) (hgrows : Grows l.files l'.files)
    (hpending' : l'.pendingRecords = 0) : Settled l' acked := by
  have hdurable : ∀ a ∈ acked, Durable l' a := fun a ha => (h.pending hpending a ha).trans (hgrows.stable _)
  exact ⟨fun a ha => (h.written a ha).trans (hgrows.size _), fun a ha _ => hdurable a ha, fun _ => hdurable,
    fun _ => hpending'⟩

theorem Settled.stay (hgrows : Grows l.files l'.files) (hsegment : l'.segment = l.segment)
    (hpending : l.pendingRecords ≤ l'.pendingRecords) (hfile : l'.file ≠ .none) : Settled l' acked := by
  constructor
  · exact fun a ha => (h.written a ha).trans (hgrows.size _)
  · exact fun a ha hne => (h.closed a ha (by rwa [hsegment] at hne)).trans (hgrows.stable _)
  · exact fun hzero a ha => (h.pending (by omega) a ha).trans (hgrows.stable _)
  · exact fun hnone => absurd hnone hfile

theorem Settled.synced : Settled l.synced acked := by
  have hgrows : Grows l.files l.synced.files := grows_syncFile _ _
  have hdurable : ∀ a ∈ acked, Durable l.synced a := by
    intro a ha
    by_cases hopen : a.number = l.segment
    · have hstable : stableSize (segmentName a.number) l.synced.files = fileSize (segmentName a.number) l.files := by
        rw [hopen]
        exact stableSize_syncFile _ _
      rw [Durable, hstable]
      exact h.written a ha
    · exact (h.closed a ha hopen).trans (hgrows.stable _)
  exact ⟨fun a ha => (h.written a ha).trans (hgrows.size _), fun a ha _ => hdurable a ha, fun _ => hdurable, fun _ => rfl⟩

theorem ends_openSegment_settled (hpending : l.pendingRecords = 0) (fault : OpenFault) (number : Nat) :
    Ends (Log.openSegment crc fault number l)
      (fun _ l' => Settled l' acked ∧ l'.pendingRecords = 0 ∧ l'.pendingBytes = l.pendingBytes ∧ l'.opts = l.opts ∧
        l'.file = .opened)
      fun l' => Settled l' acked := by
  have hcreate := grows_createFile (segmentName number) l.files
  have hwrite := fun bytes => hcreate.trans (grows_writeFile (segmentName number) bytes _)
  refine ends_get_bind ?_
  cases fault with
  | refused => exact h
  | header written =>
    refine h.move hpending ?_ hpending
    split
    · exact hwrite _
    · exact hcreate
  | none =>
    dsimp only
    split
    · exact ⟨h.move hpending (hwrite _) hpending, hpending, rfl, rfl, rfl⟩
    · exact ⟨h.move hpending hcreate hpending, hpending, rfl, rfl, rfl⟩

theorem ends_closeFile_settled (hpending : l.pendingRecords = 0) (fails : Bool) :
    Ends (Log.closeFile fails l) (fun _ l' => l' = { l with file := .none } ∧ Settled l' acked)
      fun l' => Settled l' acked := by
  have hmove : ∀ handle, Settled { l with file := handle } acked := fun handle =>
    h.move hpending (grows_refl _) hpending
  refine ends_get_bind ?_
  by_cases hopen : l.file ≠ .opened
  · rw [if_pos hopen]
    exact h
  · rw [if_neg hopen]
    cases fails with
    | true => exact hmove .closed
    | false => exact ⟨rfl, hmove .none⟩

theorem ends_rollIfNeeded_settled (faults : Faults) (hsafe : l.Rolls frameSize → l.pendingRecords = 0) :
    Ends (Log.rollIfNeeded crc faults frameSize l) (fun _ l' => Settled l' acked ∧ SameCounters l l')
      fun l' => Settled l' acked := by
  refine ends_get_bind ?_
  split
  · next hrolls =>
    have hpending := hsafe hrolls
    refine (ends_closeFile_settled h hpending faults.close).bind ?_
    rintro _ _ ⟨rfl, hclosed⟩
    refine (ends_openSegment_settled hclosed hpending faults.opening _).mono ?_ fun _ h => h
    rintro _ l' ⟨hl', hrecords, hbytes, hopts, -⟩
    exact ⟨hl', hrecords.trans hpending.symm, hbytes, hopts⟩
  · exact ends_pure ⟨h, rfl, rfl, rfl⟩

theorem ends_writeFrame_settled (fault : Option Nat) (frame : Bytes) :
    Ends (Log.writeFrame fault frame l)
      (fun _ l' => Settled l' acked ∧ SameCounters l l' ∧ l'.file = .opened) fun l' => Settled l' acked := by
  refine ends_get_bind ?_
  by_cases hopen : l.file = .opened
  · have hwrite : ∀ bytes, Settled (l.write bytes) acked := fun bytes =>
      h.stay (grows_writeFile _ bytes _) rfl le_rfl (by rw [Log.write, hopen]; simp)
    rw [if_neg (not_not.mpr hopen)]
    cases fault with
    | some written => exact hwrite _
    | none => exact ⟨hwrite frame, ⟨rfl, rfl, rfl⟩, hopen⟩
  · rw [if_pos hopen]
    exact h

theorem ends_sync_settled (fails : Bool) :
    Ends (Log.sync fails l) (fun _ l' => l' = l.synced ∧ Settled l' acked) fun l' => Settled l' acked := by
  refine ends_get_bind ?_
  split
  · exact h
  · exact ⟨rfl, h.synced⟩

theorem Settled.acknowledge (hfile : l.file = .opened) (record : Record) (frameSize : Nat) :
    Settled (l.countFrame frameSize) (acked ++ [⟨record, l.segment, l.openSize⟩]) := by
  constructor
  · intro a ha
    rcases mem_append.mp ha with ha | ha
    · exact h.written a ha
    · rw [mem_singleton.mp ha]
      exact le_rfl
  · intro a ha hne
    rcases mem_append.mp ha with ha | ha
    · exact h.closed a ha hne
    · rw [mem_singleton.mp ha] at hne
      exact absurd rfl hne
  · intro hzero
    simp [Log.countFrame] at hzero
  · intro hnone
    rw [Log.countFrame, hfile] at hnone
    simp at hnone

theorem ends_appendFrame_settled (faults : Faults) (recordType : UInt8) (payload : Bytes)
    (syncWrite : Bool) (record : Record)
    (hsafe : l.Rolls (encodeFrame crc recordType payload).length → l.pendingRecords = 0) :
    Ends (Log.appendFrame crc faults recordType payload syncWrite l)
      (fun _ l' => Settled l' (acked ++ [⟨record, l'.segment, l'.openSize⟩]) ∧
        ((l.countFrame (encodeFrame crc recordType payload).length).shouldSync syncWrite = true →
          l'.pendingRecords = 0))
      fun l' => Settled l' acked := by
  refine (ends_rollIfNeeded_settled h faults hsafe).bind ?_
  rintro _ l₁ ⟨h₁, hsame₁⟩
  refine (ends_writeFrame_settled h₁ faults.write _).bind ?_
  rintro _ l₂ ⟨h₂, hsame₂, hfile⟩
  generalize hcounted : l₂.countFrame (encodeFrame crc recordType payload).length = counted
  have hacked : Settled counted (acked ++ [⟨record, counted.segment, counted.openSize⟩]) := by
    rw [← hcounted]
    exact h₂.acknowledge hfile record _
  have hsync : counted.shouldSync syncWrite =
      (l.countFrame (encodeFrame crc recordType payload).length).shouldSync syncWrite := by
    rw [← hcounted, shouldSync_congr hsame₂, shouldSync_congr hsame₁]
  refine ends_modify_bind (ends_get_bind ?_)
  rw [hcounted]
  rw [← hsync]
  split
  · refine (ends_sync_settled hacked faults.sync).mono ?_ fun l' h => ?_
    · rintro _ l' ⟨rfl, h⟩
      refine ⟨?_, fun _ => rfl⟩
      rw [openSize_synced]
      exact h
    · exact ⟨fun a ha => h.written a (mem_append_left _ ha), fun a ha => h.closed a (mem_append_left _ ha),
        fun hzero a ha => h.pending hzero a (mem_append_left _ ha), h.noFile⟩
  · next hno => exact ends_pure ⟨hacked, fun hyes => absurd hyes hno⟩

theorem ends_syncPending_settled (fails : Bool) :
    Ends (Log.syncPending fails l) (fun _ l' => Settled l' acked ∧ l'.pendingRecords = 0) fun l' => Settled l' acked := by
  refine ends_get_bind ?_
  split
  · refine (ends_sync_settled h fails).mono ?_ fun _ h => h
    rintro _ l' ⟨rfl, h⟩
    exact ⟨h, rfl⟩
  · next hidle =>
    refine ends_pure ⟨h, ?_⟩
    by_cases hfile : l.file = .none
    · exact h.noFile hfile
    · by_contra hpending
      exact hidle ⟨hfile, hpending⟩

theorem ends_checkpoint_settled (faults : Faults) :
    Ends (Log.checkpoint crc faults l) (fun _ l' => Settled l' []) fun l' => Settled l' acked := by
  refine (ends_syncPending_settled h faults.sync).bind ?_
  rintro _ l₁ ⟨h₁, hpending⟩
  refine ends_get_bind ?_
  have hopen : ∀ l₂, Settled l₂ acked → l₂.pendingRecords = 0 →
      Ends ((do Log.openSegment crc faults.opening (l₁.segment + 1); modify (Log.removeCheckpointed l₁.segment) :
        LogM Unit) l₂) (fun _ l' => Settled l' []) fun l' => Settled l' acked := by
    intro l₂ h₂ hpending₂
    refine (ends_openSegment_settled h₂ hpending₂ faults.opening _).bind ?_
    rintro _ l₃ ⟨-, -, -, -, hfile⟩
    exact ends_modify (settled_removeCheckpointed hfile _)
  by_cases hfile : l₁.file ≠ .none
  · rw [if_pos hfile]
    refine (ends_closeFile_settled h₁ hpending faults.close).bind ?_
    rintro _ _ ⟨rfl, h₂⟩
    exact hopen _ h₂ hpending
  · rw [if_neg hfile]
    exact hopen l₁ h₁ hpending

end

theorem settled_openDir (opts : Options)
    (h : ∀ a ∈ acked, a.stop ≤ fileSize (segmentName a.number) files ∧ a.stop ≤ stableSize (segmentName a.number) files) :
    Settled (Log.openDir crc opts files) acked := by
  have hfresh : Settled (Log.fresh opts files) acked :=
    ⟨fun a ha => (h a ha).1, fun a ha _ => (h a ha).2, fun _ a ha => (h a ha).2, fun _ => rfl⟩
  have hopen : ∀ number, Ends (Log.openSegment crc .none number (Log.fresh opts files)) (fun _ l' => Settled l' acked)
      fun l' => Settled l' acked := fun number =>
    (ends_openSegment_settled hfresh rfl .none number).mono (fun _ _ h => h.1) fun _ h => h
  refine exec_of_ends (P := fun l => Settled l acked) (ends_get_bind ?_)
  cases (listSegments (Log.fresh opts files).files).getLast? with
  | none => exact hopen 1
  | some last => exact hopen last.number

end Steps

section Run

theorem forall_prefix_concat {α : Type} {events : List α} {P : List α → α → Prop}
    (h : ∀ i (hi : i < events.length), P (events.take i) events[i]) :
    ∀ before e, before ++ [e] <+: events → P before e := by
  rintro before e ⟨rest, rfl⟩
  have hi : before.length < (before ++ [e] ++ rest).length := by simp
  have hP := h before.length hi
  simpa using hP

variable (crc : Bytes → UInt32) (grow : Nat → Nat → Nat)

def Call.Syncs (l : Log) : Call → Prop
  | .append a syncWrite => ∀ recordType payload, a.encode grow = .ok (recordType, payload) →
      (l.countFrame (encodeFrame crc recordType payload).length).shouldSync syncWrite = true
  | .flushPending => True
  | .checkpoint => True
  | .reopen => False

/-- An append that starts a new segment finds no pending records, and neither does a log that is closed. -/
def Call.LeavesNothing (l : Log) : Call → Prop
  | .append a _ => ∀ recordType payload, a.encode grow = .ok (recordType, payload) →
      l.Rolls (encodeFrame crc recordType payload).length → l.pendingRecords = 0
  | .reopen => l.pendingRecords = 0
  | _ => True

def Event.Returns (l : Log) (e : Event) : Prop := ∃ l', e.call.exec crc grow e.faults l = .ok ⟨⟩ l'

variable {crc grow}

theorem ends_exec_settled {e : Event} (h : Settled l acked) (hsafe : e.call.LeavesNothing crc grow l) :
    Ends (e.call.exec crc grow e.faults l)
      (fun _ l' => Settled l' (e.call.acknowledge l' acked) ∧
        (e.call.Syncs crc grow l → e.call ≠ .checkpoint → l'.pendingRecords = 0))
      fun l' => Settled l' acked := by
  obtain ⟨call, faults⟩ := e
  cases call with
  | append a syncWrite =>
    cases hencode : a.encode grow with
    | error e =>
      dsimp [Call.exec]
      rw [Log.append, hencode]
      exact ends_throw h
    | ok encoded =>
      obtain ⟨recordType, payload⟩ := encoded
      rw [exec_append hencode]
      refine (ends_appendFrame_settled h faults recordType payload syncWrite a.record (hsafe _ _ hencode)).mono ?_
        fun _ h => h
      rintro _ l' ⟨hl', hsync⟩
      exact ⟨hl', fun hsyncs _ => hsync (hsyncs _ _ hencode)⟩
  | flushPending =>
    refine (ends_syncPending_settled h faults.sync).mono ?_ fun _ h => h
    rintro _ l' ⟨hl', hpending⟩
    exact ⟨hl', fun _ _ => hpending⟩
  | checkpoint =>
    refine (ends_checkpoint_settled h faults).mono ?_ fun _ h => h
    intro _ l' hl'
    exact ⟨hl', fun _ hne => absurd rfl hne⟩
  | reopen =>
    refine ends_modify ⟨settled_openDir _ fun a ha => ?_, fun hsyncs => hsyncs.elim⟩
    exact ⟨h.written a ha, h.pending hsafe a ha⟩

theorem settled_run (hsafe : ∀ before e, before ++ [e] <+: events →
      e.call.LeavesNothing crc grow (runOn crc grow opts files before).log) :
    Settled (runOn crc grow opts files events).log (runOn crc grow opts files events).acked := by
  induction events using List.reverseRecOn with
  | nil => exact settled_openDir opts fun a ha => absurd ha not_mem_nil
  | append_singleton events e ih =>
    have hbefore := ih fun before e' hb => hsafe before e' (hb.trans (List.prefix_append _ _))
    rw [runOn, History.run_append]
    refine step_of_ends (P := fun h => Settled h.log h.acked)
      (ends_exec_settled hbefore (hsafe events e (List.prefix_refl _))) ?_ ?_
    · exact fun l h => h.1
    · exact fun l h => h

/-- Whenever a call that syncs returns without an error, the records that were appended before it and with it and
are not checkpointed are on stable storage. -/
def DurableWhenSynced (crc : Bytes → UInt32) (grow : Nat → Nat → Nat) (opts : Options) (files : List SegmentFile)
    (events : List Event) : Prop :=
  ∀ before e, before ++ [e] <+: events → e.call.Syncs crc grow (runOn crc grow opts files before).log →
    e.Returns crc grow (runOn crc grow opts files before).log →
    ∀ a ∈ (runOn crc grow opts files (before ++ [e])).acked,
      Durable (runOn crc grow opts files (before ++ [e])).log a

theorem durableWhenSynced_of_leavesNothing {opts : Options} {files : List SegmentFile} {events : List Event}
    (hsafe : ∀ before e, before ++ [e] <+: events →
      e.call.LeavesNothing crc grow (runOn crc grow opts files before).log) :
    DurableWhenSynced crc grow opts files events := by
  intro before e hbegins hsyncs hreturns
  have hbefore : Settled (runOn crc grow opts files before).log (runOn crc grow opts files before).acked :=
    settled_run fun b e' hb => hsafe b e' (hb.trans ((List.prefix_append _ _).trans hbegins))
  have hends := ends_exec_settled hbefore (hsafe before e hbegins)
  obtain ⟨l', hok⟩ := hreturns
  rw [hok] at hends
  obtain ⟨hsettled, hpending⟩ := hends
  rw [runOn, History.run_append, ← runOn, History.step, hok]
  by_cases hcheckpoint : e.call = .checkpoint
  · rw [hcheckpoint]
    simp [Call.acknowledge]
  · exact hsettled.pending (hpending hsyncs hcheckpoint)

def smallOptions : Options := ⟨false, 40, 0, 0⟩

def emptyTombstone : Tombstone := ⟨[], [], 0, 0, 0⟩

def unsyncedRoll : List Event :=
  [⟨.append (.tombstones [emptyTombstone]) false, noFaults⟩, ⟨.append (.tombstones [emptyTombstone]) true, noFaults⟩]

theorem unsyncedRoll_not_durable : ¬ DurableWhenSynced crc32c growExactly smallOptions [] unsyncedRoll := by
  intro h
  have hlast := h [⟨.append (.tombstones [emptyTombstone]) false, noFaults⟩]
    ⟨.append (.tombstones [emptyTombstone]) true, noFaults⟩ (List.prefix_refl _) (fun _ _ _ => rfl) ⟨_, rfl⟩
  revert hlast
  decide +kernel

def syncedRoll : List Event :=
  [⟨.append (.tombstones [emptyTombstone]) false, noFaults⟩, ⟨.flushPending, noFaults⟩,
    ⟨.append (.tombstones [emptyTombstone]) true, noFaults⟩]

theorem durableWhenSynced_syncedRoll :
    (runOn crc32c growExactly smallOptions [] syncedRoll).acked.map Ack.number = [1, 2] ∧
      DurableWhenSynced crc32c growExactly smallOptions [] syncedRoll := by
  refine ⟨by decide +kernel, durableWhenSynced_of_leavesNothing (forall_prefix_concat fun i hi => ?_)⟩
  have hlen : i < 3 := hi
  rcases i with _ | _ | _ | i
  · intro recordType payload hencode hrolls
    rfl
  · trivial
  · intro recordType payload hencode hrolls
    decide +kernel
  · omega

end Run

end Mts.Wal
