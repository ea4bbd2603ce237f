import Mts.Wal.Segment

/-! Runs of the log: calls one after another, each with its faults, and the records whose appends returned
without an error. Without faults a replay gives back what was appended since the last checkpoint. -/

namespace Mts.Wal
open Lib Model List

variable {payload : Bytes} {recordType : UInt8} {f : Frame} {contents : List Content} {faults : Faults}
  {tail : Bytes} {l : Log}

/-- The same points and tombstones; the fields of a point come back in the order of the schema. -/
structure SameRecord (r r' : Record) : Prop where
  points : List.Forall₂ SamePoint r.points r'.points
  tombstones : r.tombstones = r'.tombstones

/-- What is appended; the capacity of the scratch buffer is that of an earlier payload. -/
inductive Append
  | points (scratch : Nat) (points : List ResolvedPoint)
  | typed (b : SequencedBatch) (rows : List Int)
  | tombstones (tombstones : List Tombstone)

variable {a : Append}

inductive Call
  | append (a : Append) (syncWrite : Bool)
  | flushPending
  | checkpoint
  | reopen

structure Event where
  call : Call
  faults : Faults

/-- A record whose append has returned without an error, and where its frame ends. -/
structure Ack where
  record : Record
  number : Nat
  stop : Nat

structure History where
  log : Log
  acked : List Ack

variable {h : History}

def Append.record : Append → Record
  | .points _ ps => ⟨ps, []⟩
  | .typed b rows => ⟨resolvedPointsFromTypedBatch b rows, []⟩
  | .tombstones ts => ⟨[], ts⟩

def Log.openSize (l : Log) : Nat := fileSize (segmentName l.segment) l.files

section Running
variable (crc : Bytes → UInt32) (grow : Nat → Nat → Nat)

def Append.encode : Append → Except LogError (UInt8 × Bytes)
  | .points scratch ps =>
    match encodeBatchInto grow scratch ps with
    | .error _ => .error .encodeRecord
    | .ok payload => .ok (recordWriteBatch, payload)
  | .typed b rows =>
    match encodeTypedBatchInto b rows with
    | .error _ => .error .encodeTyped
    | .ok payload => .ok (recordWriteBatch, payload)
  | .tombstones ts => .ok (recordTombstone, encodeTombstones ts)

/-- `Append`, `AppendTyped` and `AppendTombstones`. -/
def Log.append (faults : Faults) (a : Append) (syncWrite : Bool) : LogM Unit :=
  match a.encode grow with
  | .error e => throw e
  | .ok (recordType, payload) => Log.appendFrame crc faults recordType payload syncWrite

def Call.exec (faults : Faults) : Call → LogM Unit
  | .append a syncWrite => Log.append crc grow faults a syncWrite
  | .flushPending => Log.syncPending faults.sync
  | .checkpoint => Log.checkpoint crc faults
  | .reopen => modify fun l => Log.openDir crc l.opts l.files

def Call.acknowledge (call : Call) (l : Log) (acked : List Ack) : List Ack :=
  match call with
  | .append a _ => acked ++ [⟨a.record, l.segment, l.openSize⟩]
  | .checkpoint => []
  | _ => acked

def History.step (h : History) (e : Event) : History :=
  match e.call.exec crc grow e.faults h.log with
  | .ok _ l => ⟨l, e.call.acknowledge l h.acked⟩
  | .error _ l => ⟨l, h.acked⟩

def History.run (h : History) (events : List Event) : History := events.foldl (History.step crc grow) h

def runOn (opts : Options) (files : List SegmentFile) (events : List Event) : History :=
  History.run crc grow ⟨Log.openDir crc opts files, []⟩ events

def runNew (opts : Options) (events : List Event) : History := runOn crc grow opts [] events

def withoutFaults (calls : List Call) : List Event := calls.map fun call => ⟨call, noFaults⟩

/-- A batch that cannot be encoded is not appended. -/
def Call.since (records : List Record) : Call → List Record
  | .append a _ =>
    match a.encode grow with
    | .ok _ => records ++ [a.record]
    | .error _ => records
  | .checkpoint => []
  | _ => records

def appendedSince (calls : List Call) : List Record := calls.foldl (Call.since grow) []

theorem History.run_append (h : History) (events : List Event) (e : Event) :
    h.run crc grow (events ++ [e]) = (h.run crc grow events).step crc grow e := by
  rw [History.run, foldl_append]
  rfl

end Running

section Frames
variable (grow : Nat → Nat → Nat)

def Append.RoundTrips : Append → Prop
  | .points scratch ps => ∀ payload, encodeBatchInto grow scratch ps = .ok payload →
      ∃ decoded, decodeBatch payload = .ok decoded ∧ List.Forall₂ SamePoint decoded ps
  | .typed b rows => ∀ payload, encodeTypedBatchInto b rows = .ok payload →
      ∃ decoded, decodeBatch payload = .ok decoded ∧
        List.Forall₂ SamePoint decoded (resolvedPointsFromTypedBatch b rows)
  | .tombstones _ => True

def Append.Fits (a : Append) : Prop :=
  ∀ recordType payload, a.encode grow = .ok (recordType, payload) → 1 + payload.length + 4 < 2 ^ 32

variable {grow}

theorem decodeFramePayload_batch (h : decodeBatch payload = .ok decoded) :
    decodeFramePayload recordWriteBatch payload = .ok ⟨decoded, []⟩ := by
  rw [decodeFramePayload, if_pos rfl, h]

theorem Append.exists_frame (hround : a.RoundTrips grow) (hfits : a.Fits grow)
    (h : a.encode grow = .ok (recordType, payload)) :
    ∃ f : Frame, f.recordType = recordType ∧ f.payload = payload ∧ SameRecord f.record a.record := by
  have hsized := hfits _ _ h
  cases a with
  | points scratch ps =>
    rw [Append.encode] at h
    split at h
    · simp at h
    · next bytes hencode =>
      cases h
      obtain ⟨decoded, hdecode, hsame⟩ := hround _ hencode
      exact ⟨⟨_, _, _, decodeFramePayload_batch hdecode, hsized⟩, rfl, rfl, hsame, rfl⟩
  | typed b rows =>
    rw [Append.encode] at h
    split at h
    · simp at h
    · next bytes hencode =>
      cases h
      obtain ⟨decoded, hdecode, hsame⟩ := hround _ hencode
      exact ⟨⟨_, _, _, decodeFramePayload_batch hdecode, hsized⟩, rfl, rfl, hsame, rfl⟩
  | tombstones ts =>
    cases h
    have hint : IntSized (encodeTombstones ts).length := by
      unfold IntSized
      omega
    exact ⟨⟨_, _, _, decodeFramePayload_tombstones hint, hsized⟩, rfl, rfl, List.Forall₂.nil, rfl⟩

end Frames

section Placed
variable (crc : Bytes → UInt32)

structure Placed where
  frame : Frame
  number : Nat
  stop : Nat

def placedFrom (number : Nat) : Nat → List Frame → List Placed
  | _, [] => []
  | offset, f :: frames =>
    ⟨f, number, offset + (f.bytes crc).length⟩ :: placedFrom number (offset + (f.bytes crc).length) frames

def placed (contents : List Content) : List Placed :=
  contents.flatMap fun c => placedFrom crc c.number walSegmentHeaderLen c.frames

theorem placedFrom_append (number offset : Nat) (frames frames' : List Frame) :
    placedFrom crc number offset (frames ++ frames') = placedFrom crc number offset frames ++
      placedFrom crc number (offset + (frameBytes crc frames).length) frames' := by
  induction frames generalizing offset with
  | nil => simp [placedFrom]
  | cons g frames ih =>
    rw [cons_append, placedFrom, ih, placedFrom, cons_append, frameBytes_cons, length_append, Nat.add_assoc]

theorem placed_append_frame (init : List Content) (number : Nat) (frames : List Frame) (f : Frame) :
    placed crc (init ++ [⟨number, frames ++ [f], []⟩]) = placed crc (init ++ [⟨number, frames, []⟩]) ++
      [⟨f, number, (segmentBytes crc (frames ++ [f]) []).length⟩] := by
  have hlen : (segmentBytes crc (frames ++ [f]) []).length =
      walSegmentHeaderLen + (frameBytes crc (frames ++ [f])).length := by
    rw [segmentBytes, length_append, length_segmentHeader, append_nil]
  rw [placed, placed, flatMap_append, flatMap_append, flatMap_singleton, flatMap_singleton,
    placedFrom_append, hlen, append_assoc, frameBytes_append, length_append]
  simp [placedFrom, Nat.add_assoc]

theorem placed_append_empty (init : List Content) (number : Nat) :
    placed crc (init ++ [⟨number, [], []⟩]) = placed crc init := by
  rw [placed, flatMap_append]
  exact append_nil _

theorem map_record_placed (contents : List Content) :
    (placed crc contents).map (fun p => p.frame.record) = recordsOf contents := by
  have hfrom : ∀ number offset frames,
      (placedFrom crc number offset frames).map (fun p => p.frame.record) = frames.map Frame.record := by
    intro number offset frames
    induction frames generalizing offset with
    | nil => rfl
    | cons f frames ih => rw [placedFrom, map_cons, ih, map_cons]
  rw [placed, map_flatMap, recordsOf]
  exact congrArg (List.flatMap · contents) (funext fun c => hfrom _ _ _)

/-- The record of the frame is the acknowledged one and stands where it was acknowledged. -/
structure Matches (a : Ack) (p : Placed) : Prop where
  record : SameRecord p.frame.record a.record
  number : a.number = p.number
  stop : a.stop = p.stop

end Placed

section Steps
variable {crc : Bytes → UInt32} {init : List Content} {last : Content} {l : Log}

theorem Holds.congr (h : Holds crc l init last) (hnumber : last'.number = last.number)
    (hdata : last'.data crc = last.data crc) : Holds crc l init last' := by
  have hentry : last'.entry crc = last.entry crc := by rw [Content.entry, Content.entry, hnumber, hdata]
  refine ⟨⟨?_, ?_⟩, h.segment.trans hnumber.symm, h.handle⟩
  · rw [h.stores.entries, map_append, map_append, map_singleton, map_singleton, hentry]
  · have hord := h.stores.ordered
    rw [pairwise_append] at hord ⊢
    refine ⟨hord.1, pairwise_singleton .., fun a ha b hb => ?_⟩
    rw [mem_singleton.mp hb, hnumber]
    exact hord.2.2 a ha last (mem_singleton_self _)

theorem Holds.openSize (h : Holds crc l init last) (hnum : last.number < 10 ^ 20) :
    l.openSize = (last.data crc).length := by
  rw [Log.openSize, h.segment]
  exact stores_fileSize h.stores hnum

/-- Segments that are read to their end and a last one with the bytes `tail` behind its frames. -/
structure Torn (crc : Bytes → UInt32) (l : Log) (contents : List Content) (tail : Bytes) : Prop where
  holds : ∃ init last, contents = init ++ [last] ∧ Holds crc l init last ∧ (∀ c ∈ init, c.Ended crc) ∧ last.tail = tail

theorem Holds.whole_frame (h : Holds crc l init (last.extend (f.bytes crc))) (hnum : last.number < 10 ^ 20)
    (hinit : ∀ c ∈ init, c.Ended crc) (hlast : last.tail = []) :
    ∃ contents, Torn crc l contents [] ∧
      placed crc contents = placed crc (init ++ [last]) ++ [⟨f, l.segment, l.openSize⟩] := by
  have hdata : (⟨last.number, last.frames ++ [f], []⟩ : Content).data crc = (last.extend (f.bytes crc)).data crc := by
    simp [Content.data, Content.extend, segmentBytes, hlast]
  have hholds : Holds crc l init ⟨last.number, last.frames ++ [f], []⟩ := h.congr rfl hdata
  refine ⟨init ++ [⟨last.number, last.frames ++ [f], []⟩], ⟨_, _, rfl, hholds, hinit, rfl⟩, ?_⟩
  have hcontent : last = ⟨last.number, last.frames, []⟩ := by rw [← hlast]
  rw [placed_append_frame, ← hcontent, hholds.segment, hholds.openSize hnum]
  rfl

theorem placed_extend (bytes : Bytes) : placed crc (init ++ [last.extend bytes]) = placed crc (init ++ [last]) := by
  simp only [placed, flatMap_append, flatMap_singleton, Content.extend]

theorem rolledTo_whole (hinit : ∀ c ∈ init, c.Ended crc) (hlast : last.Ended crc)
    (hroom : last.tail = [] ∨ l.Rolls frameSize) :
    (∀ c ∈ (rolledTo l frameSize init last).1, c.Ended crc) ∧ (rolledTo l frameSize init last).2.tail = [] ∧
      placed crc ((rolledTo l frameSize init last).1 ++ [(rolledTo l frameSize init last).2]) =
        placed crc (init ++ [last]) := by
  rw [rolledTo]
  split
  · exact ⟨forall_mem_append.mpr ⟨hinit, by simpa using hlast⟩, rfl, placed_append_empty ..⟩
  · next hstays => exact ⟨hinit, hroom.resolve_right hstays, rfl⟩

theorem writtenOf_cases (fault : Option Nat) (frame : Bytes) :
    writtenOf fault frame = frame ∨ ∃ k < frame.length, fault = some k ∧ writtenOf fault frame = frame.take k := by
  cases fault with
  | none => exact .inl rfl
  | some k =>
    by_cases hk : k < frame.length
    · exact .inr ⟨k, hk, rfl, rfl⟩
    · exact .inl (take_of_length_le (by omega))

theorem Torn.ends_append (h : Torn crc l contents tail) (hended : readFrame crc tail = .error .eof)
    (hroom : tail = [] ∨ l.Rolls (f.bytes crc).length) (hnum : l.segment < 10 ^ 6)
    (hclose : faults.close = false) (hopen : faults.opening = .none) (syncWrite : Bool) :
    Ends (Log.appendFrame crc faults f.recordType f.payload syncWrite l)
      (fun _ l' => ∃ contents', Torn crc l' contents' [] ∧
        placed crc contents' = placed crc contents ++ [⟨f, l'.segment, l'.openSize⟩])
      fun l' => (faults.write ≠ none ∨ faults.sync = true) ∧
        ((∃ contents', Torn crc l' contents' [] ∧
          placed crc contents' = placed crc contents ++ [⟨f, l'.segment, l'.openSize⟩]) ∨
        ∃ k < (f.bytes crc).length, faults.write = some k ∧
          ∃ contents', Torn crc l' contents' ((f.bytes crc).take k) ∧ placed crc contents' = placed crc contents) := by
  obtain ⟨init, last, rfl, hholds, hinit, rfl⟩ := h
  rw [hholds.segment] at hnum
  obtain ⟨hinit', hlast', hplaced⟩ := rolledTo_whole hinit hended hroom
  generalize hsegments : rolledTo l (f.bytes crc).length init last = segments at hinit' hlast' hplaced
  have hnum' : segments.2.number < 10 ^ 20 := by
    rw [← hsegments, rolledTo]
    split <;> dsimp only <;> omega
  rw [← hplaced]
  refine (ends_appendFrame hholds hnum hclose hopen f.recordType f.payload syncWrite segments hsegments.symm).mono ?_ ?_
  · rintro _ l' ⟨-, hl'⟩
    exact hl'.whole_frame hnum' hinit' hlast'
  · rintro l' ⟨hfault, hl'⟩
    refine ⟨hfault, ?_⟩
    rcases writtenOf_cases faults.write (f.bytes crc) with hall | ⟨k, hk, hwrite, hpart⟩
    · left
      change Holds crc l' segments.1 (segments.2.extend (writtenOf faults.write (f.bytes crc))) at hl'
      rw [hall] at hl'
      exact hl'.whole_frame hnum' hinit' hlast'
    · right
      change Holds crc l' segments.1 (segments.2.extend (writtenOf faults.write (f.bytes crc))) at hl'
      rw [hpart] at hl'
      refine ⟨k, hk, hwrite, _, ⟨_, _, rfl, hl', hinit', ?_⟩, placed_extend _⟩
      rw [Content.extend, hlast', nil_append]

end Steps

section Recorded
variable {crc : Bytes → UInt32} {grow : Nat → Nat → Nat} {syncWrite : Bool}

theorem exec_append (h : a.encode grow = .ok (recordType, payload)) (syncWrite : Bool) :
    Call.exec crc grow faults (.append a syncWrite) = Log.appendFrame crc faults recordType payload syncWrite := by
  dsimp [Call.exec]
  rw [Log.append, h]

theorem step_of_ends {Q E : Log → Prop} {P : History → Prop}
    (hends : Ends (e.call.exec crc grow e.faults h.log) (fun _ l => Q l) E)
    (hok : ∀ l, Q l → P ⟨l, e.call.acknowledge l h.acked⟩) (herror : ∀ l, E l → P ⟨l, h.acked⟩) :
    P (h.step crc grow e) := by
  unfold History.step
  cases hr : e.call.exec crc grow e.faults h.log with
  | ok _ l =>
    rw [hr] at hends
    exact hok l hends
  | error _ l =>
    rw [hr] at hends
    exact herror l hends

def Recorded (crc : Bytes → UInt32) (h : History) : Prop :=
  ∃ contents, Torn crc h.log contents [] ∧ List.Forall₂ Matches h.acked (placed crc contents)

theorem recorded_new (opts : Options) : Recorded crc ⟨Log.openDir crc opts [], []⟩ :=
  ⟨_, ⟨[], ⟨1, [], []⟩, rfl, openDir_nil opts, by simp, rfl⟩, List.Forall₂.nil⟩

theorem forall₂_acknowledge (h : List.Forall₂ Matches acked ps) (hsame : SameRecord f.record a.record) :
    List.Forall₂ Matches (acked ++ [⟨a.record, l.segment, l.openSize⟩]) (ps ++ [⟨f, l.segment, l.openSize⟩]) :=
  rel_append h (.cons ⟨hsame, rfl, rfl⟩ .nil)

def RecordedAfter (crc : Bytes → UInt32) (grow : Nat → Nat → Nat) (call : Call) (h h' : History) : Prop :=
  h'.log.segment < 10 ^ 6 →
    Recorded crc h' ∧ h'.acked.map Ack.record = call.since grow (h.acked.map Ack.record)

theorem step_of_encode_error (hencode : a.encode grow = .error e) :
    h.step crc grow ⟨.append a syncWrite, faults⟩ = h := by
  rw [History.step]
  dsimp [Call.exec]
  rw [Log.append, hencode]
  rfl

def encodedRecord (grow : Nat → Nat → Nat) (a : Append) : List Record :=
  match a.encode grow with
  | .ok _ => [a.record]
  | .error _ => []

theorem recorded_append_torn (syncWrite : Bool) (htorn : Torn crc h.log contents tail)
    (hended : readFrame crc tail = .error .eof) (hmatch : List.Forall₂ Matches h.acked (placed crc contents))
    (hencode : a.encode grow = .ok (f.recordType, f.payload)) (hsame : SameRecord f.record a.record)
    (hroom : tail = [] ∨ h.log.Rolls (f.bytes crc).length) (hnum : h.log.segment < 10 ^ 6) :
    ∃ contents', Torn crc (h.step crc grow ⟨.append a syncWrite, noFaults⟩).log contents' [] ∧
      List.Forall₂ Matches (h.step crc grow ⟨.append a syncWrite, noFaults⟩).acked (placed crc contents') ∧
      (h.step crc grow ⟨.append a syncWrite, noFaults⟩).acked.map Ack.record =
        h.acked.map Ack.record ++ encodedRecord grow a := by
  have hends : Ends (Call.exec crc grow noFaults (.append a syncWrite) h.log)
      (fun _ l' => ∃ contents', Torn crc l' contents' [] ∧
        placed crc contents' = placed crc contents ++ [⟨f, l'.segment, l'.openSize⟩]) fun _ => False := by
    rw [exec_append hencode]
    refine (htorn.ends_append hended hroom hnum rfl rfl syncWrite).mono (fun _ _ h => h) ?_
    rintro l' ⟨hfault, -⟩
    simp [noFaults] at hfault
  refine step_of_ends (P := fun h' => ∃ contents', Torn crc h'.log contents' [] ∧
    List.Forall₂ Matches h'.acked (placed crc contents') ∧
    h'.acked.map Ack.record = h.acked.map Ack.record ++ encodedRecord grow a) hends ?_ fun _ hfalse => hfalse.elim
  rintro l' ⟨contents', htorn', hplaced⟩
  refine ⟨contents', htorn', ?_, ?_⟩
  · rw [hplaced]
    exact forall₂_acknowledge hmatch hsame
  · rw [encodedRecord, hencode]
    exact map_append

theorem since_append (records : List Record) (a : Append) (syncWrite : Bool) :
    Call.since grow records (.append a syncWrite) = records ++ encodedRecord grow a := by
  rw [Call.since, encodedRecord]
  cases a.encode grow <;> simp

theorem recorded_append (htorn : Torn crc h.log contents [])
    (hmatch : List.Forall₂ Matches h.acked (placed crc contents)) (hround : a.RoundTrips grow)
    (hfits : a.Fits grow) (hnum : h.log.segment < 10 ^ 6) :
    RecordedAfter crc grow (.append a syncWrite) h (h.step crc grow ⟨.append a syncWrite, noFaults⟩) := by
  intro _
  rw [since_append]
  cases hencode : a.encode grow with
  | error e =>
    rw [step_of_encode_error hencode, encodedRecord, hencode]
    exact ⟨⟨contents, htorn, hmatch⟩, (append_nil _).symm⟩
  | ok encoded =>
    obtain ⟨recordType, payload⟩ := encoded
    obtain ⟨f, rfl, rfl, hsame⟩ := Append.exists_frame hround hfits hencode
    obtain ⟨contents', htorn', hmatch', hrecords⟩ :=
      recorded_append_torn syncWrite htorn (readFrame_nil crc) hmatch hencode hsame (.inl rfl) hnum
    exact ⟨⟨contents', htorn', hmatch'⟩, hrecords⟩

theorem recorded_step (hrec : Recorded crc h)
    (hsound : ∀ a syncWrite, call = .append a syncWrite → a.RoundTrips grow ∧ a.Fits grow)
    (hnum : h.log.segment < 10 ^ 6) : RecordedAfter crc grow call h (h.step crc grow ⟨call, noFaults⟩) := by
  obtain ⟨contents, htorn, hmatch⟩ := hrec
  cases call with
  | append a syncWrite =>
    obtain ⟨hround, hfits⟩ := hsound a syncWrite rfl
    exact recorded_append htorn hmatch hround hfits hnum
  | flushPending =>
    obtain ⟨init, last, rfl, hholds, hinit, hlast⟩ := htorn
    rw [hholds.segment] at hnum
    refine step_of_ends (ends_syncPending hholds (by omega)) ?_ fun _ h => h.elim
    intro l' hl' _
    exact ⟨⟨_, ⟨_, _, rfl, hl', hinit, hlast⟩, hmatch⟩, rfl⟩
  | checkpoint =>
    obtain ⟨init, last, rfl, hholds, hinit, hlast⟩ := htorn
    rw [hholds.segment] at hnum
    refine step_of_ends (ends_checkpoint hholds (by omega)) ?_ fun _ h => h.elim
    rintro _ ⟨opened, hopened, rfl⟩ hnum'
    have hsegment : last.number + 1 < 10 ^ 6 := by
      have : opened.segment < 10 ^ 6 := hnum'
      rwa [hopened.segment] at this
    refine ⟨⟨_, ⟨_, _, rfl, holds_removeCheckpointed hopened hsegment, by simp, rfl⟩, List.Forall₂.nil⟩, rfl⟩
  | reopen =>
    obtain ⟨init, last, rfl, hholds, hinit, hlast⟩ := htorn
    rw [hholds.segment] at hnum
    intro _
    exact ⟨⟨_, ⟨_, _, rfl, openDir_stores _ hholds.stores hnum, hinit, hlast⟩, hmatch⟩, rfl⟩

/-- The appends of the calls can be decoded and their frames have room for their length. -/
def AppendsSound (grow : Nat → Nat → Nat) (calls : List Call) : Prop :=
  ∀ a syncWrite, .append a syncWrite ∈ calls → a.RoundTrips grow ∧ a.Fits grow

/-- At no time there are more segments than the names can number. -/
def NumberedFrom (crc : Bytes → UInt32) (grow : Nat → Nat → Nat) (h : History) (events : List Event) : Prop :=
  ∀ before, before <+: events → (h.run crc grow before).log.segment < 10 ^ 6

def SegmentsNumbered (crc : Bytes → UInt32) (grow : Nat → Nat → Nat) (opts : Options) (events : List Event) : Prop :=
  ∀ before, before <+: events → (runNew crc grow opts before).log.segment < 10 ^ 6

theorem recorded_run (hrec : Recorded crc h) (hsound : AppendsSound grow calls)
    (hnum : NumberedFrom crc grow h (withoutFaults calls)) :
    Recorded crc (h.run crc grow (withoutFaults calls)) ∧
      (h.run crc grow (withoutFaults calls)).acked.map Ack.record =
        calls.foldl (Call.since grow) (h.acked.map Ack.record) := by
  induction calls using List.reverseRecOn with
  | nil => exact ⟨hrec, rfl⟩
  | append_singleton calls call ih =>
    have hsplit : withoutFaults (calls ++ [call]) = withoutFaults calls ++ [⟨call, noFaults⟩] := map_append
    rw [hsplit] at hnum
    obtain ⟨hrec, hacked⟩ := ih (fun a s ha => hsound a s (mem_append_left _ ha))
      fun before hb => hnum before (hb.trans (List.prefix_append _ _))
    have hafter := hnum _ (List.prefix_refl _)
    rw [hsplit, History.run_append] at *
    obtain ⟨hrec', hacked'⟩ := recorded_step hrec
      (fun a s ha => hsound a s (mem_append_right _ (by rw [ha]; exact mem_singleton_self _)))
      (hnum _ (List.prefix_append _ _)) hafter
    refine ⟨hrec', ?_⟩
    rw [hacked', hacked, foldl_append]
    rfl

theorem Torn.replayRecords (h : Torn crc l contents tail) (hended : readFrame crc tail = .error .eof)
    (hnum : l.segment < 10 ^ 6) : Log.replayRecords crc l = .ok (recordsOf contents) l := by
  obtain ⟨init, last, rfl, hholds, hinit, rfl⟩ := h
  rw [hholds.segment] at hnum
  rw [replayRecords_stores hholds.stores hnum hinit, replaySegment_ended hended]
  rw [recordsOf, recordsOf, flatMap_append, flatMap_singleton]
  rfl

theorem Recorded.replayRecords (hrec : Recorded crc h) (hnum : h.log.segment < 10 ^ 6) :
    ∃ records l, Log.replayRecords crc h.log = .ok records l ∧
      List.Forall₂ SameRecord records (h.acked.map Ack.record) := by
  obtain ⟨contents, htorn, hmatch⟩ := hrec
  refine ⟨_, _, htorn.replayRecords (readFrame_nil crc) hnum, ?_⟩
  rw [← map_record_placed crc, forall₂_map_left_iff, forall₂_map_right_iff]
  exact hmatch.flip.imp fun p a h => h.record

/-- A replay after the calls returns what was appended since the last checkpoint, in order. -/
def ReplaysAppended (crc : Bytes → UInt32) (grow : Nat → Nat → Nat) (opts : Options) (calls : List Call) : Prop :=
  ∃ records l, Log.replayRecords crc (runNew crc grow opts (withoutFaults calls)).log = .ok records l ∧
    List.Forall₂ SameRecord records (appendedSince grow calls)

theorem replaysAppended_of_fits {opts : Options} {calls : List Call}
    (hround : ∀ a syncWrite, .append a syncWrite ∈ calls → a.RoundTrips grow)
    (hnum : SegmentsNumbered crc grow opts (withoutFaults calls))
    (hfits : ∀ a syncWrite, .append a syncWrite ∈ calls → a.Fits grow) : ReplaysAppended crc grow opts calls := by
  obtain ⟨hrec, hacked⟩ := recorded_run (recorded_new opts) (fun a s h => ⟨hround a s h, hfits a s h⟩) hnum
  change _ = appendedSince grow calls at hacked
  rw [ReplaysAppended, ← hacked]
  exact hrec.replayRecords (hnum _ (List.prefix_refl _))

end Recorded

section Refinement
variable {crc : Bytes → UInt32} {opts : LogOptions} {init : List Content} {last : Content}

def segmentsOf (contents : List Content) : List Segment := contents.map fun c => ⟨c.number, c.frames.map Frame.record⟩

theorem replayRecords_segmentsOf (contents : List Content) : replayRecords (segmentsOf contents) = recordsOf contents := by
  rw [replayRecords, segmentsOf, flatMap_map]
  rfl

/-- The log on its directory is the log of these records; the options tell the length of each frame. -/
structure Refines (crc : Bytes → UInt32) (opts : LogOptions) (l : Log) (contents : List Content) : Prop where
  torn : Torn crc l contents []
  size : ∀ init last, contents = init ++ [last] → l.size = (last.data crc).length
  limit : l.opts.segmentBytes = opts.segmentBytes
  lengths : ∀ c ∈ contents, ∀ f ∈ c.frames, (f.bytes crc).length = opts.frameLen f.record

theorem refines_new (h : (Log.fresh o []).opts.segmentBytes = opts.segmentBytes) :
    Refines crc opts (Log.openDir crc o []) [⟨1, [], []⟩] ∧ segmentsOf [⟨1, [], []⟩] = openLastSegment [] := by
  obtain ⟨⟨hopts, hsize⟩, hholds⟩ := (openDir_nil_spec o : _ ∧ Holds crc _ _ _)
  refine ⟨⟨⟨[], _, rfl, hholds, by simp, rfl⟩, ?_, by rw [hopts, h], by simp⟩, rfl⟩
  intro init last heq
  have hlast := congrArg getLast? heq
  rw [getLast?_concat] at hlast
  obtain rfl := Option.some.inj hlast
  rfl

theorem refines_write (hholds : Holds crc l init (last.extend (f.bytes crc))) (hinit : ∀ c ∈ init, c.Ended crc)
    (htail : last.tail = []) (hsize : l.size = (last.data crc).length + (f.bytes crc).length)
    (hlimit : l.opts.segmentBytes = opts.segmentBytes)
    (hlengths : ∀ c ∈ init ++ [last], ∀ g ∈ c.frames, (g.bytes crc).length = opts.frameLen g.record)
    (hlength : (f.bytes crc).length = opts.frameLen f.record) :
    Refines crc opts l (init ++ [⟨last.number, last.frames ++ [f], []⟩]) := by
  have hdata : Content.data crc ⟨last.number, last.frames ++ [f], []⟩ = (last.extend (f.bytes crc)).data crc := by
    simp [Content.data, Content.extend, segmentBytes, htail]
  rw [forall_mem_append, forall_mem_singleton] at hlengths
  refine ⟨⟨init, _, rfl, hholds.congr rfl hdata, hinit, rfl⟩, ?_, hlimit, ?_⟩
  · intro init' last' heq
    obtain ⟨-, hlast⟩ := append_inj' heq rfl
    rw [← singleton_inj.mp hlast, hdata, hsize]
    simp [Content.data, Content.extend, segmentBytes, Nat.add_assoc]
  · rw [forall_mem_append, forall_mem_singleton, forall_mem_append, forall_mem_singleton]
    exact ⟨hlengths.1, hlengths.2, hlength⟩

theorem appendRecord_concat (opts : LogOptions) (r : Record) (segments : List Segment) (last : Segment) :
    appendRecord opts r (segments ++ [last]) = segments ++ appendRecord opts r [last] := by
  induction segments with
  | nil => rfl
  | cons s segments ih =>
    cases segments with
    | nil => exact appendRecord_cons_cons opts r s last []
    | cons t segments => exact (appendRecord_cons_cons opts r s t _).trans (congrArg (s :: ·) ih)

theorem length_data_eq_size {c : Content} (htail : c.tail = [])
    (hlengths : ∀ f ∈ c.frames, (f.bytes crc).length = opts.frameLen f.record) :
    (c.data crc).length = Segment.size opts ⟨c.number, c.frames.map Frame.record⟩ := by
  have hsum : (frameBytes crc c.frames).length = ((c.frames.map Frame.record).map opts.frameLen).sum := by
    rw [frameBytes, length_flatMap, map_map]
    exact congrArg List.sum (map_congr_left hlengths)
  rw [Content.data, segmentBytes, htail, append_nil, length_append, length_segmentHeader, hsum, Segment.size]

/-- An append on the directory is an append to the log of records. -/
theorem Refines.append (h : Refines crc opts l contents) (hnum : l.segment < 10 ^ 6)
    (hlength : (f.bytes crc).length = opts.frameLen f.record) (syncWrite : Bool) :
    Ends (Log.appendFrame crc noFaults f.recordType f.payload syncWrite l)
      (fun _ l' => ∃ contents', Refines crc opts l' contents' ∧
        segmentsOf contents' = appendRecord opts f.record (segmentsOf contents)) fun _ => False := by
  obtain ⟨⟨init, last, rfl, hholds, hinit, hlast⟩, hsize, hlimit, hlengths⟩ := h
  have hlastSize := hsize init last rfl
  have hlastLengths := hlengths last (mem_append_right _ (mem_singleton_self _))
  have hrolls : l.Rolls (f.bytes crc).length ↔
      ¬ Segment.size opts ⟨last.number, last.frames.map Frame.record⟩ + opts.frameLen f.record ≤ opts.segmentBytes := by
    have hpos := last.pos_length_data crc
    rw [Log.Rolls, hlastSize, hlimit, ← length_data_eq_size hlast hlastLengths, ← hlength]
    constructor
    · exact fun hnot hle => hnot (.inr (by exact_mod_cast hle))
    · rintro hnot (hzero | hle)
      · omega
      · exact hnot (by exact_mod_cast hle)
  rw [hholds.segment] at hnum
  refine (ends_appendFrame hholds hnum rfl rfl f.recordType f.payload syncWrite _ rfl).mono ?_ ?_
  · rintro _ l' ⟨⟨-, hopts, hsize'⟩, hl'⟩
    change Holds crc l' (rolledTo l (f.bytes crc).length init last).1
      ((rolledTo l (f.bytes crc).length init last).2.extend (f.bytes crc)) at hl'
    change l'.size = (if l.Rolls (f.bytes crc).length then _ else _) + (f.bytes crc).length at hsize'
    rw [← hopts] at hlimit
    rw [segmentsOf, map_append, map_singleton, appendRecord_concat, appendRecord]
    rw [rolledTo] at hl'
    by_cases hroll : l.Rolls (f.bytes crc).length
    · rw [if_pos hroll] at hl' hsize'
      rw [if_neg (hrolls.mp hroll)]
      refine ⟨_, refines_write hl' ?_ rfl hsize' hlimit ?_ hlength, by simp [segmentsOf]⟩
      · exact forall_mem_append.mpr ⟨hinit, by simpa using ended_of_tail_nil hlast⟩
      · exact forall_mem_append.mpr ⟨hlengths, by simp⟩
    · rw [if_neg hroll, hlastSize] at hsize'
      rw [if_neg hroll] at hl'
      rw [if_pos (not_not.mp fun hnot => hroll (hrolls.mpr hnot))]
      exact ⟨_, refines_write hl' hinit hlast hsize' hlimit hlengths hlength, by simp [segmentsOf]⟩
  · rintro l' ⟨hfault, -⟩
    simp [noFaults] at hfault

theorem openNumber_appendRecord_le (r : Record) (segments : List Segment) :
    openNumber (appendRecord opts r segments) ≤ openNumber segments + 1 := by
  cases segments using List.reverseRecOn with
  | nil => exact Nat.le_succ 1
  | append_singleton segments last =>
    rw [appendRecord_concat, appendRecord]
    split <;> simp [openNumber]

theorem Refines.openNumber_eq (h : Refines crc opts l contents) : openNumber (segmentsOf contents) = l.segment := by
  obtain ⟨init, last, rfl, hholds, -⟩ := h.torn
  simp [openNumber, segmentsOf, hholds.segment]

def appendRecords (opts : LogOptions) (records : List Record) (segments : List Segment) : List Segment :=
  records.foldl (flip (appendRecord opts)) segments

theorem replayRecords_appendRecords (records : List Record) (segments : List Segment) :
    replayRecords (appendRecords opts records segments) = replayRecords segments ++ records := by
  induction records generalizing segments with
  | nil => simp [appendRecords]
  | cons r records ih => exact (ih _).trans (by simp [flip])

/-- Appends to a new log succeed, the directory is then the log of the records, and a replay returns them. -/
def AppendsRefine (crc : Bytes → UInt32) (o : Options) (opts : LogOptions) (appends : List (Frame × Bool)) : Prop :=
  let records := appends.map fun a => a.1.record
  Ends (appends.foldlM (fun _ a => Log.appendFrame crc noFaults a.1.recordType a.1.payload a.2) () (Log.openDir crc o []))
    (fun _ l => (∃ contents, Refines crc opts l contents ∧
        segmentsOf contents = appendRecords opts records (openLastSegment [])) ∧
      Log.replayRecords crc l = .ok records l) fun _ => False

theorem appendsRefine_new (hlimit : (Log.fresh o []).opts.segmentBytes = opts.segmentBytes)
    (hlength : ∀ a ∈ appends, (a.1.bytes crc).length = opts.frameLen a.1.record)
    (hcount : appends.length + 1 < 10 ^ 6) : AppendsRefine crc o opts appends := by
  obtain ⟨hnew, hsegments⟩ := (refines_new hlimit : Refines crc _ _ _ ∧ _)
  have hfirst : (Log.openDir crc o []).segment = 1 := hnew.openNumber_eq.symm
  -- an append opens at most one segment, so that the number stays in range for the appends that are left
  refine (ends_foldlM (fun rest _ l => ∃ contents, Refines crc opts l contents ∧ (∀ a ∈ rest, a ∈ appends) ∧
    l.segment + rest.length < 10 ^ 6 ∧ appendRecords opts (rest.map fun a => a.1.record) (segmentsOf contents) =
      appendRecords opts (appends.map fun a => a.1.record) (openLastSegment []))
    ⟨_, hnew, fun _ h => h, by omega, by rw [hsegments]⟩ ?_).mono ?_ fun _ h => h
  · rintro a rest - l ⟨contents, h, hmem, hnum, htarget⟩
    rw [length_cons] at hnum
    refine (h.append (by omega) (hlength a (hmem a mem_cons_self)) a.2).mono ?_ fun _ h => h
    rintro - l' ⟨contents', h', happended⟩
    have hle : openNumber (appendRecord opts a.1.record _) ≤ _ := openNumber_appendRecord_le _ (segmentsOf contents)
    rw [← happended, h'.openNumber_eq, h.openNumber_eq] at hle
    exact ⟨contents', h', fun b hb => hmem b (mem_cons_of_mem _ hb), by omega, by rwa [happended]⟩
  · rintro - l ⟨contents, h, -, hnum, htarget⟩
    refine ⟨⟨contents, h, htarget⟩, ?_⟩
    rw [h.torn.replayRecords (readFrame_nil crc) (by omega), ← replayRecords_segmentsOf, ← nil_append (map _ _),
      show segmentsOf contents = _ from htarget, replayRecords_appendRecords]
    rfl

end Refinement

section Wrapped

def repeatedTombstone (n : Nat) : Tombstone := ⟨List.replicate n 0, [], 0, 0, 0⟩

theorem length_repeatedTombstone (n : Nat) :
    (encodeTombstones [repeatedTombstone n]).length = 5 + (uvarint (UInt64.ofNat n)).length + n := by
  have hids : ((List.replicate n (0 : UInt64)).flatMap uvarint).length = n := by
    induction n with
    | zero => rfl
    | succ n ih =>
      rw [replicate_succ, flatMap_cons, length_append, ih]
      exact Nat.add_comm 1 n
  have hone : (uvarint (UInt64.ofNat 1)).length = 1 := rfl
  have hzero : (uvarint (0 : UInt64)).length = 1 := rfl
  have hvarint : (varint (0 : Int64)).length = 1 := rfl
  simp only [encodeTombstones, tombstoneBytes, repeatedTombstone, flatMap_singleton, flatMap_nil,
    length_append, length_replicate, length_nil, hids, hvarint, length_singleton]
  rw [hone, hzero, show (uvarint (UInt64.ofNat 0)).length = 1 from rfl]
  omega

theorem readFrame_wrapped (h : 1 + payload.length + 4 = 2 ^ 32) (rest : Bytes) :
    readFrame crc (encodeFrame crc recordType payload ++ rest) = .error .lengthTooSmall := by
  have hzero : UInt32.ofNat (2 ^ 32) = 0 := rfl
  rw [encodeFrame, h, hzero, append_assoc, readFrame, readFull_append (length_uint32BE _)]
  rfl

theorem holds_first_append (crc : Bytes → UInt32) (opts : Options) (syncWrite : Bool)
    (h : a.encode grow = .ok (recordType, payload)) :
    ∃ init last, Holds crc (runNew crc grow opts [⟨.append a syncWrite, noFaults⟩]).log init last ∧
      (∀ c ∈ init, c.Ended crc) ∧ last.frames = [] ∧ last.tail = encodeFrame crc recordType payload ∧
      last.number ≤ 2 := by
  have hopen : Holds crc (Log.openDir crc opts []) [] ⟨1, [], []⟩ := openDir_nil opts
  have hfaults : noFaults.close = false ∧ noFaults.opening = .none := ⟨rfl, rfl⟩
  have hends := ends_appendFrame hopen (by decide) hfaults.1 hfaults.2 recordType payload syncWrite _ rfl
  rw [← exec_append h] at hends
  refine step_of_ends (P := fun h' => ∃ init last, Holds crc h'.log init last ∧
    (∀ c ∈ init, c.Ended crc) ∧ last.frames = [] ∧ last.tail = encodeFrame crc recordType payload ∧
    last.number ≤ 2) hends ?_ ?_
  · rintro l ⟨-, hl⟩
    refine ⟨_, _, hl, ?_⟩
    have hended : (⟨1, [], []⟩ : Content).Ended crc := ended_of_tail_nil rfl
    rw [rolledTo]
    split <;> simp [Content.extend, hended]
  · rintro l ⟨hfault, -⟩
    simp [noFaults] at hfault

/-- The capacity that Go's `append` chooses has no part in these runs. -/
def growExactly (_ needed : Nat) : Nat := needed

def plainOptions : Options := ⟨false, 0, 0, 0⟩

def wrappedCalls : List Call := [.append (.tombstones [repeatedTombstone (2 ^ 32 - 15)]) false]

theorem wrappedTombstone_unreadable :
    SegmentsNumbered crc32c growExactly plainOptions (withoutFaults wrappedCalls) ∧
      ¬ ReplaysAppended crc32c growExactly plainOptions wrappedCalls := by
  have huvarint : (uvarint (UInt64.ofNat (2 ^ 32 - 15))).length = 5 := by decide
  have hlen : 1 + (encodeTombstones [repeatedTombstone (2 ^ 32 - 15)]).length + 4 = 2 ^ 32 := by
    rw [length_repeatedTombstone, huvarint]
    norm_num
  have hencode : Append.encode growExactly (.tombstones [repeatedTombstone (2 ^ 32 - 15)]) = .ok (_, _) := rfl
  obtain ⟨init, last, hholds, hinit, hframes, htail, hnumber⟩ := holds_first_append crc32c plainOptions false hencode
  have hevents : withoutFaults wrappedCalls =
      [⟨.append (.tombstones [repeatedTombstone (2 ^ 32 - 15)]) false, noFaults⟩] := rfl
  rw [ReplaysAppended, hevents]
  constructor
  · intro before hbefore
    rcases List.prefix_cons_iff.mp hbefore with rfl | ⟨rest, rfl, hrest⟩
    · have hopen : Holds crc32c (runNew crc32c growExactly plainOptions []).log [] ⟨1, [], []⟩ := openDir_nil _
      decide
    · obtain rfl := List.prefix_nil.mp hrest
      rw [hholds.segment]
      omega
  · rintro ⟨records, l, hreplay, -⟩
    have hdata : last.data crc32c = segmentBytes crc32c []
        (encodeFrame crc32c recordTombstone (encodeTombstones [repeatedTombstone (2 ^ 32 - 15)])) := by
      rw [Content.data, hframes, htail]
    have hread : readFrame crc32c (encodeFrame crc32c recordTombstone _ ++ []) = _ := readFrame_wrapped hlen []
    rw [append_nil] at hread
    have hsegment : replaySegment crc32c true (segmentBytes crc32c [] _) = _ :=
      replaySegment_of_error crc32c hread (by simp) (by simp)
    rw [replayRecords_stores hholds.stores (by omega) hinit, hdata, hsegment] at hreplay
    simp at hreplay

def interleavedCalls : List Call :=
  [.append (.tombstones [⟨[1], [], 0, 5, 3⟩]) true, .checkpoint, .append (.tombstones [⟨[1, 2], [7], -1, 9, 4⟩]) false,
    .reopen, .append (.tombstones []) false, .flushPending]

theorem replaysAppended_interleaved :
    appendedSince growExactly interleavedCalls = [⟨[], [⟨[1, 2], [7], -1, 9, 4⟩]⟩, ⟨[], []⟩] ∧
      ReplaysAppended crc32c growExactly plainOptions interleavedCalls := by
  refine ⟨rfl, replaysAppended_of_fits ?_ ?_ ?_⟩
  · intro a syncWrite h
    simp only [interleavedCalls, mem_cons, Call.append.injEq, reduceCtorEq, not_mem_nil, false_or,
      or_false] at h
    rcases h with ⟨rfl, -⟩ | ⟨rfl, -⟩ | ⟨rfl, -⟩ <;> trivial
  · have hall : ∀ before ∈ (withoutFaults interleavedCalls).inits,
        (runNew crc32c growExactly plainOptions before).log.segment < 10 ^ 6 := by decide +kernel
    exact fun before hbefore => hall before (mem_inits _ _ |>.mpr hbefore)
  · intro a syncWrite h
    simp only [interleavedCalls, mem_cons, Call.append.injEq, reduceCtorEq, not_mem_nil, false_or,
      or_false] at h
    rcases h with ⟨rfl, -⟩ | ⟨rfl, -⟩ | ⟨rfl, -⟩ <;>
    · intro recordType payload hencode
      obtain ⟨-, rfl⟩ := Prod.mk.inj (Except.ok.inj hencode)
      decide

def tombstoneFrame : Frame :=
  ⟨recordTombstone, encodeTombstones [⟨[1], [], 0, 5, 3⟩], _, decodeFramePayload_tombstones (by decide), by decide⟩

theorem appendsRefine_tombstones :
    AppendsRefine crc32c plainOptions ⟨2 ^ 26, fun _ => (tombstoneFrame.bytes crc32c).length⟩
      [(tombstoneFrame, true), (tombstoneFrame, false)] :=
  appendsRefine_new rfl (by simp) (by decide)

end Wrapped

end Mts.Wal
