import Mts.Wal.LogRun

/-! Frames that are cut off: by a write that fails, and by a crash. A log that is opened after it cuts the rest off
and goes on; one that stays open appends behind it. -/

namespace Mts.Wal
open Lib Model List

section Replay
variable {crc : Bytes → UInt32} {l : Log} {contents : List Content} {tail : Bytes}

theorem Torn.openDir (h : Torn crc l contents tail) (hnum : l.segment < 10 ^ 6) (opts : Options) :
    Torn crc (Log.openDir crc opts l.files) contents tail := by
  obtain ⟨init, last, rfl, hholds, hinit, rfl⟩ := h
  rw [hholds.segment] at hnum
  exact ⟨init, last, rfl, openDir_stores opts hholds.stores hnum, hinit, rfl⟩

theorem Torn.replayRecords_cut (h : Torn crc l contents tail) (hcut : readFrame crc tail = .error .unexpectedEOF)
    (hnum : l.segment < 10 ^ 6) :
    ∃ size contents', Log.replayRecords crc l = .ok (recordsOf contents) (l.truncate (some (segmentName l.segment, size))) ∧
      Torn crc (l.truncate (some (segmentName l.segment, size))) contents' [] ∧
      placed crc contents' = placed crc contents := by
  obtain ⟨init, last, rfl, hholds, hinit, rfl⟩ := h
  rw [hholds.segment] at hnum ⊢
  have hreplay := replayRecords_stores hholds.stores hnum hinit
  rw [Content.data, replaySegment_of_unexpectedEOF crc hcut] at hreplay
  refine ⟨(segmentBytes crc last.frames []).length, init ++ [{ last with tail := [] }], ?_, ?_, ?_⟩
  · rw [hreplay, recordsOf, recordsOf, flatMap_append, flatMap_singleton]
    rfl
  · exact ⟨init, _, rfl, ⟨stores_truncateFile hholds.stores (by omega), hholds.segment, hholds.handle⟩, hinit, rfl⟩
  · simp only [placed, flatMap_append, flatMap_singleton]

theorem Torn.replayRecords_torn (h : Torn crc l contents tail) (hnum : l.segment < 10 ^ 6)
    (hcut : readFrame crc tail = .error .eof ∨ readFrame crc tail = .error .unexpectedEOF) :
    ∃ l', Log.replayRecords crc l = .ok (recordsOf contents) l' := by
  rcases hcut with hcut | hcut
  · exact ⟨l, h.replayRecords hcut hnum⟩
  · obtain ⟨size, contents', hreplay, -⟩ := h.replayRecords_cut hcut hnum
    exact ⟨_, hreplay⟩

theorem readFrame_take_cases (f : Frame) (h : k < (f.bytes crc).length) :
    readFrame crc ((f.bytes crc).take k) = .error .eof ∨
      readFrame crc ((f.bytes crc).take k) = .error .unexpectedEOF := by
  rw [readFrame_take crc f h]
  split
  · exact .inl rfl
  · exact .inr rfl

end Replay

section Failures
variable (crc : Bytes → UInt32) (grow : Nat → Nat → Nat) {h : History}

structure Event.Appends (e : Event) : Prop where
  call : ∃ a syncWrite, e.call = .append a syncWrite ∧ a.RoundTrips grow ∧ a.Fits grow
  close : e.faults.close = false
  opening : e.faults.opening = .none

/-- A write that fails has written nothing or all of the frame. -/
def Event.LeavesWhole (e : Event) : Prop :=
  ∀ a syncWrite, e.call = .append a syncWrite → ∀ recordType payload, a.encode grow = .ok (recordType, payload) →
    ∀ written, e.faults.write = some written → written = 0 ∨ (encodeFrame crc recordType payload).length ≤ written

def Contains (h : History) (tail : Bytes) : Prop :=
  ∃ contents kept, Torn crc h.log contents tail ∧ List.Forall₂ Matches h.acked kept ∧
    kept.Sublist (placed crc contents)

def CutFrame (tail : Bytes) : Prop :=
  tail = [] ∨ ∃ (f : Frame) (k : Nat), k < (f.bytes crc).length ∧ tail = (f.bytes crc).take k

variable {crc grow}

theorem contains_step (hcontains : Contains crc h []) (happend : e.Appends grow) (hnum : h.log.segment < 10 ^ 6) :
    ∃ tail, Contains crc (h.step crc grow e) tail ∧ CutFrame crc tail ∧ (e.LeavesWhole crc grow → tail = []) := by
  obtain ⟨contents, kept, htorn, hmatch, hkept⟩ := hcontains
  obtain ⟨⟨a, syncWrite, hcall, hround, hfits⟩, hclose, hopen⟩ := happend
  obtain ⟨call, faults⟩ := e
  obtain rfl : call = .append a syncWrite := hcall
  cases hencode : a.encode grow with
  | error e =>
    rw [step_of_encode_error hencode]
    exact ⟨[], ⟨contents, kept, htorn, hmatch, hkept⟩, .inl rfl, fun _ => rfl⟩
  | ok encoded =>
    obtain ⟨recordType, payload⟩ := encoded
    obtain ⟨f, rfl, rfl, hsame⟩ := Append.exists_frame hround hfits hencode
    have hends := htorn.ends_append (readFrame_nil crc) (.inl rfl) hnum hclose hopen syncWrite (f := f)
    rw [← exec_append hencode] at hends
    refine step_of_ends (P := fun h' => ∃ tail, Contains crc h' tail ∧ CutFrame crc tail ∧
      (Event.LeavesWhole crc grow ⟨.append a syncWrite, faults⟩ → tail = [])) hends ?_ ?_
    · rintro l ⟨contents', htorn', hplaced⟩
      refine ⟨[], ⟨contents', kept ++ [_], htorn', forall₂_acknowledge hmatch hsame, ?_⟩, .inl rfl, fun _ => rfl⟩
      rw [hplaced]
      exact hkept.append_right _
    · rintro l ⟨-, ⟨contents', htorn', hplaced⟩ | ⟨k, hk, hwrite, contents', htorn', hplaced⟩⟩
      · refine ⟨[], ⟨contents', kept, htorn', hmatch, ?_⟩, .inl rfl, fun _ => rfl⟩
        rw [hplaced]
        exact hkept.trans (sublist_append_left _ _)
      · refine ⟨_, ⟨contents', kept, htorn', hmatch, hplaced ▸ hkept⟩, .inr ⟨f, k, hk, rfl⟩, fun hwhole => ?_⟩
        rcases hwhole a syncWrite rfl _ _ hencode k hwrite with rfl | hle
        · rfl
        · exact absurd hk (Nat.not_lt.mpr hle)

theorem contains_run (happend : ∀ e ∈ events, e.Appends grow)
    (hwhole : ∀ e ∈ events, e.LeavesWhole crc grow) (hnum : SegmentsNumbered crc grow opts events) :
    Contains crc (runNew crc grow opts events) [] := by
  induction events using List.reverseRecOn with
  | nil =>
    have hnew : Recorded crc ⟨Log.openDir crc opts [], []⟩ := recorded_new opts
    obtain ⟨contents, htorn, hmatch⟩ := hnew
    exact ⟨contents, _, htorn, hmatch, List.Sublist.refl _⟩
  | append_singleton events e ih =>
    have hbefore := ih (fun e' he => happend e' (mem_append_left _ he))
      (fun e' he => hwhole e' (mem_append_left _ he)) fun before hb => hnum before (hb.trans (List.prefix_append _ _))
    obtain ⟨tail, hcontains, -, htail⟩ := contains_step hbefore (happend e (by simp)) (hnum _ (List.prefix_append _ _))
    rw [runNew, runOn, History.run_append]
    rw [htail (hwhole e (by simp))] at hcontains
    exact hcontains

/-- After the log is opened again, a replay returns the acknowledged records in their order. -/
def AckedSurvive (crc : Bytes → UInt32) (grow : Nat → Nat → Nat) (opts : Options) (events : List Event) : Prop :=
  ∃ records l, Log.replayRecords crc (Log.openDir crc opts (runNew crc grow opts events).log.files) = .ok records l ∧
    List.SublistForall₂ (fun a r => SameRecord r a.record) (runNew crc grow opts events).acked records

theorem Contains.survive {tail : Bytes} (hcontains : Contains crc h tail) (hcut : CutFrame crc tail)
    (hnum : h.log.segment < 10 ^ 6) (opts : Options) :
    ∃ records l, Log.replayRecords crc (Log.openDir crc opts h.log.files) = .ok records l ∧
      List.SublistForall₂ (fun a r => SameRecord r a.record) h.acked records := by
  obtain ⟨contents, kept, htorn, hmatch, hkept⟩ := hcontains
  have hread : readFrame crc tail = .error .eof ∨ readFrame crc tail = .error .unexpectedEOF := by
    rcases hcut with rfl | ⟨f, k, hk, rfl⟩
    · exact .inl (readFrame_nil crc)
    · exact readFrame_take_cases f hk
  have hopened := htorn.openDir hnum opts
  have hsegment : (Log.openDir crc opts h.log.files).segment < 10 ^ 6 := by
    obtain ⟨init, last, rfl, hholds, -⟩ := htorn
    rw [hholds.segment] at hnum
    rw [(openDir_stores opts hholds.stores hnum).segment]
    exact hnum
  obtain ⟨l, hreplay⟩ := hopened.replayRecords_torn hsegment hread
  refine ⟨_, l, hreplay, sublistForall₂_iff.mpr ⟨kept.map fun p => p.frame.record, ?_, ?_⟩⟩
  · rw [forall₂_map_right_iff]
    exact hmatch.imp fun a p h => h.record
  · rw [← map_record_placed crc]
    exact hkept.map _

/-- The write of the second append fails after five bytes and the third one is acknowledged. -/
def appendAfterFailure : List Event :=
  [⟨.append (.tombstones [⟨[1], [], 0, 5, 1⟩]) true, noFaults⟩,
    ⟨.append (.tombstones [⟨[1], [], 0, 5, 2⟩]) true, { noFaults with write := some 5 }⟩,
    ⟨.append (.tombstones [⟨[1], [], 0, 5, 3⟩]) true, noFaults⟩]

def failuresBetween : List Event :=
  [⟨.append (.tombstones [⟨[1], [], 0, 5, 1⟩]) true, noFaults⟩,
    ⟨.append (.tombstones [⟨[1], [], 0, 5, 2⟩]) true, { noFaults with write := some 0 }⟩,
    ⟨.append (.tombstones [⟨[1], [], 0, 5, 3⟩]) true, noFaults⟩,
    ⟨.append (.tombstones [⟨[1], [], 0, 5, 4⟩]) true, { noFaults with write := some 5 }⟩]

end Failures

end Mts.Wal
