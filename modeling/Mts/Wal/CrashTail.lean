import Mts.Wal.TornTail

/-! A crash that cuts the last segment file off. The reader takes a file that ends with the length of a frame for
one that ends with the frame before it, so that this length stays and the next append stands behind it. -/

namespace Mts.Wal
open Lib Model List

variable {further : List (Append × Bool)} {p : Placed} {rest : List Frame} {g : Frame}

section Property
variable (crc : Bytes → UInt32) (grow : Nat → Nat → Nat)

/-- The directory after a crash that leaves the first `size` bytes of the last segment file. -/
def cutFiles (l : Log) (size : Nat) : List SegmentFile := truncateFile (segmentName l.segment) size l.files

def beforeCut (h : History) (size : Nat) : List Ack :=
  h.acked.filter fun a => a.number < h.log.segment || a.stop ≤ size

def appendCalls (further : List (Append × Bool)) : List Call := further.map fun a => .append a.1 a.2

def recoveredLog (opts : Options) (h : History) (size : Nat) : Log :=
  exec (Log.replayRecords crc) (Log.openDir crc opts (cutFiles h.log size))

/-- Replay after the crash returns the records before the cut, and later these and the ones appended since. -/
structure TailRecovered (opts : Options) (h : History) (size : Nat) (further : List (Append × Bool)) : Prop where
  recovered : ∃ records l, Log.replayRecords crc (Log.openDir crc opts (cutFiles h.log size)) = .ok records l ∧
    List.Forall₂ SameRecord records ((beforeCut h size).map Ack.record)
  later : ∃ records l, Log.replayRecords crc (Log.openDir crc opts
      (History.run crc grow ⟨recoveredLog crc opts h size, []⟩ (withoutFaults (appendCalls further))).log.files) =
        .ok records l ∧
    List.Forall₂ SameRecord records ((beforeCut h size).map Ack.record ++ appendedSince grow (appendCalls further))

def CutBehindLength (h : History) (size : Nat) : Prop :=
  size = walSegmentHeaderLen + 4 ∨ ∃ a ∈ h.acked, a.number = h.log.segment ∧ size = a.stop + 4

def furtherFrames (further : List (Append × Bool)) : List Bytes :=
  further.filterMap fun a =>
    match a.1.encode grow with
    | .ok (recordType, payload) => some (encodeFrame crc recordType payload)
    | .error _ => none

/-- The first of them does not fit into the segment and starts a new one. -/
def FirstStartsSegment (opts : Options) (size : Nat) (further : List (Append × Bool)) : Prop :=
  ∀ frame ∈ (furtherFrames crc grow further).head?,
    (Log.fresh opts []).opts.segmentBytes < ((size + frame.length : Nat) : Int)

/-- The checksum does not take the bytes of the further frames for the body of the frame that was cut off. -/
def RejectsMisaligned (h : History) (size : Nat) (further : List (Append × Bool)) : Prop :=
  let bytes := (furtherFrames crc grow further).flatten
  ∀ a ∈ h.acked, a.number = h.log.segment → size < a.stop →
    (∀ b ∈ h.acked, b.number = h.log.segment → size < b.stop → a.stop ≤ b.stop) →
    a.stop - size ≤ bytes.length →
      crc (bytes.take (a.stop - size - 4)) ≠ uint32OfBE ((bytes.take (a.stop - size)).drop (a.stop - size - 4))

instance (h : History) (size : Nat) : Decidable (CutBehindLength h size) :=
  inferInstanceAs (Decidable (_ ∨ ∃ a ∈ h.acked, _))

instance (h : History) (size : Nat) (further : List (Append × Bool)) :
    Decidable (RejectsMisaligned crc grow h size further) :=
  inferInstanceAs (Decidable (∀ a ∈ h.acked, _ → _ → _ → _ → _))

end Property

section Cut
variable {crc : Bytes → UInt32} {number offset : Nat}

theorem cut_frames (frames : List Frame) (h : n ≤ (frameBytes crc frames).length) :
    ∃ kept lost tail, frames = kept ++ lost ∧ (frameBytes crc frames).take n = frameBytes crc kept ++ tail ∧
      n = (frameBytes crc kept).length + tail.length ∧
      (lost = [] ∧ tail = [] ∨
        ∃ g rest, lost = g :: rest ∧ tail.length < (g.bytes crc).length ∧ tail = (g.bytes crc).take tail.length) := by
  induction frames generalizing n with
  | nil =>
    obtain rfl : n = 0 := by simpa using h
    exact ⟨[], [], [], rfl, rfl, rfl, .inl ⟨rfl, rfl⟩⟩
  | cons f frames ih =>
    rw [frameBytes_cons, length_append] at h
    by_cases hn : n < (f.bytes crc).length
    · have hlen : ((f.bytes crc).take n).length = n := by
        rw [length_take]
        omega
      refine ⟨[], f :: frames, (f.bytes crc).take n, rfl, ?_, ?_, .inr ⟨f, frames, rfl, ?_, ?_⟩⟩
      · rw [frameBytes_cons, take_append_of_le_length (by omega)]
        rfl
      · rw [hlen]
        simp
      · rwa [hlen]
      · rw [hlen]
    · obtain ⟨kept, lost, tail, rfl, htake, hlen, hlost⟩ := ih (n := n - (f.bytes crc).length) (by omega)
      refine ⟨f :: kept, lost, tail, rfl, ?_, ?_, hlost⟩
      · rw [frameBytes_cons, take_append, take_of_length_le (by omega), htake, frameBytes_cons, append_assoc]
      · rw [frameBytes_cons, length_append]
        omega

theorem placedFrom_stop (h : p ∈ placedFrom crc number offset frames) :
    p.number = number ∧ offset < p.stop ∧
      (p.stop = offset + (frameBytes crc frames).length ∨ p.stop + 9 ≤ offset + (frameBytes crc frames).length) := by
  have hnine : ∀ f : Frame, 9 ≤ (f.bytes crc).length := by
    intro f
    have := f.five_le crc
    rw [f.length_bytes crc]
    omega
  induction frames generalizing offset with
  | nil => simp [placedFrom] at h
  | cons f frames ih =>
    have hf := hnine f
    rw [frameBytes_cons, length_append]
    rcases mem_cons.mp h with rfl | h
    · refine ⟨rfl, by dsimp only; omega, ?_⟩
      dsimp only
      cases frames with
      | nil => left; simp
      | cons g frames =>
        have := hnine g
        right
        rw [frameBytes_cons, length_append]
        omega
    · obtain ⟨hnumber, hlt, hstop⟩ := ih h
      exact ⟨hnumber, by omega, by omega⟩

theorem placedFrom_cons_stop (h : p ∈ placedFrom crc number offset (g :: rest)) :
    offset + (g.bytes crc).length ≤ p.stop := by
  rcases mem_cons.mp h with rfl | h
  · exact le_rfl
  · exact (placedFrom_stop h).2.1.le

theorem exists_placedFrom_stop (h : frames ≠ []) :
    ∃ p ∈ placedFrom crc number offset frames, p.stop = offset + (frameBytes crc frames).length := by
  obtain ⟨frames, f, rfl⟩ := eq_nil_or_concat frames |>.resolve_left h
  refine ⟨⟨f, number, offset + (frameBytes crc frames).length + (f.bytes crc).length⟩, ?_, ?_⟩
  · rw [concat_eq_append, placedFrom_append]
    exact mem_append_right _ (mem_singleton_self _)
  · rw [concat_eq_append, frameBytes_append, length_append]
    simp [Nat.add_assoc]

end Cut

section Crash
variable {crc : Bytes → UInt32} {grow : Nat → Nat → Nat} {h : History} {tail : Bytes}

/-- A history whose last segment file is cut off: the frames before the cut and what is left of the next one. -/
structure CutAt (crc : Bytes → UInt32) (h : History) (size : Nat) (init : List Content) (number : Nat)
    (kept lost : List Frame) (tail : Bytes) : Prop where
  stores : Stores crc (cutFiles h.log size) (init ++ [⟨number, kept, tail⟩])
  ended : ∀ c ∈ init, c.Ended crc
  segment : h.log.segment = number
  size : size = walSegmentHeaderLen + (frameBytes crc kept).length + tail.length
  acked : List.Forall₂ Matches h.acked (placed crc (init ++ [⟨number, kept ++ lost, []⟩]))
  numbers : ∀ c ∈ init, c.number < number
  lost : lost = [] ∧ tail = [] ∨
    ∃ g rest, lost = g :: rest ∧ tail.length < (g.bytes crc).length ∧ tail = (g.bytes crc).take tail.length

theorem Recorded.cut (hrec : Recorded crc h) (hnum : h.log.segment < 10 ^ 6)
    (hheader : walSegmentHeaderLen ≤ size) (hsize : size ≤ h.log.openSize) :
    ∃ init number kept lost tail, CutAt crc h size init number kept lost tail := by
  obtain ⟨contents, ⟨init, last, rfl, hholds, hinit, hlast⟩, hmatch⟩ := hrec
  rw [hholds.segment] at hnum
  have hdata : last.data crc = segmentHeader crc ++ frameBytes crc last.frames := by
    rw [Content.data, segmentBytes, hlast, append_nil]
  have hopen : h.log.openSize = walSegmentHeaderLen + (frameBytes crc last.frames).length := by
    rw [hholds.openSize (by omega), hdata, length_append, length_segmentHeader]
  obtain ⟨kept, lost, tail, hframes, htake, hlen, hlost⟩ :=
    cut_frames last.frames (show size - walSegmentHeaderLen ≤ (frameBytes crc last.frames).length by omega)
  refine ⟨init, last.number, kept, lost, tail, ?_, hinit, hholds.segment, by omega, ?_, hholds.stores.number_lt, hlost⟩
  · rw [cutFiles, hholds.segment]
    refine stores_updateFile hholds.stores (by omega) (List.take size) (fun _ => rfl) rfl ?_
    rw [hdata, take_append, length_segmentHeader, take_of_length_le (by rw [length_segmentHeader]; omega), htake]
    rfl
  · have hcontent : last = ⟨last.number, kept ++ lost, []⟩ := by rw [← hframes, ← hlast]
    rwa [← hcontent]

section
variable {h : History} {size number : Nat} {init : List Content} {kept lost : List Frame} {tail : Bytes}
  (hcut : CutAt crc h size init number kept lost tail)
include hcut

theorem CutAt.matches_beforeCut :
    List.Forall₂ Matches (beforeCut h size) (placed crc (init ++ [⟨number, kept, tail⟩])) := by
  have hsize := hcut.size
  have hfilter : (placed crc (init ++ [⟨number, kept ++ lost, []⟩])).filter
      (fun p => p.number < h.log.segment || p.stop ≤ size) = placed crc (init ++ [⟨number, kept, tail⟩]) := by
    have hinit : (placed crc init).filter (fun p => p.number < h.log.segment || p.stop ≤ size) = placed crc init := by
      rw [filter_eq_self]
      intro p hp
      obtain ⟨c, hc, hp⟩ := mem_flatMap.mp hp
      simp [(placedFrom_stop hp).1, hcut.segment, hcut.numbers c hc]
    have hkept : (placedFrom crc number walSegmentHeaderLen kept).filter
        (fun p => p.number < h.log.segment || p.stop ≤ size) = placedFrom crc number walSegmentHeaderLen kept := by
      rw [filter_eq_self]
      intro p hp
      obtain ⟨-, -, hstop⟩ := placedFrom_stop hp
      have : p.stop ≤ size := by omega
      simp [this]
    have hlost : (placedFrom crc number (walSegmentHeaderLen + (frameBytes crc kept).length) lost).filter
        (fun p => p.number < h.log.segment || p.stop ≤ size) = [] := by
      rw [filter_eq_nil_iff]
      intro p hp
      rcases hcut.lost with ⟨rfl, -⟩ | ⟨g, rest, rfl, hlt, -⟩
      · simp [placedFrom] at hp
      · have hstop := placedFrom_cons_stop hp
        have : ¬ p.stop ≤ size := by omega
        simp [(placedFrom_stop hp).1, hcut.segment, this]
    simp only [placed] at hinit ⊢
    rw [flatMap_append, filter_append, hinit, flatMap_append, flatMap_singleton,
      flatMap_singleton, placedFrom_append, filter_append, hkept, hlost, append_nil]
  rw [← hfilter]
  refine rel_filter ?_ hcut.acked
  intro a p hmatch
  simp [hmatch.number, hmatch.stop]

theorem CutAt.torn (hnum : h.log.segment < 10 ^ 6) (opts : Options) :
    Torn crc (Log.openDir crc opts (cutFiles h.log size)) (init ++ [⟨number, kept, tail⟩]) tail := by
  rw [hcut.segment] at hnum
  exact ⟨init, _, rfl, openDir_stores opts hcut.stores hnum, hcut.ended, rfl⟩

theorem CutAt.openDir_size (hnum : h.log.segment < 10 ^ 6) (opts : Options) :
    (Log.openDir crc opts (cutFiles h.log size)).size = size ∧
      (Log.openDir crc opts (cutFiles h.log size)).opts = (Log.fresh opts []).opts ∧
      (Log.openDir crc opts (cutFiles h.log size)).segment = h.log.segment := by
  have hsize := hcut.size
  have hnum' := hnum
  rw [hcut.segment] at hnum'
  rw [openDir_eq opts hcut.stores hnum']
  refine ⟨?_, rfl, hcut.segment.symm⟩
  rw [Content.data, segmentBytes, length_append, length_append, length_segmentHeader]
  dsimp only
  omega

theorem CutAt.mem_placedFrom (ha : a ∈ h.acked) (hnumber : a.number = h.log.segment) :
    ∃ p ∈ placedFrom crc number walSegmentHeaderLen (kept ++ lost), p.stop = a.stop := by
  obtain ⟨p, hp, hmatch⟩ := exists_of_forall₂ hcut.acked.flip ha
  rw [placed, flatMap_append, flatMap_singleton] at hp
  rcases mem_append.mp hp with hp | hp
  · obtain ⟨c, hc, hp⟩ := mem_flatMap.mp hp
    have hlt := hcut.numbers c hc
    have hp := (placedFrom_stop hp).1
    have := hmatch.number
    have := hcut.segment
    omega
  · exact ⟨p, hp, hmatch.stop.symm⟩

theorem CutAt.exists_ack (hp : p ∈ placedFrom crc number walSegmentHeaderLen (kept ++ lost)) :
    ∃ a ∈ h.acked, a.number = h.log.segment ∧ a.stop = p.stop := by
  have hmem : p ∈ placed crc (init ++ [⟨number, kept ++ lost, []⟩]) := by
    rw [placed, flatMap_append, flatMap_singleton]
    exact mem_append_right _ hp
  obtain ⟨a, ha, hmatch⟩ := exists_of_forall₂ hcut.acked hmem
  exact ⟨a, ha, hmatch.number.trans ((placedFrom_stop hp).1.trans hcut.segment.symm), hmatch.stop⟩

theorem CutAt.stop_of_lost
    (hp : p ∈ placedFrom crc number (walSegmentHeaderLen + (frameBytes crc kept).length) lost) : size < p.stop := by
  have hsize := hcut.size
  rcases hcut.lost with ⟨rfl, -⟩ | ⟨g, rest, rfl, hlt, -⟩
  · simp [placedFrom] at hp
  · have := placedFrom_cons_stop hp
    omega

theorem CutAt.behindLength_iff : CutBehindLength h size ↔ tail.length = 4 := by
  have hsize := hcut.size
  constructor
  · rintro (heq | ⟨a, ha, hnumber, heq⟩)
    · cases kept with
      | nil =>
        rw [frameBytes_nil, length_nil] at hsize
        omega
      | cons f kept =>
        have := f.five_le crc
        rw [frameBytes_cons, length_append, f.length_bytes crc] at hsize
        omega
    · obtain ⟨p, hp, hstop⟩ := hcut.mem_placedFrom ha hnumber
      rw [placedFrom_append] at hp
      rcases mem_append.mp hp with hp | hp
      · have := (placedFrom_stop hp).2.2
        omega
      · have := hcut.stop_of_lost hp
        omega
  · intro hfour
    by_cases hkept : kept = []
    · left
      rw [hkept, frameBytes_nil, length_nil] at hsize
      omega
    · right
      obtain ⟨p, hp, hstop⟩ : ∃ p ∈ placedFrom crc number walSegmentHeaderLen kept, p.stop = _ :=
        exists_placedFrom_stop hkept
      obtain ⟨a, ha, hnumber, hastop⟩ := hcut.exists_ack (by
        rw [placedFrom_append]
        exact mem_append_left _ hp)
      exact ⟨a, ha, hnumber, by omega⟩

theorem CutAt.records :
    List.Forall₂ SameRecord (recordsOf (init ++ [⟨number, kept, tail⟩])) ((beforeCut h size).map Ack.record) := by
  rw [← map_record_placed crc, forall₂_map_left_iff, forall₂_map_right_iff]
  exact hcut.matches_beforeCut.flip.imp fun p a h => h.record

theorem CutAt.rejects (hlost : lost = g :: rest) (hfour : tail.length = 4)
    (hcrc : RejectsMisaligned crc grow h size further) :
    (g.body crc).length ≤ (furtherFrames crc grow further).flatten.length →
      crc ((furtherFrames crc grow further).flatten.take ((g.body crc).length - 4)) ≠
        uint32OfBE (((furtherFrames crc grow further).flatten.take (g.body crc).length).drop ((g.body crc).length - 4)) := by
  have hsize := hcut.size
  have hmem : (⟨g, number, walSegmentHeaderLen + (frameBytes crc kept).length + (g.bytes crc).length⟩ : Placed) ∈
      placedFrom crc number walSegmentHeaderLen (kept ++ lost) := by
    rw [placedFrom_append, hlost, placedFrom]
    exact mem_append_right _ mem_cons_self
  obtain ⟨a, ha, hnumber, hstop⟩ := hcut.exists_ack hmem
  have hbytes := g.length_bytes crc
  have hbody : a.stop - size = (g.body crc).length := by
    rw [hstop]
    dsimp only
    omega
  have hfive := g.five_le crc
  rw [← hbody]
  refine hcrc a ha hnumber (by omega) fun b hb hbnumber hbstop => ?_
  obtain ⟨p, hp, hpstop⟩ := hcut.mem_placedFrom hb hbnumber
  rw [placedFrom_append] at hp
  rcases mem_append.mp hp with hp | hp
  · have := (placedFrom_stop hp).2.2
    omega
  · rw [hlost] at hp
    have := placedFrom_cons_stop hp
    rw [hstop, ← hpstop]
    exact this

/-- The log after the replay: the rest of a frame is cut off, unless it is just its length. -/
theorem CutAt.recover (hnum : h.log.segment < 10 ^ 6) (opts : Options) :
    ∃ contents' tail',
      Log.replayRecords crc (Log.openDir crc opts (cutFiles h.log size)) =
        .ok (recordsOf (init ++ [⟨number, kept, tail⟩])) (recoveredLog crc opts h size) ∧
      Torn crc (recoveredLog crc opts h size) contents' tail' ∧ readFrame crc tail' = .error .eof ∧
      placed crc contents' = placed crc (init ++ [⟨number, kept, tail⟩]) ∧
      (tail' = [] ∧ tail.length ≠ 4 ∨
        tail' = tail ∧ tail.length = 4 ∧ contents' = init ++ [⟨number, kept, tail⟩]) ∧
      (recoveredLog crc opts h size).size = size ∧
      (recoveredLog crc opts h size).opts = (Log.fresh opts []).opts := by
  have htorn := hcut.torn hnum opts
  obtain ⟨hsize, hopts, hsegment⟩ := hcut.openDir_size hnum opts
  have hnum' : (Log.openDir crc opts (cutFiles h.log size)).segment < 10 ^ 6 := hsegment ▸ hnum
  have hread : tail.length = 4 ∧ readFrame crc tail = .error .eof ∨ tail = [] ∨
      tail.length ≠ 4 ∧ readFrame crc tail = .error .unexpectedEOF := by
    rcases hcut.lost with ⟨-, rfl⟩ | ⟨g, rest, -, hlt, htail⟩
    · exact .inr (.inl rfl)
    · have hframe := readFrame_take crc g hlt
      rw [← htail] at hframe
      by_cases hfour : tail.length = 4
      · rw [if_pos (.inr hfour)] at hframe
        exact .inl ⟨hfour, hframe⟩
      · by_cases hzero : tail.length = 0
        · exact .inr (.inl (eq_nil_of_length_eq_zero hzero))
        · rw [if_neg (by omega)] at hframe
          exact .inr (.inr ⟨hfour, hframe⟩)
  rcases hread with ⟨hfour, heof⟩ | rfl | ⟨hfour, hcutoff⟩
  · have hreplay := htorn.replayRecords heof hnum'
    have hlog : recoveredLog crc opts h size = Log.openDir crc opts (cutFiles h.log size) := exec_of_ok hreplay
    rw [hlog]
    exact ⟨_, tail, hreplay, htorn, heof, rfl, .inr ⟨rfl, hfour, rfl⟩, hsize, hopts⟩
  · have hreplay := htorn.replayRecords (readFrame_nil crc) hnum'
    have hlog : recoveredLog crc opts h size = Log.openDir crc opts (cutFiles h.log size) := exec_of_ok hreplay
    rw [hlog]
    exact ⟨_, [], hreplay, htorn, readFrame_nil crc, rfl, .inl ⟨rfl, by simp⟩, hsize, hopts⟩
  · obtain ⟨cut, contents', hreplay, htorn', hplaced⟩ := htorn.replayRecords_cut hcutoff hnum'
    have hlog := exec_of_ok hreplay
    change recoveredLog crc opts h size = _ at hlog
    rw [hlog]
    exact ⟨contents', [], hreplay, htorn', readFrame_nil crc, hplaced, .inl ⟨rfl, hfour⟩, hsize, hopts⟩

end

theorem run_log_congr (l : Log) (acked acked' : List Ack) (events : List Event) :
    (History.run crc grow ⟨l, acked⟩ events).log = (History.run crc grow ⟨l, acked'⟩ events).log := by
  have hrun : ∀ h h' : History, h.log = h'.log →
      (History.run crc grow h events).log = (History.run crc grow h' events).log := by
    induction events with
    | nil => exact fun h h' heq => heq
    | cons e events ih =>
      intro h h' heq
      refine ih _ _ ?_
      rw [History.step, History.step, heq]
      cases e.call.exec crc grow e.faults h'.log <;> rfl
  exact hrun _ _ rfl

theorem foldl_since_appendCalls (further : List (Append × Bool)) (records : List Record) :
    (appendCalls further).foldl (Call.since grow) records =
      records ++ further.flatMap fun a => encodedRecord grow a.1 := by
  induction further generalizing records with
  | nil => exact (append_nil _).symm
  | cons a further ih =>
    rw [appendCalls, map_cons, foldl_cons, since_append, ← appendCalls, ih, flatMap_cons, append_assoc]

theorem appendedSince_cons (a : Append) (syncWrite : Bool) (further : List (Append × Bool)) :
    appendedSince grow (appendCalls ((a, syncWrite) :: further)) =
      encodedRecord grow a ++ appendedSince grow (appendCalls further) := by
  rw [appendedSince, appendedSince, foldl_since_appendCalls, foldl_since_appendCalls, flatMap_cons]
  rfl

theorem length_furtherFrames (further : List (Append × Bool)) :
    (furtherFrames crc grow further).length = (appendedSince grow (appendCalls further)).length := by
  induction further with
  | nil => rfl
  | cons a further ih =>
    rw [appendedSince_cons, length_append, ← ih, encodedRecord, furtherFrames, filterMap_cons]
    cases a.1.encode grow with
    | error e => simp [furtherFrames]
    | ok encoded => simp [furtherFrames, Nat.add_comm]

/-- Appends one after another that are encoded, with their frames and records. -/
inductive Appends (crc : Bytes → UInt32) (grow : Nat → Nat → Nat) : History → List Bytes → List Record → History → Prop
  | nil (h : History) : Appends crc grow h [] [] h
  | cons {h final : History} {a : Append} {syncWrite : Bool} {f : Frame} {frames : List Bytes} {records : List Record}
      (hencode : a.encode grow = .ok (f.recordType, f.payload)) (hsame : SameRecord f.record a.record)
      (hsegment : h.log.segment < 10 ^ 6)
      (hrest : Appends crc grow (h.step crc grow ⟨.append a syncWrite, noFaults⟩) frames records final) :
      Appends crc grow h (f.bytes crc :: frames) (encodedRecord grow a ++ records) final

theorem appends_run (hsound : AppendsSound grow (appendCalls further))
    (hnum : NumberedFrom crc grow h (withoutFaults (appendCalls further))) :
    Appends crc grow h (furtherFrames crc grow further) (appendedSince grow (appendCalls further))
      (h.run crc grow (withoutFaults (appendCalls further))) := by
  induction further generalizing h with
  | nil => exact .nil h
  | cons a further ih =>
    obtain ⟨a, syncWrite⟩ := a
    have hsound' : AppendsSound grow (appendCalls further) := fun b s hb => hsound b s (mem_cons_of_mem _ hb)
    have hrest : NumberedFrom crc grow (h.step crc grow ⟨.append a syncWrite, noFaults⟩)
        (withoutFaults (appendCalls further)) :=
      fun before hb => hnum (⟨.append a syncWrite, noFaults⟩ :: before) (cons_prefix_cons.mpr ⟨rfl, hb⟩)
    have hrun : h.run crc grow (withoutFaults (appendCalls ((a, syncWrite) :: further))) =
        (h.step crc grow ⟨.append a syncWrite, noFaults⟩).run crc grow (withoutFaults (appendCalls further)) := rfl
    rw [hrun, appendedSince_cons]
    cases hencode : a.encode grow with
    | error e =>
      have hframes : furtherFrames crc grow ((a, syncWrite) :: further) = furtherFrames crc grow further := by
        simp [furtherFrames, hencode]
      rw [step_of_encode_error hencode] at hrest ⊢
      rw [hframes, encodedRecord, hencode]
      exact ih hsound' hrest
    | ok encoded =>
      obtain ⟨recordType, payload⟩ := encoded
      obtain ⟨hround, hfits⟩ := hsound a syncWrite mem_cons_self
      obtain ⟨f, rfl, rfl, hsame⟩ := Append.exists_frame hround hfits hencode
      have hframes : furtherFrames crc grow ((a, syncWrite) :: further) = f.bytes crc :: furtherFrames crc grow further := by
        simp [furtherFrames, hencode, Frame.bytes]
      rw [hframes]
      exact .cons hencode hsame (hnum [] nil_prefix) (ih hsound' hrest)

section Appends
variable {h final : History} {frames : List Bytes} {records : List Record}
  (happends : Appends crc grow h frames records final)
include happends

/-- A segment that is read to its end, and is left by the next append or ends with a whole frame. -/
theorem Appends.ended (htorn : Torn crc h.log contents tail)
    (hended : readFrame crc tail = .error .eof) (hmatch : List.Forall₂ Matches h.acked (placed crc contents))
    (hroom : tail = [] ∨ ∀ frame ∈ frames.head?, h.log.Rolls frame.length) :
    ∃ contents' tail', Torn crc final.log contents' tail' ∧ readFrame crc tail' = .error .eof ∧
      List.Forall₂ Matches final.acked (placed crc contents') ∧
      final.acked.map Ack.record = h.acked.map Ack.record ++ records := by
  induction happends generalizing contents tail with
  | nil h => exact ⟨contents, tail, htorn, hended, hmatch, (append_nil _).symm⟩
  | cons hencode hsame hsegment hrest ih =>
    obtain ⟨contents', htorn', hmatch', hrecords⟩ := recorded_append_torn _ htorn hended hmatch
      hencode hsame (hroom.imp_right fun hrolls => hrolls _ rfl) hsegment
    obtain ⟨contents'', tail'', htorn'', hended'', hmatch'', hrecords''⟩ :=
      ih htorn' (readFrame_nil crc) hmatch' (.inl rfl)
    refine ⟨contents'', tail'', htorn'', hended'', hmatch'', ?_⟩
    rw [hrecords'', hrecords, append_assoc]

end Appends

/-- A log that has appended behind the bytes `tail`: frames of `written` stand behind them in the middle segment. -/
def Misaligned (crc : Bytes → UInt32) (l : Log) (init : List Content) (number : Nat) (kept : List Frame) (tail : Bytes)
    (written : List Frame) : Prop :=
  ∃ behind later before last, behind ≠ [] ∧ behind <+: written ∧ (later = [] → behind = written) ∧
    before ++ [last] = init ++ ⟨number, kept, tail ++ frameBytes crc behind⟩ :: later ∧ Holds crc l before last

section Misaligned
variable {l : Log} {init : List Content} {number : Nat} {kept : List Frame} {tail : Bytes} {written : List Frame}

theorem Misaligned.append (h : Misaligned crc l init number kept tail written) (hnum : l.segment < 10 ^ 6) (f : Frame)
    (syncWrite : Bool) :
    Ends (Log.appendFrame crc noFaults f.recordType f.payload syncWrite l)
      (fun _ l' => Misaligned crc l' init number kept tail (written ++ [f])) fun _ => False := by
  obtain ⟨behind, later, before, last, hne, hbegins, hall, hcontents, hholds⟩ := h
  rw [hholds.segment] at hnum
  refine (ends_appendFrame hholds hnum rfl rfl f.recordType f.payload syncWrite _ rfl).mono ?_ ?_
  · rintro _ l' ⟨-, hl'⟩
    change Holds crc l' _ (Content.extend _ (f.bytes crc)) at hl'
    rw [rolledTo] at hl'
    split at hl'
    · -- the next segment is the last one
      refine ⟨behind, later ++ [Content.extend ⟨last.number + 1, [], []⟩ (f.bytes crc)], _, _, hne,
        hbegins.trans (List.prefix_append _ _), by simp, ?_, hl'⟩
      rw [hcontents]
      simp
    · rcases eq_nil_or_concat later with rfl | ⟨later, last', rfl⟩
      · obtain ⟨rfl, hlast⟩ := append_inj' hcontents rfl
        obtain rfl := singleton_inj.mp hlast
        rw [hall rfl] at hl'
        refine ⟨written ++ [f], [], before, _, by simp, List.prefix_refl _, fun _ => rfl, ?_, hl'⟩
        simp [Content.extend]
      · rw [concat_eq_append, ← cons_append, ← append_assoc] at hcontents
        obtain ⟨rfl, hlast⟩ := append_inj' hcontents rfl
        refine ⟨behind, later ++ [last.extend (f.bytes crc)], _, _, hne, hbegins.trans (List.prefix_append _ _),
          by simp, ?_, hl'⟩
        simp
  · rintro l' ⟨hfault, -⟩
    simp [noFaults] at hfault

theorem Misaligned.replayRecords (h : Misaligned crc l init number kept tail written) (hnum : l.segment < 10 ^ 6)
    (hended : ∀ c ∈ init, c.Ended crc)
    (hread : ∀ behind, behind ≠ [] → behind <+: written →
      readFrame crc (tail ++ frameBytes crc behind) = .error .unexpectedEOF ∨
      readFrame crc (tail ++ frameBytes crc behind) = .error .crcMismatch)
    (opts : Options)
    (hreplay : Log.replayRecords crc (Log.openDir crc opts l.files) = .ok records l') :
    records = recordsOf (init ++ [⟨number, kept, tail⟩]) := by
  obtain ⟨behind, later, before, last, hne, hbegins, hall, hcontents, hholds⟩ := h
  rw [hholds.segment] at hnum
  have hopened := openDir_stores opts hholds.stores hnum
  have herror := hread behind hne hbegins
  by_cases hlater : later = []
  · subst hlater
    obtain ⟨rfl, hlast⟩ := append_inj' hcontents rfl
    obtain rfl := singleton_inj.mp hlast
    rw [replayRecords_stores hopened.stores hnum hended, Content.data] at hreplay
    rcases herror with herror | herror
    · rw [replaySegment_of_unexpectedEOF crc herror] at hreplay
      obtain ⟨rfl, -⟩ := EStateM.Result.ok.inj hreplay
      rw [recordsOf, recordsOf, flatMap_append, flatMap_singleton]
    · rw [replaySegment_of_error crc herror (by simp) (by simp)] at hreplay
      simp at hreplay
  · have hsegment : ∃ e, replaySegment crc false
        (Content.data crc ⟨number, kept, tail ++ frameBytes crc behind⟩) = .error e := by
      rcases herror with herror | herror
      · exact ⟨_, replaySegment_of_error crc herror (by simp) (by simp)⟩
      · exact ⟨_, replaySegment_of_error crc herror (by simp) (by simp)⟩
    obtain ⟨e, hsegment⟩ := hsegment
    have hlist := listSegments_of_stores hopened.stores fun c hc => (hopened.stores.number_le c hc).trans_lt hnum
    have hsegments := replaySegments_error hended hlater hsegment
    rw [← hcontents, ← hlist] at hsegments
    rw [replayRecords_eq, hsegments] at hreplay
    cases hreplay

section
variable {h final : History} {frames : List Bytes} {records : List Record}

theorem Misaligned.appends (happends : Appends crc grow h frames records final)
    (hmis : Misaligned crc h.log init number kept tail written) :
    ∃ written', frameBytes crc written' = frameBytes crc written ++ frames.flatten ∧
      Misaligned crc final.log init number kept tail written' := by
  induction happends generalizing written with
  | nil h => exact ⟨written, (append_nil _).symm, hmis⟩
  | @cons h final a syncWrite f frames records hencode hsame hsegment hrest ih =>
    have hends := hmis.append hsegment f syncWrite
    rw [← exec_append hencode] at hends
    obtain ⟨written', hbytes, hmis'⟩ := ih
      (step_of_ends (P := fun h' => Misaligned crc h'.log init number kept tail (written ++ [f])) hends
        (fun _ h => h) fun _ hfalse => hfalse.elim)
    refine ⟨written', ?_, hmis'⟩
    rw [hbytes, frameBytes_append]
    simp

/-- The first append that is encoded stays in the segment and stands behind the bytes, as those after it do. -/
theorem misaligned_appends (happends : Appends crc grow h frames records final)
    (hholds : Holds crc h.log init ⟨number, kept, tail⟩) (hfirst : frames.head? = some frame)
    (hstays : ¬ h.log.Rolls frame.length) :
    ∃ written, frameBytes crc written = frames.flatten ∧ Misaligned crc final.log init number kept tail written := by
  cases happends with
  | nil => simp at hfirst
  | @cons _ _ a syncWrite f frames records hencode hsame hsegment hrest =>
    rw [head?_cons, Option.some.injEq] at hfirst
    subst hfirst
    rw [hholds.segment] at hsegment
    have hends := ends_appendFrame hholds hsegment (show noFaults.close = false from rfl) rfl f.recordType f.payload
      syncWrite (init, ⟨number, kept, tail⟩) (if_neg hstays).symm
    rw [← exec_append hencode] at hends
    have hstep : Misaligned crc (h.step crc grow ⟨.append a syncWrite, noFaults⟩).log init number kept tail [f] := by
      refine step_of_ends (P := fun h' => Misaligned crc h'.log init number kept tail [f]) hends ?_ ?_
      · rintro l' ⟨-, hl'⟩
        refine ⟨[f], [], init, _, by simp, List.prefix_refl _, fun _ => rfl, ?_, hl'⟩
        simp [Content.extend, Frame.bytes]
      · rintro l' ⟨hfault, -⟩
        simp [noFaults] at hfault
    obtain ⟨written, hbytes, hmis⟩ := Misaligned.appends hrest hstep
    refine ⟨written, ?_, hmis⟩
    rw [hbytes]
    simp

end
end Misaligned

theorem readFrame_behind_length (htail : tail = (g.bytes crc).take 4)
    (hne : behind ≠ []) (hbegins : behind <+: written) (hcrc : (g.body crc).length ≤ (frameBytes crc written).length →
      crc ((frameBytes crc written).take ((g.body crc).length - 4)) ≠
        uint32OfBE (((frameBytes crc written).take (g.body crc).length).drop ((g.body crc).length - 4))) :
    readFrame crc (tail ++ frameBytes crc behind) = .error .unexpectedEOF ∨
      readFrame crc (tail ++ frameBytes crc behind) = .error .crcMismatch := by
  have hlength : tail = uint32BE (UInt32.ofNat (g.body crc).length) := by
    rw [htail, Frame.bytes_eq]
    exact take_left' (length_uint32BE _)
  have hbytes : frameBytes crc behind ≠ [] := by
    have := length_le_frameBytes crc behind
    have := length_pos_of_ne_nil hne
    exact ne_nil_of_length_pos (by omega)
  rw [hlength, readFrame_header]
  by_cases hshort : (frameBytes crc behind).length < (g.body crc).length
  · left
    rw [readFull_short hbytes hshort]
    rfl
  · right
    obtain ⟨rest, rfl⟩ := hbegins
    rw [frameBytes_append] at hcrc
    have htake : (frameBytes crc behind ++ frameBytes crc rest).take (g.body crc).length =
        (frameBytes crc behind).take (g.body crc).length := take_append_of_le_length (by omega)
    have htake' : (frameBytes crc behind ++ frameBytes crc rest).take ((g.body crc).length - 4) =
        (frameBytes crc behind).take ((g.body crc).length - 4) := take_append_of_le_length (by omega)
    rw [htake, htake', length_append] at hcrc
    have hbody : ((frameBytes crc behind).take (g.body crc).length).length = (g.body crc).length := by
      rw [length_take]
      omega
    have hread : readBody crc ((frameBytes crc behind).take (g.body crc).length) = .error .crcMismatch := by
      rw [readBody, hbody, take_take, min_eq_left (by omega)]
      exact if_pos (hcrc (by omega))
    rw [readFull, if_pos (by omega)]
    change (readBody crc _ >>= _) = _
    rw [hread]
    rfl

theorem rolls_iff {l : Log} (hsize : l.size = size)
    (hopts : l.opts = (Log.fresh opts []).opts) (hheader : walSegmentHeaderLen ≤ size) :
    l.Rolls frameSize ↔ (Log.fresh opts []).opts.segmentBytes < ((size + frameSize : Nat) : Int) := by
  have hpos : size ≠ 0 := by
    rw [walSegmentHeaderLen] at hheader
    omega
  rw [Log.Rolls, hsize, hopts, not_or, not_le]
  exact and_iff_right hpos

theorem tailRecovered_iff {opts : Options} {calls : List Call} {size : Nat} {further : List (Append × Bool)}
    (hsound : AppendsSound grow calls) (hnum : SegmentsNumbered crc grow opts (withoutFaults calls))
    (hheader : walSegmentHeaderLen ≤ size) (hsize : size ≤ (runNew crc grow opts (withoutFaults calls)).log.openSize)
    (hfurther : AppendsSound grow (appendCalls further))
    (hnum' : NumberedFrom crc grow ⟨recoveredLog crc opts (runNew crc grow opts (withoutFaults calls)) size, []⟩
      (withoutFaults (appendCalls further)))
    (hcrc : RejectsMisaligned crc grow (runNew crc grow opts (withoutFaults calls)) size further) :
    TailRecovered crc grow opts (runNew crc grow opts (withoutFaults calls)) size further ↔
      ¬ CutBehindLength (runNew crc grow opts (withoutFaults calls)) size ∨
        FirstStartsSegment crc grow opts size further := by
  obtain ⟨hrec, -⟩ := recorded_run (recorded_new opts) hsound hnum
  have hsegment := hnum _ (List.prefix_refl _)
  change Recorded crc (runNew crc grow opts (withoutFaults calls)) at hrec
  generalize runNew crc grow opts (withoutFaults calls) = h at *
  obtain ⟨init, number, kept, lost, tail, hcut⟩ := hrec.cut hsegment hheader hsize
  obtain ⟨contents', tail', hreplay, htorn, hended, hplaced, htails, hlogSize, hlogOpts⟩ := hcut.recover hsegment opts
  have hmatch : List.Forall₂ Matches (beforeCut h size) (placed crc contents') := hplaced ▸ hcut.matches_beforeCut
  rw [hcut.behindLength_iff]
  constructor
  · intro hrecovered
    by_contra hunsafe
    rw [not_or, not_not] at hunsafe
    obtain ⟨hfour, hstays⟩ := hunsafe
    obtain ⟨rfl, -, rfl⟩ := htails.resolve_left fun hne => hne.2 hfour
    obtain ⟨init', last', hsplit, hholds, -, -⟩ := htorn
    obtain ⟨rfl, hlast⟩ := append_inj' hsplit rfl
    obtain rfl := singleton_inj.mp hlast
    rw [FirstStartsSegment] at hstays
    push Not at hstays
    obtain ⟨frame, hfirst, hle⟩ := hstays
    have hnoroll : ¬ (recoveredLog crc opts h size).Rolls frame.length := by
      rw [rolls_iff hlogSize hlogOpts hheader]
      exact not_lt.mpr hle
    obtain ⟨written, hbytes, hmis⟩ := misaligned_appends (appends_run hfurther hnum') hholds hfirst hnoroll
    obtain ⟨g, rest, hlost, hlt, htake⟩ := hcut.lost.resolve_left fun hnil => by simp [hnil.2] at hfour
    rw [hfour] at htake
    obtain ⟨records, l, hlater, hsame⟩ := hrecovered.later
    have hrecords := hmis.replayRecords (hnum' _ (List.prefix_refl _)) hcut.ended (fun behind hne hbegins =>
      readFrame_behind_length htake hne hbegins (hbytes ▸ hcut.rejects hlost hfour hcrc)) opts hlater
    have hlen := hsame.length_eq
    rw [hrecords, hcut.records.length_eq, length_append] at hlen
    have hframes : furtherFrames crc grow further = [] :=
      eq_nil_of_length_eq_zero (by rw [length_furtherFrames]; omega)
    rw [hframes] at hfirst
    simp at hfirst
  · intro hsafe
    have hroom : tail' = [] ∨ ∀ frame ∈ (furtherFrames crc grow further).head?,
        (recoveredLog crc opts h size).Rolls frame.length := by
      rcases htails with ⟨hnil, -⟩ | ⟨-, hfour, -⟩
      · exact .inl hnil
      · have hstarts := hsafe.resolve_left fun hne => hne hfour
        exact .inr fun frame hframe => (rolls_iff hlogSize hlogOpts hheader).mpr (hstarts frame hframe)
    have hlog : ∀ events, (History.run crc grow ⟨recoveredLog crc opts h size, beforeCut h size⟩ events).log =
        (History.run crc grow ⟨recoveredLog crc opts h size, []⟩ events).log := run_log_congr _ _ _
    have hnum'' : NumberedFrom crc grow ⟨recoveredLog crc opts h size, beforeCut h size⟩
        (withoutFaults (appendCalls further)) := by
      intro before hbefore
      rw [hlog]
      exact hnum' before hbefore
    obtain ⟨contents'', tail'', htorn'', hended'', hmatch'', hrecords⟩ :=
      (appends_run hfurther hnum'').ended htorn hended hmatch hroom
    have hsegment'' := hnum'' _ (List.prefix_refl _)
    have hopened := htorn''.openDir hsegment'' opts
    have hlater := hopened.replayRecords hended'' (by
      obtain ⟨init, last, rfl, hholds, -⟩ := htorn''
      rw [hholds.segment] at hsegment''
      rw [(openDir_stores opts hholds.stores hsegment'').segment]
      exact hsegment'')
    rw [hlog] at hlater
    refine ⟨⟨_, _, hreplay, hcut.records⟩, ⟨_, _, hlater, ?_⟩⟩
    rw [← hrecords, ← map_record_placed crc, forall₂_map_left_iff, forall₂_map_right_iff]
    exact hmatch''.flip.imp fun p a h => h.record

def firstAppend : Append × Bool := (.tombstones [⟨[1], [], 0, 5, 1⟩], true)

def secondAppend : Append × Bool := (.tombstones [⟨[2], [], 0, 5, 2⟩], true)

/-- The crash leaves the length of the only frame. -/
theorem cutBehindLength_lost :
    ¬ TailRecovered crc32c growExactly plainOptions
      (runNew crc32c growExactly plainOptions (withoutFaults (appendCalls [firstAppend]))) 19 [secondAppend] := by
  have hfails : (match Log.replayRecords crc32c (Log.openDir crc32c plainOptions (History.run crc32c growExactly
      ⟨recoveredLog crc32c plainOptions
        (runNew crc32c growExactly plainOptions (withoutFaults (appendCalls [firstAppend]))) 19, []⟩
      (withoutFaults (appendCalls [secondAppend]))).log.files) with
    | .ok _ _ => true
    | .error _ _ => false) = false := by decide +kernel
  rintro ⟨-, records, l, hreplay, -⟩
  rw [hreplay] at hfails
  simp at hfails

theorem appendsSound_tombstones
    (h : ∀ a ∈ further, ∃ ts, a.1 = .tombstones ts ∧ 1 + (encodeTombstones ts).length + 4 < 2 ^ 32) :
    AppendsSound growExactly (appendCalls further) := by
  intro a syncWrite ha
  obtain ⟨b, hb, heq⟩ := mem_map.mp ha
  obtain ⟨ts, hts, hsized⟩ := h b hb
  obtain ⟨rfl, -⟩ := Call.append.inj heq
  rw [hts]
  refine ⟨trivial, fun recordType payload hencode => ?_⟩
  obtain ⟨-, rfl⟩ := Prod.mk.inj (Except.ok.inj hencode)
  exact hsized

theorem tailRecovered_inBody :
    (beforeCut (runNew crc32c growExactly plainOptions (withoutFaults (appendCalls [firstAppend, secondAppend]))) 40).map
        Ack.record = [⟨[], [⟨[1], [], 0, 5, 1⟩]⟩] ∧
      TailRecovered crc32c growExactly plainOptions
        (runNew crc32c growExactly plainOptions (withoutFaults (appendCalls [firstAppend, secondAppend]))) 40
        [secondAppend] := by
  have hinits : ∀ (h : History) (events : List Event),
      (∀ before ∈ events.inits, (h.run crc32c growExactly before).log.segment < 10 ^ 6) →
      NumberedFrom crc32c growExactly h events :=
    fun h events hall before hbefore => hall before (mem_inits _ _ |>.mpr hbefore)
  have hfirst : ∃ ts, firstAppend.1 = .tombstones ts ∧ 1 + (encodeTombstones ts).length + 4 < 2 ^ 32 :=
    ⟨_, rfl, by decide⟩
  have hsecond : ∃ ts, secondAppend.1 = .tombstones ts ∧ 1 + (encodeTombstones ts).length + 4 < 2 ^ 32 :=
    ⟨_, rfl, by decide⟩
  refine ⟨by decide +kernel, (tailRecovered_iff (appendsSound_tombstones ?_) (hinits _ _ ?_) (by decide) ?_
    (appendsSound_tombstones ?_) (hinits _ _ ?_) ?_).mpr (.inl ?_)⟩
  · simpa using ⟨hfirst, hsecond⟩
  · decide +kernel
  · decide +kernel
  · simpa using hsecond
  · decide +kernel
  · decide +kernel
  · decide +kernel

end Crash

end Mts.Wal
