import Mts.Lib.Decimal
import Mts.Wal.Frame
import Mts.Wal.Typed

/-! The log on its directory, `wal/wal.go`: the segment files with the part of each that is on stable storage,
the open file, and the calls of the log. Every call to the file system can fail; a write that fails has
written the first bytes. Metrics and the removal of checkpointed segments do not fail here. -/

namespace Mts.Wal
open Lib Model List

section Names

variable {n : Nat}

def walSuffix : GoString := [46, 119, 97, 108]

/-- `fmt.Sprintf("%06d.wal", number)`. -/
def segmentName (number : Nat) : GoString :=
  List.replicate (6 - (decimal number).length) 48 ++ decimal number ++ walSuffix

def isDigit (b : UInt8) : Bool := 48 ≤ b.toNat && b.toNat ≤ 57

/-- `fmt.Sscanf(name, "%06d.wal", &number)`: at most six digits, and what follows the suffix is not read. -/
def scanSegmentName (name : GoString) : Option Nat :=
  let digits := (name.take 6).takeWhile isDigit
  if (name.drop digits.length).take 4 = walSuffix then parseDigits digits else none

theorem length_decimalLoop_le (hpos : 0 < k) (h : n < 10 ^ k) : (decimalLoop fuel n acc).length ≤ k + acc.length := by
  induction fuel generalizing n k acc with
  | zero => exact Nat.le_add_left _ _
  | succ fuel ih =>
    rw [decimalLoop]
    split
    · rw [length_cons]
      omega
    · next hge =>
      obtain ⟨k, rfl⟩ : ∃ j, k = j + 1 := ⟨k - 1, by omega⟩
      have hk : 0 < k := Nat.pos_of_ne_zero (by rintro rfl; omega)
      have hdiv : n / 10 < 10 ^ k := Nat.div_lt_of_lt_mul (by rw [Nat.pow_succ] at h; omega)
      refine (ih hk hdiv).trans ?_
      rw [length_cons]
      omega

theorem parseDigits_padded (zeros : Nat) (h : n < 10 ^ 20) :
    parseDigits (List.replicate zeros 48 ++ decimal n) = some n := by
  have hzeros : (List.replicate zeros (48 : UInt8)).foldlM digitStep 0 = some 0 := by
    induction zeros with
    | zero => rfl
    | succ zeros ih =>
      exact ih
  have hparse := parseDigits_decimal h
  unfold parseDigits at hparse ⊢
  split at hparse
  · simp at hparse
  · next hne =>
    rw [if_neg (by simp_all), foldlM_append, hzeros]
    exact hparse

theorem isDigit_padded : ∀ b ∈ List.replicate zeros 48 ++ decimal n, isDigit b = true := by
  intro b hb
  rcases mem_append.mp hb with hb | hb
  · rw [eq_of_mem_replicate hb]
    rfl
  · have := mem_decimal b hb
    simpa [isDigit] using this

theorem segmentName_inj (hm : m < 10 ^ 20) (hn : n < 10 ^ 20) (h : segmentName m = segmentName n) : m = n := by
  have hdigits := append_cancel_right h
  have := (parseDigits_padded _ hm).symm.trans ((congrArg parseDigits hdigits).trans (parseDigits_padded _ hn))
  exact Option.some.inj this

theorem scanSegmentName_segmentName (h : n < 10 ^ 6) : scanSegmentName (segmentName n) = some n := by
  have hlen : (decimal n).length ≤ 6 := by
    exact length_decimalLoop_le (by decide) h
  have hsix : (List.replicate (6 - (decimal n).length) 48 ++ decimal n).length = 6 := by
    rw [length_append, length_replicate]
    omega
  have htake : (segmentName n).take 6 = List.replicate (6 - (decimal n).length) 48 ++ decimal n := take_left' hsix
  have hdrop : (segmentName n).drop 6 = walSuffix := drop_left' hsix
  have hwhile : ((segmentName n).take 6).takeWhile isDigit =
      List.replicate (6 - (decimal n).length) 48 ++ decimal n := by
    rw [htake]
    exact takeWhile_eq_self_iff.mpr isDigit_padded
  rw [scanSegmentName, hwhile, hsix, hdrop, if_pos (show walSuffix.take 4 = walSuffix from rfl)]
  exact parseDigits_padded _ (h.trans (by decide))

end Names

section Directory

structure SegmentFile where
  name : GoString
  data : Bytes
  /-- The bytes that an `fsync` has made stable. -/
  stable : Nat
  deriving DecidableEq

def SegmentFile.entry (f : SegmentFile) : GoString × Bytes := (f.name, f.data)

structure SegmentInfo where
  number : Nat
  name : GoString
  data : Bytes

def listSegments (files : List SegmentFile) : List SegmentInfo :=
  (files.filterMap fun f => (scanSegmentName f.name).map fun number => ⟨number, f.name, f.data⟩).insertionSort
    fun a b => a.number ≤ b.number

/-- `O_CREATE`. -/
def createFile (name : GoString) (files : List SegmentFile) : List SegmentFile :=
  if files.any fun f => f.name = name then files else files ++ [⟨name, [], 0⟩]

def fileSize (name : GoString) (files : List SegmentFile) : Nat :=
  ((files.find? fun f => f.name = name).map fun f => f.data.length).getD 0

def updateFile (name : GoString) (update : SegmentFile → SegmentFile) (files : List SegmentFile) : List SegmentFile :=
  files.map fun f => if f.name = name then update f else f

/-- `O_APPEND`. -/
def writeFile (name : GoString) (bytes : Bytes) : List SegmentFile → List SegmentFile :=
  updateFile name fun f => { f with data := f.data ++ bytes }

def syncFile (name : GoString) : List SegmentFile → List SegmentFile :=
  updateFile name fun f => { f with stable := f.data.length }

def truncateFile (name : GoString) (size : Nat) : List SegmentFile → List SegmentFile :=
  updateFile name fun f => { f with data := f.data.take size, stable := min f.stable size }

end Directory

structure Options where
  sync : Bool
  segmentBytes : Int
  batchRecords : Int
  batchBytes : Int

def defaultSegmentBytes : Int := 64 * 2 ^ 20

/-- The variable `file` of a log: no file, an open one, or one whose `Close` has failed. -/
inductive Handle
  | none | opened | closed
  deriving DecidableEq

structure Log where
  files : List SegmentFile
  opts : Options
  file : Handle
  segment : Nat
  size : Nat
  pendingRecords : Nat
  pendingBytes : Nat

inductive LogError
  | encodeRecord | encodeTyped | closeSegment | openSegment | writeHeader | write | sync | replay (e : ReplayError)

abbrev LogM := EStateM LogError Log

inductive OpenFault
  | none
  | refused
  | header (written : Nat)

structure Faults where
  close : Bool
  opening : OpenFault
  write : Option Nat
  sync : Bool

def noFaults : Faults := ⟨false, .none, none, false⟩

namespace Log

section Calls
variable (crc : Bytes → UInt32)

def write (bytes : Bytes) (l : Log) : Log := { l with files := writeFile (segmentName l.segment) bytes l.files }

def closeFile (fails : Bool) : LogM Unit := do
  let l ← get
  if l.file ≠ .opened then throw .closeSegment
  if fails then
    set { l with file := .closed }
    throw .closeSegment
  set { l with file := .none }

def openSegment (fault : OpenFault) (number : Nat) : LogM Unit := do
  let l ← get
  let name := segmentName number
  let files := createFile name l.files
  match fault with
  | .refused => throw .openSegment
  | .header written =>
    let start := (segmentHeader crc).take written
    set { l with files := if fileSize name files = 0 then writeFile name start files else files }
    throw .writeHeader
  | .none =>
    if fileSize name files = 0 then
      set { l with
        files := writeFile name (segmentHeader crc) files
        file := .opened
        segment := number
        size := walSegmentHeaderLen }
    else
      set { l with files := files, file := .opened, segment := number, size := fileSize name files }

def openLastSegment : LogM Unit := do
  let l ← get
  match (listSegments l.files).getLast? with
  | none => openSegment crc .none 1
  | some last => openSegment crc .none last.number

def fresh (opts : Options) (files : List SegmentFile) : Log where
  files := files
  opts := if opts.segmentBytes ≤ 0 then { opts with segmentBytes := defaultSegmentBytes } else opts
  file := .none
  segment := 1
  size := 0
  pendingRecords := 0
  pendingBytes := 0

/-- `Open` on a directory, without faults. -/
def openDir (opts : Options) (files : List SegmentFile) : Log := exec (openLastSegment crc) (fresh opts files)

def Rolls (l : Log) (frameSize : Nat) : Prop :=
  ¬ (l.size = 0 ∨ ((l.size + frameSize : Nat) : Int) ≤ l.opts.segmentBytes)

instance (l : Log) (frameSize : Nat) : Decidable (l.Rolls frameSize) := inferInstanceAs (Decidable (¬ _))

def rollIfNeeded (faults : Faults) (frameSize : Nat) : LogM Unit := do
  let l ← get
  if l.Rolls frameSize then
    closeFile faults.close
    openSegment crc faults.opening (l.segment + 1)

def writeFrame (fault : Option Nat) (frame : Bytes) : LogM Unit := do
  let l ← get
  if l.file ≠ .opened then throw .write
  match fault with
  | some written =>
    set (l.write (frame.take written))
    throw .write
  | none => set (l.write frame)

def countFrame (frameSize : Nat) (l : Log) : Log :=
  { l with
    size := l.size + frameSize
    pendingRecords := l.pendingRecords + 1
    pendingBytes := l.pendingBytes + frameSize }

def shouldSync (l : Log) (syncWrite : Bool) : Bool :=
  syncWrite || l.opts.sync || (0 < l.opts.batchRecords && l.opts.batchRecords ≤ l.pendingRecords) ||
    (0 < l.opts.batchBytes && l.opts.batchBytes ≤ l.pendingBytes)

def synced (l : Log) : Log :=
  { l with files := syncFile (segmentName l.segment) l.files, pendingRecords := 0, pendingBytes := 0 }

/-- `storagefs.Sync` of the open file, after which nothing is pending. -/
def sync (fails : Bool) : LogM Unit := do
  let l ← get
  if l.file ≠ .opened ∨ fails then throw .sync
  set l.synced

def appendFrame (faults : Faults) (recordType : UInt8) (payload : Bytes) (syncWrite : Bool) : LogM Unit := do
  let frame := encodeFrame crc recordType payload
  rollIfNeeded crc faults frame.length
  writeFrame faults.write frame
  modify (countFrame frame.length)
  let l ← get
  if l.shouldSync syncWrite then sync faults.sync

def syncPending (fails : Bool) : LogM Unit := do
  let l ← get
  if l.file ≠ .none ∧ l.pendingRecords ≠ 0 then sync fails

def removeCheckpointed (oldSegment : Nat) (l : Log) : Log :=
  { l with files := l.files.filter fun f => (scanSegmentName f.name).all fun number => oldSegment < number }

def checkpoint (faults : Faults) : LogM Unit := do
  syncPending faults.sync
  let l ← get
  if l.file ≠ .none then closeFile faults.close
  openSegment crc faults.opening (l.segment + 1)
  modify (removeCheckpointed l.segment)

/-- The records of the segments, and where the last one is to be cut off. -/
def replaySegments : List SegmentInfo → Except ReplayError (List Record × Option (GoString × Nat))
  | [] => .ok ([], none)
  | [last] => do
    let (records, cut) ← replaySegment crc true last.data
    return (records, cut.map fun size => (last.name, size))
  | segment :: segments => do
    let (records, _) ← replaySegment crc false segment.data
    let (later, cut) ← replaySegments segments
    return (records ++ later, cut)

def truncate (cut : Option (GoString × Nat)) (l : Log) : Log :=
  match cut with
  | none => l
  | some (name, size) => { l with files := truncateFile name size l.files }

def replayRecords : LogM (List Record) := do
  let l ← get
  match replaySegments crc (listSegments l.files) with
  | .error e => throw (.replay e)
  | .ok (records, cut) =>
    set (l.truncate cut)
    return records

end Calls

end Log

section Contents
variable (crc : Bytes → UInt32)

structure Content where
  number : Nat
  frames : List Frame
  tail : Bytes

def Content.data (c : Content) : Bytes := segmentBytes crc c.frames c.tail

def Content.entry (c : Content) : GoString × Bytes := (segmentName c.number, c.data crc)

def Content.info (c : Content) : SegmentInfo := ⟨c.number, segmentName c.number, c.data crc⟩

/-- The directory holds these segments and they are in the order of their numbers. -/
structure Stores (files : List SegmentFile) (contents : List Content) : Prop where
  entries : files.map SegmentFile.entry = contents.map (Content.entry crc)
  ordered : contents.Pairwise fun a b => a.number < b.number

structure Holds (l : Log) (init : List Content) (last : Content) : Prop where
  stores : Stores crc l.files (init ++ [last])
  segment : l.segment = last.number
  handle : l.file = .opened

theorem Content.pos_length_data (c : Content) : 0 < (c.data crc).length := by
  rw [Content.data, segmentBytes, length_append, length_segmentHeader, walSegmentHeaderLen]
  omega

variable {crc} {files : List SegmentFile} {contents init : List Content} {last : Content} {l : Log}

theorem Stores.number_lt (h : Stores crc files (init ++ [last])) : ∀ c ∈ init, c.number < last.number := by
  intro c hc
  exact (pairwise_append.mp h.ordered).2.2 c hc last (mem_singleton_self _)

theorem Stores.number_le (h : Stores crc files (init ++ [last])) : ∀ c ∈ init ++ [last], c.number ≤ last.number := by
  intro c hc
  rcases mem_append.mp hc with hc | hc
  · exact (h.number_lt c hc).le
  · rw [mem_singleton.mp hc]

theorem Stores.name_ne (h : Stores crc files (init ++ [last])) (hnum : last.number < 10 ^ 20) :
    ∀ c ∈ init, segmentName c.number ≠ segmentName last.number := by
  intro c hc heq
  have hlt := h.number_lt c hc
  exact hlt.ne (segmentName_inj (hlt.trans hnum) hnum heq)

theorem listSegments_of_stores (h : Stores crc files contents) (hnum : ∀ c ∈ contents, c.number < 10 ^ 6) :
    listSegments files = contents.map (Content.info crc) := by
  have hscan : files.filterMap (fun f => (scanSegmentName f.name).map fun number =>
      (⟨number, f.name, f.data⟩ : SegmentInfo)) = contents.map (Content.info crc) := by
    calc _ = (files.map SegmentFile.entry).filterMap fun e => (scanSegmentName e.1).map fun number => ⟨number, e.1, e.2⟩ := by
          rw [filterMap_map]
          rfl
      _ = contents.filterMap fun c => some (c.info crc) := by
          rw [h.entries, filterMap_map]
          refine filterMap_congr fun c hc => ?_
          simp only [Function.comp, Content.entry, scanSegmentName_segmentName (hnum c hc)]
          rfl
      _ = contents.map (Content.info crc) := by rw [filterMap_eq_map']
  rw [listSegments, hscan]
  refine List.Pairwise.insertionSort_eq (pairwise_map.mpr ?_)
  exact h.ordered.imp fun hlt => hlt.le

section
variable (h : Stores crc files (init ++ [last])) (hnum : last.number < 10 ^ 20)
include h hnum

theorem stores_updateFile (change : Bytes → Bytes)
    (hupdate : ∀ f, (update f).entry = (f.name, change f.data)) (hnumber : last'.number = last.number)
    (hdata : last'.data crc = change (last.data crc)) :
    Stores crc (updateFile (segmentName last.number) update files) (init ++ [last']) := by
  have hentry : ∀ f, (if f.name = segmentName last.number then update f else f).entry =
      if f.entry.1 = segmentName last.number then (f.entry.1, change f.entry.2) else f.entry := by
    intro f
    rw [apply_ite SegmentFile.entry, hupdate]
    rfl
  constructor
  · calc (updateFile (segmentName last.number) update files).map SegmentFile.entry
        = (files.map SegmentFile.entry).map
            (fun e => if e.1 = segmentName last.number then (e.1, change e.2) else e) := by
          rw [updateFile, map_map, map_map]
          exact map_congr_left fun f _ => hentry f
      _ = (init ++ [last']).map (Content.entry crc) := by
          rw [h.entries, map_append, map_append, map_append, map_map]
          congr 1
          · exact map_congr_left fun c hc => if_neg (h.name_ne hnum c hc)
          · simp [Content.entry, hnumber, hdata]
  · have hord := h.ordered
    rw [pairwise_append] at hord ⊢
    refine ⟨hord.1, pairwise_singleton .., fun a ha b hb => ?_⟩
    rw [mem_singleton.mp hb, hnumber]
    exact h.number_lt a ha

theorem stores_writeFile (bytes : Bytes) :
    Stores crc (writeFile (segmentName last.number) bytes files) (init ++ [{ last with tail := last.tail ++ bytes }]) :=
  stores_updateFile h hnum (· ++ bytes) (fun _ => rfl) rfl (by simp [Content.data, segmentBytes])

theorem stores_syncFile : Stores crc (syncFile (segmentName last.number) files) (init ++ [last]) :=
  stores_updateFile h hnum id (fun _ => rfl) rfl rfl

theorem stores_truncateFile :
    Stores crc (truncateFile (segmentName last.number) (segmentBytes crc last.frames []).length files)
      (init ++ [{ last with tail := [] }]) := by
  refine stores_updateFile h hnum (take (segmentBytes crc last.frames []).length) (fun _ => rfl) rfl ?_
  have hdata : last.data crc = segmentBytes crc last.frames [] ++ last.tail := by
    simp [Content.data, segmentBytes]
  rw [hdata, take_left' rfl]
  rfl

theorem stores_fileSize : fileSize (segmentName last.number) files = (last.data crc).length := by
  have hsize : fileSize (segmentName last.number) files =
      (((files.map SegmentFile.entry).find? fun e => e.1 = segmentName last.number).map fun e => e.2.length).getD 0 := by
    rw [find?_map, Option.map_map]
    rfl
  have hnone : (init.map (Content.entry crc)).find? (fun e => e.1 = segmentName last.number) = none := by
    rw [find?_eq_none]
    intro e he
    obtain ⟨c, hc, rfl⟩ := mem_map.mp he
    exact fun heq => h.name_ne hnum c hc (of_decide_eq_true heq)
  rw [hsize, h.entries, map_append, find?_append, hnone]
  simp [Content.entry]

end

theorem Stores.name_of_mem (h : Stores crc files contents) (hf : f ∈ files) :
    ∃ c ∈ contents, f.entry = c.entry crc := by
  have hmem := mem_map_of_mem (f := SegmentFile.entry) hf
  rw [h.entries] at hmem
  obtain ⟨c, hc, heq⟩ := mem_map.mp hmem
  exact ⟨c, hc, heq.symm⟩

theorem fileSize_append_new (hne : ∀ f ∈ files, f.name ≠ name) : fileSize name (files ++ [⟨name, [], 0⟩]) = 0 := by
  have hnone : files.find? (fun f => f.name = name) = none := by
    rw [find?_eq_none]
    intro f hf
    simpa using hne f hf
  rw [fileSize, find?_append, hnone]
  simp

section
variable (h : Stores crc files contents) {number : Nat} (hnum : number < 10 ^ 20)
  (hlt : ∀ c ∈ contents, c.number < number)
include h hnum hlt

theorem Stores.name_ne_new : ∀ f ∈ files, f.name ≠ segmentName number := by
  intro f hf hname
  obtain ⟨c, hc, hentry⟩ := h.name_of_mem hf
  have hcname : segmentName c.number = segmentName number := (congrArg Prod.fst hentry).symm.trans hname
  exact (hlt c hc).ne (segmentName_inj ((hlt c hc).trans hnum) hnum hcname)

theorem stores_createFile : createFile (segmentName number) files = files ++ [⟨segmentName number, [], 0⟩] := by
  rw [createFile, if_neg]
  intro hany
  obtain ⟨f, hf, hname⟩ := any_eq_true.mp hany
  exact h.name_ne_new hnum hlt f hf (of_decide_eq_true hname)

theorem stores_writeHeader :
    Stores crc (writeFile (segmentName number) (segmentHeader crc) (files ++ [⟨segmentName number, [], 0⟩]))
      (contents ++ [⟨number, [], []⟩]) := by
  have hne := h.name_ne_new hnum hlt
  constructor
  · have hold : (writeFile (segmentName number) (segmentHeader crc) files) = files := by
      conv_rhs => rw [← map_id files]
      exact map_congr_left fun f hf => if_neg (hne f hf)
    rw [writeFile, updateFile, map_append, ← updateFile, ← writeFile, hold, map_append, h.entries, map_append]
    simp [SegmentFile.entry, Content.entry, Content.data, segmentBytes]
  · refine pairwise_append.mpr ⟨h.ordered, pairwise_singleton .., fun a ha b hb => ?_⟩
    rw [mem_singleton.mp hb]
    exact hlt a ha

end

end Contents

section Specs
variable {crc : Bytes → UInt32} {contents init : List Content} {last : Content} {l : Log} {number : Nat}
  {faults : Faults} {files : List SegmentFile} {c : Content}

theorem ends_openSegment_new (h : Stores crc l.files contents) (hnum : number < 10 ^ 20)
    (hlt : ∀ c ∈ contents, c.number < number) :
    Ends (Log.openSegment crc .none number l)
      (fun _ l' => (l'.opts = l.opts ∧ l'.size = walSegmentHeaderLen) ∧ Holds crc l' contents ⟨number, [], []⟩)
      fun _ => False := by
  have hcreate := stores_createFile h hnum hlt
  have hsize : fileSize (segmentName number) (createFile (segmentName number) l.files) = 0 := by
    rw [hcreate]
    exact fileSize_append_new (h.name_ne_new hnum hlt)
  refine ends_get_bind ?_
  rw [if_pos hsize, hcreate]
  exact ⟨⟨rfl, rfl⟩, stores_writeHeader h hnum hlt, rfl, rfl⟩

theorem openSegment_last (h : Stores crc l.files (init ++ [last])) (hnum : last.number < 10 ^ 20) :
    Log.openSegment crc .none last.number l =
      .ok ⟨⟩ { l with file := .opened, segment := last.number, size := (last.data crc).length } := by
  have hsize := stores_fileSize h hnum
  have hpos := last.pos_length_data crc
  have hcreate : createFile (segmentName last.number) l.files = l.files := by
    rw [createFile, if_pos]
    by_contra hany
    have hnone : l.files.find? (fun f => f.name = segmentName last.number) = none := by
      rw [find?_eq_none]
      intro f hf heq
      exact hany (any_eq_true.mpr ⟨f, hf, heq⟩)
    rw [fileSize, hnone] at hsize
    simp only [Option.map_none, Option.getD_none] at hsize
    omega
  change (if fileSize (segmentName last.number) (createFile (segmentName last.number) l.files) = 0 then _ else _ :
    LogM Unit) l = _
  rw [hcreate, hsize, if_neg (by omega)]
  rfl

theorem ends_closeFile (h : l.file = .opened) :
    Ends (Log.closeFile false l) (fun _ l' => l' = { l with file := .none }) fun _ => False := by
  refine ends_get_bind ?_
  rw [if_neg (not_not.mpr h)]
  rfl

def rolledTo (l : Log) (frameSize : Nat) (init : List Content) (last : Content) : List Content × Content :=
  if l.Rolls frameSize then (init ++ [last], ⟨last.number + 1, [], []⟩) else (init, last)

section
variable (h : Holds crc l init last)
include h

theorem ends_rollIfNeeded (hnum : last.number < 10 ^ 6) (hclose : faults.close = false)
    (hopen : faults.opening = .none) (frameSize : Nat) :
    Ends (Log.rollIfNeeded crc faults frameSize l)
      (fun _ l' => (l'.opts = l.opts ∧ l'.size = if l.Rolls frameSize then walSegmentHeaderLen else l.size) ∧
        Holds crc l' (rolledTo l frameSize init last).1 (rolledTo l frameSize init last).2)
      fun _ => False := by
  refine ends_get_bind ?_
  rw [rolledTo]
  split
  · rw [hclose, hopen]
    refine (ends_closeFile h.handle).bind ?_
    rintro _ _ rfl
    rw [h.segment]
    refine ends_openSegment_new ?_ (by omega) fun c hc => ?_
    · exact h.stores
    · exact Nat.lt_succ_of_le (h.stores.number_le c hc)
  · exact ends_pure ⟨⟨rfl, rfl⟩, h⟩

def writtenOf (fault : Option Nat) (frame : Bytes) : Bytes :=
  match fault with
  | some written => frame.take written
  | none => frame

def Content.extend (c : Content) (bytes : Bytes) : Content := { c with tail := c.tail ++ bytes }

theorem Holds.write (hnum : last.number < 10 ^ 20) (bytes : Bytes) :
    Holds crc (l.write bytes) init (last.extend bytes) := by
  refine ⟨?_, h.segment, h.handle⟩
  rw [Log.write, h.segment]
  exact stores_writeFile h.stores hnum bytes

theorem ends_writeFrame (hnum : last.number < 10 ^ 20) (fault : Option Nat) (frame : Bytes) :
    Ends (Log.writeFrame fault frame l)
      (fun _ l' => (fault = none ∧ l' = l.write frame) ∧ Holds crc l' init (last.extend frame))
      fun l' => fault ≠ none ∧ Holds crc l' init (last.extend (writtenOf fault frame)) := by
  refine ends_get_bind ?_
  rw [if_neg (not_not.mpr h.handle)]
  cases fault with
  | none => exact ⟨⟨rfl, rfl⟩, h.write hnum frame⟩
  | some written => exact ⟨by simp, h.write hnum (frame.take written)⟩

theorem ends_sync (hnum : last.number < 10 ^ 20) (fails : Bool) :
    Ends (Log.sync fails l) (fun _ l' => l' = l.synced ∧ Holds crc l' init last)
      fun l' => fails = true ∧ Holds crc l' init last := by
  refine ends_get_bind ?_
  cases fails with
  | true =>
    rw [if_pos (.inr rfl)]
    exact ⟨rfl, h⟩
  | false =>
    rw [if_neg (by simp [h.handle])]
    refine ⟨rfl, ?_, h.segment, h.handle⟩
    rw [Log.synced, h.segment]
    exact stores_syncFile h.stores hnum

/-- An append writes behind what the open segment holds, after a roll behind a new header. -/
theorem ends_appendFrame (hnum : last.number < 10 ^ 6) (hclose : faults.close = false)
    (hopen : faults.opening = .none) (recordType : UInt8) (payload : Bytes) (syncWrite : Bool)
    (segments : List Content × Content)
    (hsegments : segments = rolledTo l (encodeFrame crc recordType payload).length init last) :
    Ends (Log.appendFrame crc faults recordType payload syncWrite l)
      (fun _ l' => (faults.write = none ∧ l'.opts = l.opts ∧
          l'.size = (if l.Rolls (encodeFrame crc recordType payload).length then walSegmentHeaderLen else l.size) +
            (encodeFrame crc recordType payload).length) ∧
        Holds crc l' segments.1 (segments.2.extend (encodeFrame crc recordType payload)))
      fun l' => (faults.write ≠ none ∨ faults.sync = true) ∧
        Holds crc l' segments.1 (segments.2.extend (writtenOf faults.write (encodeFrame crc recordType payload))) := by
  have hnum' : segments.2.number < 10 ^ 20 := by
    rw [hsegments, rolledTo]
    split <;> dsimp only <;> omega
  refine Ends.bind ((ends_rollIfNeeded h hnum hclose hopen _).mono (fun _ _ h => h) fun _ h => h.elim) ?_
  rintro _ l₁ ⟨⟨hopts, hsize⟩, h₁⟩
  rw [← hsegments] at h₁
  refine Ends.bind ((ends_writeFrame h₁ hnum' faults.write _).mono (fun _ _ h => h) fun _ h => ⟨.inl h.1, h.2⟩) ?_
  rintro _ _ ⟨⟨hnone, rfl⟩, h₂⟩
  have hwritten : writtenOf faults.write (encodeFrame crc recordType payload) = encodeFrame crc recordType payload := by
    rw [hnone]
    rfl
  have h₃ : Holds crc ((l₁.write _).countFrame (encodeFrame crc recordType payload).length) segments.1
      (segments.2.extend (encodeFrame crc recordType payload)) := ⟨h₂.stores, h₂.segment, h₂.handle⟩
  refine ends_modify_bind (ends_get_bind ?_)
  rw [hwritten]
  split
  · refine (ends_sync h₃ hnum' faults.sync).mono ?_ fun _ h => ⟨.inr h.1, h.2⟩
    rintro _ _ ⟨rfl, h⟩
    exact ⟨⟨hnone, hopts, congrArg (· + _) hsize⟩, h⟩
  · exact ends_pure ⟨⟨hnone, hopts, congrArg (· + _) hsize⟩, h₃⟩

theorem ends_syncPending (hnum : last.number < 10 ^ 20) :
    Ends (Log.syncPending false l) (fun _ l' => Holds crc l' init last) fun _ => False := by
  refine ends_get_bind ?_
  split
  · exact (ends_sync h hnum false).mono (fun _ _ h => h.2) fun _ h => by simp at h
  · exact ends_pure h

end

theorem holds_removeCheckpointed (h : Holds crc l contents ⟨number + 1, [], []⟩) (hnum : number + 1 < 10 ^ 6) :
    Holds crc (l.removeCheckpointed number) [] ⟨number + 1, [], []⟩ := by
  have hlt : ∀ c ∈ contents, c.number < number + 1 := h.stores.number_lt
  have hnone : contents.filter (fun c => number < c.number) = [] := by
    rw [filter_eq_nil_iff]
    intro c hc
    have := hlt c hc
    simp only [decide_eq_true_eq]
    omega
  have hentries : (l.removeCheckpointed number).files.map SegmentFile.entry =
      [(⟨number + 1, [], []⟩ : Content)].map (Content.entry crc) := by
    calc (l.removeCheckpointed number).files.map SegmentFile.entry
        = (l.files.map SegmentFile.entry).filter fun e => (scanSegmentName e.1).all fun n => number < n := by
          rw [Log.removeCheckpointed, filter_map]
          rfl
      _ = ((contents ++ [(⟨number + 1, [], []⟩ : Content)]).filter fun c => number < c.number).map
            (Content.entry crc) := by
          rw [h.stores.entries, filter_map]
          refine congrArg _ (filter_congr fun c hc => ?_)
          have hc := h.stores.number_le c hc
          simp [Content.entry, scanSegmentName_segmentName (hc.trans_lt hnum)]
      _ = [(⟨number + 1, [], []⟩ : Content)].map (Content.entry crc) := by
          rw [filter_append, hnone]
          simp
  exact ⟨⟨hentries, pairwise_singleton ..⟩, h.segment, h.handle⟩

theorem ends_checkpoint (h : Holds crc l init last) (hnum : last.number + 1 < 10 ^ 20) :
    Ends (Log.checkpoint crc noFaults l)
      (fun _ l' => ∃ opened, Holds crc opened (init ++ [last]) ⟨last.number + 1, [], []⟩ ∧
        l' = opened.removeCheckpointed last.number) fun _ => False := by
  refine (ends_syncPending h (by omega)).bind ?_
  rintro _ l₁ h₁
  refine ends_get_bind ?_
  rw [if_pos (by simp [h₁.handle]), h₁.segment]
  refine (ends_closeFile h₁.handle).bind ?_
  rintro _ _ rfl
  refine Ends.bind (Q := fun _ l' => Holds crc l' (init ++ [last]) ⟨last.number + 1, [], []⟩) ?_ ?_
  · refine (ends_openSegment_new ?_ hnum fun c hc => ?_).mono (fun _ _ h => h.2) fun _ h => h
    · exact h₁.stores
    · exact Nat.lt_succ_of_le (h₁.stores.number_le c hc)
  · rintro _ l₂ h₂
    exact ⟨l₂, h₂, rfl⟩

theorem openDir_nil_spec (opts : Options) :
    ((Log.openDir crc opts []).opts = (Log.fresh opts []).opts ∧ (Log.openDir crc opts []).size = walSegmentHeaderLen) ∧
      Holds crc (Log.openDir crc opts []) [] ⟨1, [], []⟩ := by
  have hstores : Stores crc (Log.fresh opts []).files [] := ⟨rfl, List.Pairwise.nil⟩
  refine exec_of_ends (P := fun l => (l.opts = (Log.fresh opts []).opts ∧
    l.size = walSegmentHeaderLen) ∧ Holds crc l [] ⟨1, [], []⟩) (ends_get_bind ?_)
  exact (ends_openSegment_new hstores (by decide) (by simp)).mono (fun _ _ h => h) fun _ h => h.elim

theorem openDir_nil (opts : Options) : Holds crc (Log.openDir crc opts []) [] ⟨1, [], []⟩ := (openDir_nil_spec opts).2

theorem openDir_eq (opts : Options) (h : Stores crc files (init ++ [last])) (hnum : last.number < 10 ^ 6) :
    Log.openDir crc opts files =
      { Log.fresh opts files with file := .opened, segment := last.number, size := (last.data crc).length } := by
  have hlist : listSegments files = (init ++ [last]).map (Content.info crc) :=
    listSegments_of_stores h fun c hc => (h.number_le c hc).trans_lt hnum
  have hlast : (listSegments files).getLast? = some (last.info crc) := by
    rw [hlist, map_append, map_singleton, getLast?_concat]
  refine exec_of_ok (a := ⟨⟩) ?_
  change (match (listSegments files).getLast? with
    | none => Log.openSegment crc .none 1
    | some last => Log.openSegment crc .none last.number : LogM Unit) (Log.fresh opts files) = _
  rw [hlast]
  exact openSegment_last h (by omega)

theorem openDir_stores (opts : Options) (h : Stores crc files (init ++ [last])) (hnum : last.number < 10 ^ 6) :
    Holds crc (Log.openDir crc opts files) init last := by
  rw [openDir_eq opts h hnum]
  exact ⟨h, rfl, rfl⟩

def recordsOf (contents : List Content) : List Record := contents.flatMap fun c => c.frames.map Frame.record

/-- A reader takes the end of the frames for the end of the file. -/
def Content.Ended (crc : Bytes → UInt32) (c : Content) : Prop := readFrame crc c.tail = .error .eof

theorem ended_of_tail_nil (h : c.tail = []) : c.Ended crc := by
  rw [Content.Ended, h]
  exact readFrame_nil crc

theorem replaySegment_ended (h : c.Ended crc) (isLast : Bool) :
    replaySegment crc isLast (c.data crc) = .ok (c.frames.map Frame.record, none) := replaySegment_of_eof crc h

theorem replaySegments_contents (hended : ∀ c ∈ init, c.Ended crc) :
    Log.replaySegments crc ((init ++ [last]).map (Content.info crc)) =
      (replaySegment crc true (last.data crc)).map
        fun r => (recordsOf init ++ r.1, r.2.map fun size => (segmentName last.number, size)) := by
  induction init with
  | nil =>
    rw [nil_append, map_singleton, Log.replaySegments]
    cases hlast : replaySegment crc true (last.data crc) <;> simp only [Content.info, hlast] <;> rfl
  | cons c init ih =>
    obtain ⟨hc, hinit⟩ := forall_mem_cons.mp hended
    have hne : (init ++ [last]).map (Content.info crc) ≠ [] := by simp
    have hrecords : recordsOf (c :: init) = c.frames.map Frame.record ++ recordsOf init := flatMap_cons ..
    rw [cons_append, map_cons, Log.replaySegments, ih hinit, hrecords]
    · simp only [Content.info, replaySegment_ended hc]
      cases replaySegment crc true (last.data crc) with
      | error e => rfl
      | ok r => simp [Except.map, bind, Except.bind, pure, Except.pure]
    · exact hne

theorem replaySegments_error (hended : ∀ c ∈ init, c.Ended crc) (hlater : later ≠ [])
    (herror : replaySegment crc false (middle.data crc) = .error e) :
    Log.replaySegments crc ((init ++ middle :: later).map (Content.info crc)) = .error e := by
  induction init with
  | nil =>
    rw [nil_append, map_cons, Log.replaySegments]
    · simp only [Content.info, herror]
      rfl
    · simpa using hlater
  | cons c init ih =>
    obtain ⟨hc, hinit⟩ := forall_mem_cons.mp hended
    rw [cons_append, map_cons, Log.replaySegments, ih hinit]
    · simp only [Content.info, replaySegment_ended hc]
      rfl
    · simp

theorem replayRecords_eq : Log.replayRecords crc l = (match Log.replaySegments crc (listSegments l.files) with
    | .error e => throw (.replay e)
    | .ok (records, cut) => do set (l.truncate cut); return records : LogM (List Record)) l := rfl

theorem replayRecords_stores (h : Stores crc l.files (init ++ [last])) (hnum : last.number < 10 ^ 6)
    (hended : ∀ c ∈ init, c.Ended crc) :
    Log.replayRecords crc l =
      match replaySegment crc true (last.data crc) with
      | .error e => .error (.replay e) l
      | .ok (records, cut) =>
        .ok (recordsOf init ++ records) (l.truncate (cut.map fun size => (segmentName last.number, size))) := by
  have hlist := listSegments_of_stores h fun c hc => (h.number_le c hc).trans_lt hnum
  rw [replayRecords_eq, hlist, replaySegments_contents hended]
  cases replaySegment crc true (last.data crc) <;> rfl

end Specs

end Mts.Wal
