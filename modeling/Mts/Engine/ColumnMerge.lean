import Mts.Engine.SampleMerge
import Mts.Lib.Runs

/-! Merging columns: `mergeColumnData` of compaction and `MergeColumnDataStreams` of the query
executor both form, in key order, one group per series and field and merge its samples. -/

namespace Mts.Engine
open Lib Model List

variable {columns : List ColumnData} {a b : ColumnData} {sources : List (List ColumnData)}
  {c key : ColumnData}

def columnLess (a b : ColumnData) : Prop := a.seriesID < b.seriesID ∨ a.seriesID = b.seriesID ∧ a.fieldID < b.fieldID

def columnLe (a b : ColumnData) : Prop := a.seriesID < b.seriesID ∨ a.seriesID = b.seriesID ∧ a.fieldID ≤ b.fieldID

def sameColumn (a b : ColumnData) : Prop := a.seriesID = b.seriesID ∧ a.fieldID = b.fieldID

instance : DecidableRel columnLess := fun _ _ => inferInstanceAs (Decidable (_ ∨ _))
instance : DecidableRel columnLe := fun _ _ => inferInstanceAs (Decidable (_ ∨ _))
instance : DecidableRel sameColumn := fun _ _ => inferInstanceAs (Decidable (_ ∧ _))

instance : Std.Total columnLe := ⟨fun a b => by unfold columnLe; grind⟩
instance : IsTrans ColumnData columnLe := ⟨fun a b c => by unfold columnLe; grind⟩

def sortColumnData (columns : List ColumnData) : List ColumnData := columns.insertionSort columnLe

abbrev Group := ColumnData × List ColumnData

variable {groups : List Group} {g : Group}

def Group.samples (g : Group) : Samples := (g.1 :: g.2).flatMap ColumnData.samples

def groupColumns : List ColumnData → List Group
  | [] => []
  | c :: cs =>
    match groupColumns cs with
    | [] => [(c, [])]
    | g :: gs => if sameColumn c g.1 then (c, g.1 :: g.2) :: gs else (c, []) :: g :: gs

def columnsSamplesOrdered (columns : List ColumnData) : Bool := columns.all fun c => samplesOrdered c.samples

def mergeColumnGroup (g : Group) : ColumnData :=
  if g.2.isEmpty && samplesStrictlyIncreasing g.1.samples then g.1
  else if columnsSamplesOrdered (g.1 :: g.2) then
    { g.1 with samples := mergeOrderedSamples ((g.1 :: g.2).map ColumnData.samples) }
  else { g.1 with samples := mergeSamples g.samples }

def mergeColumnData (columns : List ColumnData) : List ColumnData :=
  (groupColumns (sortColumnData columns)).map mergeColumnGroup

def minSource : List (List ColumnData) → Option ColumnData
  | [] => none
  | [] :: sources => minSource sources
  | (c :: _) :: sources =>
    match minSource sources with
    | none => some c
    | some d => if columnLess d c then some d else some c

/-- The columns of one key at the head of the sources, and the sources advanced past them. -/
def nextGroup (key : ColumnData) : List (List ColumnData) → List ColumnData × List (List ColumnData)
  | [] => ([], [])
  | source :: sources =>
    let (group, rest) := nextGroup key sources
    match source with
    | [] => (group, [] :: rest)
    | c :: cs => if sameColumn key c then (c :: group, cs :: rest) else (group, (c :: cs) :: rest)

/-- `mergeColumnGroup` of the query executor. -/
def mergeQueryGroup (g : Group) : ColumnData := { g.1 with samples := mergeQuerySamples g.samples }

/-- Each round reads at least one column, so the total number of columns is fuel enough. -/
def streamGroups : Nat → List (List ColumnData) → List Group
  | 0, _ => []
  | fuel + 1, sources =>
    match minSource sources with
    | none => []
    | some key =>
      match nextGroup key sources with
      | ([], _) => []
      | (c :: cs, rest) => (c, cs) :: streamGroups fuel rest

def mergeColumnDataStreams (sources : List (List ColumnData)) : List ColumnData :=
  (streamGroups sources.flatten.length sources).map mergeQueryGroup

/-- One group per series and field that occurs, with all the columns of it, in key order. -/
structure Groups (columns : List ColumnData) (groups : List Group) : Prop where
  mem : ∀ g ∈ groups, ∀ c, c ∈ g.1 :: g.2 ↔ c ∈ columns ∧ sameColumn g.1 c
  cover : ∀ c ∈ columns, ∃ g ∈ groups, sameColumn g.1 c
  sorted : groups.Pairwise fun g h => columnLess g.1 h.1

/-- `out` holds, in key and time order, exactly the newest versions of `input`. -/
structure ColumnsMergeTo (input out : List ColumnData) : Prop where
  mem_iff : ∀ v, v ∈ versions out ↔ IsLatest {u | u ∈ versions input} v
  keys : out.Pairwise columnLess
  times : ∀ c ∈ out, c.samples.Pairwise fun a b => a.timestamp < b.timestamp

theorem isLatest_versions_iff :
    IsLatest {u | u ∈ versions columns} v ↔
      IsLatest {x | (⟨v.seriesID, v.fieldID, x⟩ : Version) ∈ versions columns} v.sample := by
  constructor
  · rintro ⟨hmem, hmax⟩
    exact ⟨hmem, fun x hx hk => hmax _ hx (by simpa using hk)⟩
  · rintro ⟨hmem, hmax⟩
    refine ⟨hmem, fun ⟨s, f, x⟩ hu hk => ?_⟩
    simp only [Version.key_eq, Prod.mk.injEq] at hk
    obtain ⟨rfl, rfl, hts⟩ := hk
    exact hmax x hu hts

theorem consistent_samples (h : Consistent {u | u ∈ versions columns}) (s : UInt64) (f : UInt32) :
    Consistent {x | (⟨s, f, x⟩ : Version) ∈ versions columns} := by
  intro x hx y hy hk hs
  have := h _ hx _ hy (by simpa using hk) hs
  simpa using this

theorem Groups.mem_samples (h : Groups columns groups) (hg : g ∈ groups) (x : VersionedSample) :
    x ∈ g.samples ↔ (⟨g.1.seriesID, g.1.fieldID, x⟩ : Version) ∈ versions columns := by
  simp only [Group.samples, mem_flatMap, h.mem g hg, mem_versions, ColumnData.mem_versions]
  constructor
  · rintro ⟨c, ⟨hc, hs, hf⟩, hx⟩
    exact ⟨c, hc, hs.symm, hf.symm, hx⟩
  · rintro ⟨c, hc, hs, hf, hx⟩
    exact ⟨c, ⟨hc, hs.symm, hf.symm⟩, hx⟩

theorem Groups.columnsMergeTo (h : Groups columns groups) (hc : Consistent {u | u ∈ versions columns})
    (merge : Group → ColumnData) (hkey : ∀ g, (merge g).seriesID = g.1.seriesID ∧ (merge g).fieldID = g.1.fieldID)
    (hmerge : ∀ g, NewestOf g.samples (merge g).samples) : ColumnsMergeTo columns (groups.map merge) := by
  have hgroup : ∀ g ∈ groups, MergesTo g.samples (merge g).samples := fun g hg => (hmerge g).mergesTo
    ((consistent_samples hc g.1.seriesID g.1.fieldID).mono fun x hx => (h.mem_samples hg x).mp hx)
  refine ⟨fun v => ?_, ?_, fun c hcm => ?_⟩
  · rw [isLatest_versions_iff]
    have hset : ∀ g ∈ groups, g.1.seriesID = v.seriesID → g.1.fieldID = v.fieldID →
        {x | x ∈ g.samples} = {x | (⟨v.seriesID, v.fieldID, x⟩ : Version) ∈ versions columns} := by
      rintro g hg hs hf
      exact Set.ext fun x => hs ▸ hf ▸ h.mem_samples hg x
    constructor
    · intro hv
      obtain ⟨c, hcm, hvc⟩ := mem_versions.mp hv
      obtain ⟨g, hg, rfl⟩ := mem_map.mp hcm
      obtain ⟨hs, hf, hx⟩ := ColumnData.mem_versions.mp hvc
      rw [← hset g hg ((hkey g).1.symm.trans hs) ((hkey g).2.symm.trans hf)]
      exact ((hgroup g hg).mem_iff _).mp hx
    · intro hv
      obtain ⟨c, hcm, hvc⟩ := mem_versions.mp hv.1
      obtain ⟨g, hg, hs, hf⟩ := h.cover c hcm
      obtain ⟨hcs, hcf, -⟩ := ColumnData.mem_versions.mp hvc
      have hs' : g.1.seriesID = v.seriesID := hs.trans hcs
      have hf' : g.1.fieldID = v.fieldID := hf.trans hcf
      rw [← hset g hg hs' hf'] at hv
      refine mem_versions.mpr ⟨merge g, mem_map_of_mem hg, ColumnData.mem_versions.mpr ?_⟩
      exact ⟨(hkey g).1.trans hs', (hkey g).2.trans hf', ((hgroup g hg).mem_iff _).mpr hv⟩
  · rw [pairwise_map]
    refine h.sorted.imp fun {g k} hgk => ?_
    unfold columnLess at hgk ⊢
    rw [(hkey g).1, (hkey g).2, (hkey k).1, (hkey k).2]
    exact hgk
  · obtain ⟨g, hg, rfl⟩ := mem_map.mp hcm
    exact (hgroup g hg).sorted

theorem sameColumn.symm (h : sameColumn a b) : sameColumn b a := ⟨h.1.symm, h.2.symm⟩

theorem sameColumn.trans (h : sameColumn a b) (h' : sameColumn b c) :
    sameColumn a c := ⟨h.1.trans h'.1, h.2.trans h'.2⟩

theorem columnLess_of_le (h : columnLe a b) (hne : ¬ sameColumn a b) : columnLess a b := by
  unfold columnLe at h
  unfold sameColumn at hne
  unfold columnLess
  grind

theorem columnLess.ne (h : columnLess a b) : ¬ sameColumn a b := by
  unfold columnLess at h
  unfold sameColumn
  grind

theorem columnLess.trans_same (h : sameColumn a b) (h' : columnLess b c) : columnLess a c := by
  unfold columnLess at h' ⊢
  rwa [h.1, h.2]

theorem columnLess.trans (h : columnLess a b) (h' : columnLess b c) : columnLess a c := by
  unfold columnLess at *
  grind

theorem Groups.nil : Groups [] [] := ⟨by simp, by simp, List.Pairwise.nil⟩

theorem Groups.head_mem (h : Groups columns groups) (hg : g ∈ groups) : g.1 ∈ columns :=
  ((h.mem g hg g.1).mp mem_cons_self).1

theorem Groups.cons (h : Groups rest groups) (hg : ∀ c, c ∈ g.1 :: g.2 ↔ c ∈ columns ∧ sameColumn g.1 c)
    (hrest : ∀ c, c ∈ rest ↔ c ∈ columns ∧ ¬ sameColumn g.1 c) (hless : ∀ c ∈ rest, columnLess g.1 c) :
    Groups columns (g :: groups) := by
  refine ⟨fun k hk c => ?_, fun c hc => ?_, ?_⟩
  · rcases mem_cons.mp hk with rfl | hk
    · exact hg c
    · rw [h.mem k hk, hrest]
      have hlt := hless k.1 (h.head_mem hk)
      refine ⟨fun h => ⟨h.1.1, h.2⟩, fun h => ⟨⟨h.1, fun hgc => ?_⟩, h.2⟩⟩
      exact hlt.ne (hgc.trans h.2.symm)
  · by_cases hsame : sameColumn g.1 c
    · exact ⟨g, mem_cons_self, hsame⟩
    · obtain ⟨k, hk, hkc⟩ := h.cover c ((hrest c).mpr ⟨hc, hsame⟩)
      exact ⟨k, mem_cons_of_mem _ hk, hkc⟩
  · exact pairwise_cons.mpr ⟨fun k hk => hless k.1 (h.head_mem hk), h.sorted⟩

def columnKey (c : ColumnData) : UInt64 × UInt32 := (c.seriesID, c.fieldID)

theorem columnKey_eq_iff : columnKey a = columnKey b ↔ sameColumn a b := Prod.mk_inj

theorem runsBy_columnKey (columns : List ColumnData) :
    runsBy columnKey columns = (groupColumns columns).map fun g => g.1 :: g.2 := by
  induction columns with
  | nil => rfl
  | cons c cs ih =>
    rw [runsBy, ih, groupColumns]
    cases groupColumns cs with
    | nil => rfl
    | cons g gs =>
      simp only [map_cons, columnKey_eq_iff]
      split <;> rfl

theorem groupColumns_groups (hsorted : columns.Pairwise columnLe) : Groups columns (groupColumns columns) := by
  let le (x y : UInt64 × UInt32) : Prop := x.1 < y.1 ∨ x.1 = y.1 ∧ x.2 ≤ y.2
  have hanti : ∀ x y, le x y → le y x → x = y := by
    rintro ⟨_, _⟩ ⟨_, _⟩
    grind
  have hrun : ∀ g ∈ groupColumns columns, g.1 :: g.2 ∈ runsBy columnKey columns := by
    intro g hg
    rw [runsBy_columnKey]
    exact mem_map_of_mem hg
  have hflat : ((groupColumns columns).map fun g => g.1 :: g.2).flatten = columns := by
    rw [← runsBy_columnKey, flatten_runsBy]
  refine ⟨fun g hg c => ⟨fun hc => ?_, fun ⟨hc, hsame⟩ => ?_⟩, fun c hc => ?_, ?_⟩
  · obtain ⟨a, rest, hcons, hkey⟩ := runsBy_key columnKey (hrun g hg)
    obtain ⟨rfl, -⟩ := List.cons.inj hcons
    refine ⟨?_, (columnKey_eq_iff.mp (hkey c hc)).symm⟩
    rw [← flatten_runsBy columnKey columns]
    exact mem_flatten.mpr ⟨_, hrun g hg, hc⟩
  · exact mem_of_mem_runsBy hanti hsorted (hrun g hg) mem_cons_self hc (columnKey_eq_iff.mpr hsame)
  · rw [← hflat] at hc
    obtain ⟨run, hrun', hc⟩ := mem_flatten.mp hc
    obtain ⟨g, hg, rfl⟩ := mem_map.mp hrun'
    obtain ⟨a, rest, hcons, hkey⟩ := runsBy_key columnKey (hrun g hg)
    obtain ⟨rfl, -⟩ := List.cons.inj hcons
    exact ⟨g, hg, (columnKey_eq_iff.mp (hkey c hc)).symm⟩
  · have hdistinct : (runsBy columnKey columns).Pairwise _ := runsBy_distinct hanti hsorted
    rw [runsBy_columnKey, pairwise_map] at hdistinct
    have hle := (pairwise_flatten.mp (hflat.symm ▸ hsorted)).2
    refine (hdistinct.and (pairwise_map.mp hle)).imp fun {g k} h => ?_
    exact columnLess_of_le (h.2 _ mem_cons_self _ mem_cons_self) fun hsame =>
      h.1 _ mem_cons_self _ mem_cons_self (columnKey_eq_iff.mpr hsame)

theorem samplesStrictlyIncreasing_iff (samples : Samples) : samplesStrictlyIncreasing samples = true ↔
    samples.Pairwise (·.timestamp < ·.timestamp) := by
  rw [samplesStrictlyIncreasing, decide_eq_true_eq, isChain_iff_pairwise]

theorem samplesOrdered_iff (samples : Samples) : samplesOrdered samples = true ↔
    samples.Pairwise (·.timestamp ≤ ·.timestamp) := by
  rw [samplesOrdered, decide_eq_true_eq, isChain_iff_pairwise]

theorem mergeColumnGroup_key (g : Group) : (mergeColumnGroup g).seriesID = g.1.seriesID ∧
    (mergeColumnGroup g).fieldID = g.1.fieldID := by
  unfold mergeColumnGroup
  split
  · exact ⟨rfl, rfl⟩
  · split <;> exact ⟨rfl, rfl⟩

theorem mergeColumnGroup_newestOf (g : Group) : NewestOf g.samples (mergeColumnGroup g).samples := by
  obtain ⟨c, cs⟩ := g
  have hflat : ((c :: cs).map ColumnData.samples).flatten = Group.samples (c, cs) := by
    rw [Group.samples, flatMap_def]
  unfold mergeColumnGroup
  split
  · next h =>
    simp only [Bool.and_eq_true, List.isEmpty_iff, samplesStrictlyIncreasing_iff] at h
    obtain ⟨rfl, hinc⟩ := h
    simpa [Group.samples] using newestOf_self hinc
  · split
    · next hord =>
      refine mergeOrderedSamples_newestOf fun d hd => ?_
      obtain ⟨e, he, rfl⟩ := mem_map.mp hd
      exact (samplesOrdered_iff _).mp (all_eq_true.mp hord e he)
    · exact mergeSamples_newestOf _

structure MergedColumn (columns : List ColumnData) (c : ColumnData) : Prop where
  source : ∃ d ∈ columns, sameColumn d c
  times : c.samples.Pairwise fun a b => a.timestamp < b.timestamp
  samples : ∀ x ∈ c.samples, ∃ d ∈ columns, sameColumn d c ∧ x ∈ d.samples
  nonempty : (∀ d ∈ columns, d.samples ≠ []) → c.samples ≠ []

theorem Groups.merged (h : Groups columns groups) {merge : Group → ColumnData}
    (hkey : ∀ g, (merge g).seriesID = g.1.seriesID ∧ (merge g).fieldID = g.1.fieldID)
    (hmerge : ∀ g, NewestOf g.samples (merge g).samples) : ∀ c ∈ groups.map merge, MergedColumn columns c := by
  intro c hc
  obtain ⟨g, hg, rfl⟩ := mem_map.mp hc
  have hfirst := h.head_mem hg
  refine ⟨⟨g.1, hfirst, sameColumn.symm (hkey g)⟩, (hmerge g).increasing, fun x hx => ?_, fun hne => (hmerge g).ne_nil ?_⟩
  · obtain ⟨d, hd, hxd⟩ := mem_flatMap.mp ((hmerge g).newest x hx).1
    obtain ⟨hd, hsame⟩ := (h.mem g hg d).mp hd
    exact ⟨d, hd, hsame.symm.trans (sameColumn.symm (hkey g)), hxd⟩
  · obtain ⟨x, hx⟩ := exists_mem_of_ne_nil _ (hne g.1 hfirst)
    exact ne_nil_of_mem (mem_flatMap.mpr ⟨g.1, mem_cons_self, hx⟩)

theorem groups_sortColumnData (columns : List ColumnData) : Groups columns (groupColumns (sortColumnData columns)) := by
  obtain ⟨hmem, hcover, hsorted⟩ := groupColumns_groups (pairwise_insertionSort columnLe columns)
  simp only [mem_insertionSort] at hmem hcover
  exact ⟨hmem, hcover, hsorted⟩

theorem mergeColumnData_merged : ∀ c ∈ mergeColumnData columns, MergedColumn columns c :=
  (groups_sortColumnData columns).merged mergeColumnGroup_key mergeColumnGroup_newestOf

theorem mergeColumnData_columnsMergeTo (hc : Consistent {u | u ∈ versions columns}) :
    ColumnsMergeTo columns (mergeColumnData columns) :=
  (groups_sortColumnData columns).columnsMergeTo hc mergeColumnGroup mergeColumnGroup_key mergeColumnGroup_newestOf

def SourcesSorted (sources : List (List ColumnData)) : Prop := ∀ s ∈ sources, s.Pairwise columnLess

theorem SourcesSorted.filter (hs : SourcesSorted sources) (p : ColumnData → Bool) :
    SourcesSorted (sources.map (List.filter p)) := by
  intro s hmem
  obtain ⟨source, hsource, rfl⟩ := mem_map.mp hmem
  exact (hs source hsource).filter p

theorem minSource_none (h : minSource sources = none) : sources.flatten = [] := by
  induction sources with
  | nil => rfl
  | cons source sources ih =>
    cases source with
    | nil => simpa [minSource] using ih h
    | cons c cs =>
      simp only [minSource] at h
      split at h
      · simp at h
      · split at h <;> simp at h

theorem minSource_some (hs : SourcesSorted sources) (h : minSource sources = some key) :
    key ∈ sources.flatten ∧ ∀ c ∈ sources.flatten, columnLe key c := by
  induction sources generalizing key with
  | nil => simp [minSource] at h
  | cons source sources ih =>
    have hs' : SourcesSorted sources := fun s h => hs s (mem_cons_of_mem _ h)
    cases source with
    | nil => simpa using ih hs' (by simpa [minSource] using h)
    | cons c cs =>
      have hc : ∀ d ∈ c :: cs, columnLe c d := by
        intro d hd
        have hcs := (pairwise_cons.mp (hs (c :: cs) mem_cons_self)).1
        unfold columnLess at hcs
        unfold columnLe
        grind
      rw [minSource] at h
      simp only [flatten_cons, mem_append]
      cases hm : minSource sources with
      | none =>
        obtain rfl : c = key := by simpa [hm] using h
        have hnil := minSource_none hm
        exact ⟨.inl mem_cons_self, fun d hd => hd.elim (hc d) (by simp [hnil])⟩
      | some k =>
        obtain ⟨hk, hall⟩ := ih hs' hm
        rw [hm] at h
        dsimp only at h
        split at h
        · next hlt =>
          obtain rfl : k = key := by simpa using h
          refine ⟨.inr hk, fun d hd => hd.elim (fun hd => ?_) (hall d)⟩
          have := hc d hd
          unfold columnLe at this ⊢
          unfold columnLess at hlt
          grind
        · next hnlt =>
          obtain rfl : c = key := by simpa using h
          refine ⟨.inl mem_cons_self, fun d hd => hd.elim (hc d) (fun hd => ?_)⟩
          have := hall d hd
          unfold columnLe at this ⊢
          unfold columnLess at hnlt
          grind

theorem nextGroup_eq (hs : SourcesSorted sources) (hkey : ∀ c ∈ sources.flatten, columnLe key c) :
    nextGroup key sources = (sources.flatten.filter (sameColumn key),
      sources.map (List.filter fun c => !decide (sameColumn key c))) := by
  induction sources with
  | nil => rfl
  | cons source sources ih =>
    have hrest := ih (fun s hm => hs s (mem_cons_of_mem _ hm)) fun c hc => hkey c (mem_append_right _ hc)
    rw [nextGroup, hrest, flatten_cons, filter_append, map_cons]
    cases source with
    | nil => rfl
    | cons c cs =>
      obtain ⟨hc, -⟩ := pairwise_cons.mp (hs (c :: cs) mem_cons_self)
      have hle : columnLe key c := hkey c (by simp)
      have hpast : ∀ d ∈ cs, ¬ sameColumn key d := by
        intro d hd
        have hlt := hc d hd
        unfold columnLe at hle
        unfold columnLess at hlt
        unfold sameColumn
        grind
      have hnone : cs.filter (sameColumn key) = [] := filter_eq_nil_iff.mpr fun d hd => by simpa using hpast d hd
      have hall : cs.filter (fun c => !decide (sameColumn key c)) = cs :=
        filter_eq_self.mpr fun d hd => by simpa using hpast d hd
      by_cases hsame : sameColumn key c
      · simp [hsame, hnone, hall]
      · simp [hsame, hnone, hall]

def otherColumns (c : ColumnData) (source : List ColumnData) : List ColumnData :=
  source.filter fun d => !decide (sameColumn c d)

theorem mem_otherColumns : d ∈ otherColumns c source ↔ d ∈ source ∧ ¬ sameColumn c d := by
  rw [otherColumns, mem_filter, Bool.not_eq_true', decide_eq_false_iff_not]

theorem exists_nextGroup (hs : SourcesSorted sources) (h : minSource sources = some key) :
    ∃ c cs, nextGroup key sources = (c :: cs, sources.map (otherColumns c)) ∧
      (∀ d, d ∈ c :: cs ↔ d ∈ sources.flatten ∧ sameColumn c d) ∧
      (∀ d ∈ sources.flatten, ¬ sameColumn c d → columnLess c d) ∧
      (sources.map (otherColumns c)).flatten = otherColumns c sources.flatten ∧
      (otherColumns c sources.flatten).length < sources.flatten.length := by
  obtain ⟨hkey, hall⟩ := minSource_some hs h
  have hmem : key ∈ sources.flatten.filter (sameColumn key) := mem_filter.mpr ⟨hkey, by simp [sameColumn]⟩
  have hlen := length_eq_length_filter_add (l := sources.flatten) (sameColumn key ·)
  rw [nextGroup_eq hs hall]
  cases hgroup : sources.flatten.filter (sameColumn key) with
  | nil => simp [hgroup] at hmem
  | cons c cs =>
    have hkc : sameColumn key c := by
      have hc := mem_filter.mp (hgroup ▸ mem_cons_self : c ∈ sources.flatten.filter (sameColumn key))
      simpa using hc.2
    have hsame : sameColumn key = sameColumn c := funext fun d => propext ⟨hkc.symm.trans, hkc.trans⟩
    simp only [hsame] at hgroup hlen ⊢
    refine ⟨c, cs, rfl, fun d => ?_, fun d hd hne => ?_, filter_flatten.symm, ?_⟩
    · rw [← hgroup, mem_filter, decide_eq_true_eq]
    · exact columnLess.trans_same hkc.symm (columnLess_of_le (hall d hd) (hsame ▸ hne))
    · rw [hgroup, length_cons] at hlen
      rw [otherColumns]
      omega

theorem streamGroups_groups (fuel : Nat) (sources : List (List ColumnData))
    (hfuel : sources.flatten.length ≤ fuel) (hs : SourcesSorted sources) :
    Groups sources.flatten (streamGroups fuel sources) := by
  induction fuel generalizing sources with
  | zero =>
    rw [eq_nil_of_length_eq_zero (l := sources.flatten) (by omega)]
    exact Groups.nil
  | succ fuel ih =>
    rw [streamGroups]
    cases hm : minSource sources with
    | none =>
      rw [minSource_none hm]
      exact Groups.nil
    | some key =>
      obtain ⟨c, cs, hnext, hmem, hless, hflat, hlen⟩ := exists_nextGroup hs hm
      dsimp only
      rw [hnext]
      have hrest := ih (sources.map (otherColumns c)) (by rw [hflat]; omega) (hs.filter _)
      rw [hflat] at hrest
      refine hrest.cons hmem (fun d => mem_otherColumns) fun d hd => ?_
      obtain ⟨hd, hne⟩ := mem_otherColumns.mp hd
      exact hless d hd hne

theorem mergeColumnDataStreams_merged (hs : SourcesSorted sources) :
    (mergeColumnDataStreams sources).Pairwise columnLess ∧
      ∀ c ∈ mergeColumnDataStreams sources, MergedColumn sources.flatten c := by
  have hgroups := streamGroups_groups _ sources le_rfl hs
  refine ⟨pairwise_map.mpr (hgroups.sorted.imp fun hlt => hlt), ?_⟩
  exact hgroups.merged (fun _ => ⟨rfl, rfl⟩) fun _ => mergeQuerySamples_newestOf _

theorem mergeColumnDataStreams_columnsMergeTo (hs : SourcesSorted sources)
    (hc : Consistent {u | u ∈ versions sources.flatten}) :
    ColumnsMergeTo sources.flatten (mergeColumnDataStreams sources) :=
  (streamGroups_groups _ sources le_rfl hs).columnsMergeTo hc mergeQueryGroup (fun _ => ⟨rfl, rfl⟩)
    fun _ => mergeQuerySamples_newestOf _

section Failing
variable {ε : Type} {streams : List (List ColumnData × Option ε)}

/-- What `advance` finds when it comes to the end of a stream: its error, if it has one. -/
def exhaustedErr (streams : List (List ColumnData × Option ε)) : Option ε :=
  streams.findSome? fun s => if s.1.isEmpty then s.2 else none

/-- The groups that `Next` returns and `Err`. A group whose sources do not all advance is dropped. -/
def failingGroups : Nat → List (List ColumnData × Option ε) → List Group × Option ε
  | 0, _ => ([], none)
  | fuel + 1, streams =>
    match minSource (streams.map Prod.fst) with
    | none => ([], none)
    | some key =>
      let next := nextGroup key (streams.map Prod.fst)
      let advanced := next.2.zip (streams.map Prod.snd)
      match next.1, exhaustedErr advanced with
      | [], _ => ([], none)
      | _ :: _, some e => ([], some e)
      | c :: cs, none => ((c, cs) :: (failingGroups fuel advanced).1, (failingGroups fuel advanced).2)

/-- `MergeColumnDataStreams` of streams that end, each with an error or without. -/
def mergeFailingStreams (streams : List (List ColumnData × Option ε)) : List ColumnData × Option ε :=
  match exhaustedErr streams with
  | some e => ([], some e)
  | none =>
    let groups := failingGroups (streams.map Prod.fst).flatten.length streams
    (groups.1.map mergeQueryGroup, groups.2)

/-- Every column returned is the merge of all columns of its key and comes before the end of a stream that fails. -/
structure MergedStreams (streams : List (List ColumnData × Option ε)) (out : List ColumnData) (err : Option ε) :
    Prop where
  keys : out.Pairwise columnLess
  merged : ∀ c ∈ out, ∃ group : List ColumnData,
    (∀ d, d ∈ group ↔ d ∈ (streams.map Prod.fst).flatten ∧ sameColumn c d) ∧
      NewestOf (group.flatMap ColumnData.samples) c.samples
  complete : err = none → ∀ d ∈ (streams.map Prod.fst).flatten, ∃ c ∈ out, sameColumn c d
  reported : err = none → ∀ s ∈ streams, s.2 = none
  source : ∀ e, err = some e → ∃ s ∈ streams, s.2 = some e
  before : ∀ s ∈ streams, s.2.isSome → ∀ c ∈ out, ∃ d ∈ s.1, columnLess c d

theorem err_eq_none_of_exhausted (h : exhaustedErr streams = none) (hflat : (streams.map Prod.fst).flatten = []) :
    ∀ s ∈ streams, s.2 = none := by
  intro s hs
  have hnil : s.1 = [] := flatten_eq_nil_iff.mp hflat _ (mem_map_of_mem hs)
  simpa [hnil] using findSome?_eq_none_iff.mp h s hs

theorem exists_of_exhaustedErr (h : exhaustedErr streams = some e) : ∃ s ∈ streams, s.2 = some e := by
  obtain ⟨s, hs, he⟩ := exists_of_findSome?_eq_some h
  split at he
  · exact ⟨s, hs, he⟩
  · cases he

theorem failingGroups_spec (fuel : Nat) (streams : List (List ColumnData × Option ε))
    (hfuel : (streams.map Prod.fst).flatten.length ≤ fuel) (hs : SourcesSorted (streams.map Prod.fst))
    (herr : exhaustedErr streams = none) :
    (failingGroups fuel streams).1 <+: streamGroups fuel (streams.map Prod.fst) ∧
      ((failingGroups fuel streams).2 = none →
        (failingGroups fuel streams).1 = streamGroups fuel (streams.map Prod.fst) ∧ ∀ s ∈ streams, s.2 = none) ∧
      (∀ e, (failingGroups fuel streams).2 = some e → ∃ s ∈ streams, s.2 = some e) ∧
      ∀ s ∈ streams, s.2.isSome → ∀ g ∈ (failingGroups fuel streams).1, ∃ d ∈ s.1, columnLess g.1 d := by
  induction fuel generalizing streams with
  | zero =>
    have hflat := eq_nil_of_length_eq_zero (Nat.le_zero.mp hfuel)
    exact ⟨List.prefix_rfl, fun _ => ⟨rfl, err_eq_none_of_exhausted herr hflat⟩, nofun, by simp [failingGroups]⟩
  | succ fuel ih =>
    rw [streamGroups, failingGroups]
    cases hm : minSource (streams.map Prod.fst) with
    | none =>
      exact ⟨List.prefix_rfl, fun _ => ⟨rfl, err_eq_none_of_exhausted herr (minSource_none hm)⟩, nofun, by simp⟩
    | some key =>
      obtain ⟨c, cs, hnext, -, hless, hflat, hlen⟩ := exists_nextGroup hs hm
      have hzip : ((streams.map Prod.fst).map (otherColumns c)).zip (streams.map Prod.snd) =
          streams.map fun s => (otherColumns c s.1, s.2) := by
        rw [map_map, zip_map']
        rfl
      dsimp only
      rw [hnext, hzip]
      cases herr : exhaustedErr (streams.map fun s => (otherColumns c s.1, s.2)) with
      | some e =>
        refine ⟨ nil_prefix, nofun, fun e' he' => ?_, by simp⟩
        obtain ⟨_, hmap, he⟩ := exists_of_exhaustedErr (herr.trans he')
        obtain ⟨s, hmem, rfl⟩ := mem_map.mp hmap
        exact ⟨s, hmem, he⟩
      | none =>
        have hfst : (streams.map fun s => (otherColumns c s.1, s.2)).map Prod.fst =
            (streams.map Prod.fst).map (otherColumns c) := by simp
        obtain ⟨hpre, hnone, hsome, hbefore⟩ := ih (streams.map fun s => (otherColumns c s.1, s.2))
          (by rw [hfst, hflat]; omega) (by rw [hfst]; exact hs.filter _) herr
        rw [hfst] at hpre hnone
        refine ⟨cons_prefix_cons.mpr ⟨rfl, hpre⟩, fun h => ?_, fun e he => ?_, fun s hmem hfails g hg => ?_⟩
        · obtain ⟨hall, herrs⟩ := hnone h
          exact ⟨congrArg _ hall, fun s hmem => herrs (otherColumns c s.1, s.2) (mem_map_of_mem hmem)⟩
        · obtain ⟨_, hmap, he⟩ := hsome e he
          obtain ⟨s, hmem, rfl⟩ := mem_map.mp hmap
          exact ⟨s, hmem, he⟩
        · rcases mem_cons.mp hg with rfl | hg
          · -- the stream has a column left, or its error would have been found
            have hleft : otherColumns c s.1 ≠ [] := by
              intro hnil
              have := findSome?_eq_none_iff.mp herr _ (mem_map_of_mem hmem)
              simp [hnil] at this
              simp [this] at hfails
            obtain ⟨d, hd⟩ := exists_mem_of_ne_nil _ hleft
            obtain ⟨hd, hne⟩ := mem_otherColumns.mp hd
            exact ⟨d, hd, hless d (mem_flatten.mpr ⟨_, mem_map_of_mem hmem, hd⟩) hne⟩
          · obtain ⟨d, hd, hlt⟩ := hbefore _ (mem_map_of_mem hmem) hfails g hg
            exact ⟨d, (mem_otherColumns.mp hd).1, hlt⟩

theorem mergedStreams (streams : List (List ColumnData × Option ε)) (hs : SourcesSorted (streams.map Prod.fst)) :
    MergedStreams streams (mergeFailingStreams streams).1 (mergeFailingStreams streams).2 := by
  unfold mergeFailingStreams
  cases herr : exhaustedErr streams with
  | some e =>
    exact ⟨List.Pairwise.nil, by simp, nofun, nofun, fun e' he' => exists_of_exhaustedErr (herr.trans he'), by simp⟩
  | none =>
    obtain ⟨hpre, hnone, hsome, hbefore⟩ := failingGroups_spec _ streams le_rfl hs herr
    have hgroups := streamGroups_groups _ _ le_rfl hs
    refine ⟨?_, fun c hc => ?_, fun h d hd => ?_, fun h => (hnone h).2, hsome, fun s hmem hfails c hc => ?_⟩
    · exact pairwise_map.mpr (hgroups.sorted.sublist hpre.sublist)
    · obtain ⟨g, hg, rfl⟩ := mem_map.mp hc
      exact ⟨g.1 :: g.2, hgroups.mem g (hpre.subset hg), mergeQuerySamples_newestOf _⟩
    · obtain ⟨g, hg, hsame⟩ := hgroups.cover d hd
      exact ⟨_, mem_map_of_mem ((hnone h).1 ▸ hg), hsame⟩
    · obtain ⟨g, hg, rfl⟩ := mem_map.mp hc
      exact hbefore s hmem hfails g hg

end Failing

def brokenStreams : List (List ColumnData × Option Nat) :=
  [([⟨1, 1, .int64, [⟨5, 1, .int64 10⟩]⟩, ⟨2, 1, .int64, []⟩], some 7),
    ([⟨1, 1, .int64, [⟨5, 2, .int64 20⟩]⟩, ⟨3, 1, .int64, []⟩], none)]

theorem mergedStreams_broken : MergedStreams brokenStreams [⟨1, 1, .int64, [⟨5, 2, .int64 20⟩]⟩] (some 7) :=
  mergedStreams brokenStreams (by unfold SourcesSorted; decide)

/-- The versions of one timestamp have different sequence numbers. -/
def SeqsDistinct (samples : Samples) : Prop :=
  samples.Pairwise fun a b => a.timestamp = b.timestamp → a.writeSeq ≠ b.writeSeq

instance (samples : Samples) : Decidable (SeqsDistinct samples) := inferInstanceAs (Decidable (samples.Pairwise _))

theorem SeqsDistinct.consistent (h : SeqsDistinct samples) : Consistent {x | x ∈ samples} := by
  intro x hx y hy hts hseq
  by_contra hne
  have hpair : samples.Pairwise fun a b => ¬ (a.timestamp = b.timestamp ∧ a.writeSeq = b.writeSeq) :=
    h.imp fun hab hboth => hab hboth.1 hboth.2
  have : Std.Symm fun a b : VersionedSample => ¬ (a.timestamp = b.timestamp ∧ a.writeSeq = b.writeSeq) :=
    ⟨fun a b hab hba => hab ⟨hba.1.symm, hba.2.symm⟩⟩
  exact hpair.forall hx hy hne ⟨hts, UInt64.toNat_inj.mp hseq⟩

theorem MergesTo.unique (h : MergesTo input out) (h' : MergesTo input out') : out = out' :=
  h.sorted.eq_of_mem_iff h'.sorted fun s => (h.mem_iff s).trans (h'.mem_iff s).symm

section
variable (h : Groups columns groups) (hone : ∀ c ∈ columns, ∀ d ∈ columns, sameColumn c d)
include h hone

theorem Groups.eq_singleton : columns = [] ∧ groups = [] ∨ ∃ g, groups = [g] ∧ ∀ c, c ∈ g.1 :: g.2 ↔ c ∈ columns := by
  have hfirst : ∀ g ∈ groups, g.1 ∈ columns := fun g hg => ((h.mem g hg g.1).mp mem_cons_self).1
  match groups, h, hfirst with
  | [], h, _ =>
    refine .inl ⟨eq_nil_iff_forall_not_mem.mpr fun c hc => ?_, rfl⟩
    obtain ⟨g, hg, -⟩ := h.cover c hc
    simp at hg
  | [g], h, hfirst =>
    have hg := hfirst g (mem_singleton_self g)
    refine .inr ⟨g, rfl, fun c => (h.mem g (mem_singleton_self g) c).trans ?_⟩
    exact ⟨And.left, fun hc => ⟨hc, hone _ hg _ hc⟩⟩
  | g :: g' :: groups, h, hfirst =>
    have hlt : columnLess g.1 g'.1 := (pairwise_cons.mp h.sorted).1 g' mem_cons_self
    exact absurd (hone _ (hfirst g (by simp)) _ (hfirst g' (by simp))) hlt.ne

theorem Groups.newestOf (merge : Group → ColumnData) (hmerge : ∀ g : Group, NewestOf g.samples (merge g).samples) :
    NewestOf (columns.flatMap ColumnData.samples) ((groups.map merge).flatMap ColumnData.samples) := by
  obtain ⟨rfl, rfl⟩ | ⟨g, rfl, hmem⟩ := h.eq_singleton hone
  · exact NewestOf.nil
  · have hsamples : ∀ x, x ∈ g.samples ↔ x ∈ columns.flatMap ColumnData.samples := fun x => by
      simp only [Group.samples, mem_flatMap, hmem]
    simpa using (hmerge g).congr hsamples

end

/-- The compared merges on columns in any order: the whole merges of engine and query executor, the merge of one
group, the merges of ordered lists chosen by their number, and the two merges of concatenated samples. -/
structure MergesAgree (columns : List ColumnData) (out : Samples) : Prop where
  engine : (mergeColumnData columns).flatMap ColumnData.samples = out
  executor : (mergeColumnDataStreams (columns.map fun c => [c])).flatMap ColumnData.samples = out
  group : ∀ c cs, (c :: cs).Perm columns → mergeColumnGroup (c, cs) = { c with samples := out } ∧
    mergeQueryGroup (c, cs) = { c with samples := out }
  ordered : ∀ lists, lists.Perm (columns.map ColumnData.samples) → mergeOrderedSamples lists = out
  dedupe : ∀ list, columns.map ColumnData.samples = [list] → dedupeOrderedSamples list = out
  two : ∀ left right, columns.map ColumnData.samples = [left, right] → mergeTwoOrderedSamples left right = out
  many : mergeManyLoop (columns.flatMap ColumnData.samples).length (columns.map ColumnData.samples) = out
  fallback : ∀ samples, samples.Perm (columns.flatMap ColumnData.samples) → mergeSamples samples = out
  compact : ∀ samples, samples.Perm (columns.flatMap ColumnData.samples) → samples.Pairwise newestFirst →
    compactMergedSamples samples = out

theorem mergeColumnGroup_eq (g : Group) :
    mergeColumnGroup g = { g.1 with samples := (mergeColumnGroup g).samples } := by
  unfold mergeColumnGroup
  split
  · rfl
  · split <;> rfl

theorem mergeColumnData_newestOf (hone : ∀ c ∈ columns, ∀ d ∈ columns, sameColumn c d) :
    NewestOf (columns.flatMap ColumnData.samples) ((mergeColumnData columns).flatMap ColumnData.samples) :=
  (groups_sortColumnData columns).newestOf hone _ mergeColumnGroup_newestOf

/-- On ordered lists of samples of one column every merge returns the newest samples. -/
theorem merges_agree (columns : List ColumnData) (hone : ∀ c ∈ columns, ∀ d ∈ columns, sameColumn c d)
    (hord : ∀ c ∈ columns, c.samples.Pairwise fun a b => a.timestamp ≤ b.timestamp)
    (hseq : SeqsDistinct (columns.flatMap ColumnData.samples)) :
    ∃ out, NewestOf (columns.flatMap ColumnData.samples) out ∧ MergesAgree columns out := by
  set input := columns.flatMap ColumnData.samples with hinput
  have hc : Consistent {x | x ∈ input} := hseq.consistent
  have hflat : (columns.map ColumnData.samples).flatten = input := (flatMap_def ..).symm
  have hlists : ColumnsOrdered (columns.map ColumnData.samples) := by
    intro list hlist
    obtain ⟨c, hcol, rfl⟩ := mem_map.mp hlist
    exact hord c hcol
  have hcols : ∀ {cols : List ColumnData}, (∀ c, c ∈ cols ↔ c ∈ columns) →
      ∀ x, x ∈ cols.flatMap ColumnData.samples ↔ x ∈ input := by
    intro cols hmem x
    simp [hinput, hmem]
  have hmerge := mergeSamples_newestOf input
  -- whatever merges the same samples is this list
  have hout : ∀ {out}, NewestOf input out → out = mergeSamples input := fun h =>
    (h.mergesTo hc).unique (hmerge.mergesTo hc)
  refine ⟨mergeSamples input, hmerge, ?_⟩
  constructor
  case engine => exact hout (mergeColumnData_newestOf hone)
  case executor =>
    have hsources : (columns.map fun c => [c]).flatten = columns := by
      rw [← flatMap_def, flatMap_singleton']
    have hgroups := streamGroups_groups _ (columns.map fun c => [c]) le_rfl fun source hsource => by
      obtain ⟨c, -, rfl⟩ := mem_map.mp hsource
      exact pairwise_singleton _ c
    rw [hsources] at hgroups
    rw [mergeColumnDataStreams, hsources]
    exact hout (hgroups.newestOf hone mergeQueryGroup fun g => mergeQuerySamples_newestOf _)
  case group =>
    intro c cs hperm
    have hmem := hcols fun d => hperm.mem_iff
    constructor
    · rw [mergeColumnGroup_eq, hout ((mergeColumnGroup_newestOf (c, cs)).congr hmem)]
    · rw [mergeQueryGroup, hout ((mergeQuerySamples_newestOf (Group.samples (c, cs))).congr hmem)]
  case ordered =>
    intro lists hperm
    refine hout ((mergeOrderedSamples_newestOf fun list hlist => ?_).congr fun x => hflat ▸ hperm.flatten.mem_iff)
    exact hlists list (hperm.mem_iff.mp hlist)
  case dedupe =>
    intro list hlist
    have h := mergeOrderedSamples_newestOf hlists
    rw [hflat, hlist] at h
    exact hout h
  case two =>
    intro left right hlist
    have h := mergeOrderedSamples_newestOf hlists
    rw [hflat, hlist] at h
    exact hout h
  case many =>
    have h := mergeManyLoop_newestOf input.length (columns.map ColumnData.samples) (by rw [hflat]) hlists
    exact hout h
  case fallback => exact fun samples hperm => hout ((mergeSamples_newestOf samples).congr fun _ => hperm.mem_iff)
  case compact =>
    intro samples hperm hsorted
    exact hout ((compactMergedSamples_newestOf hsorted).congr fun _ => hperm.mem_iff)

def rewrittenColumns : List ColumnData :=
  [⟨1, 1, .int64, [⟨1, 4, .int64 40⟩, ⟨1, 2, .int64 20⟩, ⟨3, 1, .int64 10⟩]⟩, ⟨1, 1, .int64, []⟩,
    ⟨1, 1, .int64, [⟨1, 5, .int64 50⟩, ⟨2, 3, .int64 30⟩]⟩]

theorem merges_agree_on_rewritten :
    (∀ c ∈ rewrittenColumns, ∀ d ∈ rewrittenColumns, sameColumn c d) ∧
      (∀ c ∈ rewrittenColumns, c.samples.Pairwise fun a b => a.timestamp ≤ b.timestamp) ∧
      SeqsDistinct (rewrittenColumns.flatMap ColumnData.samples) ∧
      ∃ out, NewestOf (rewrittenColumns.flatMap ColumnData.samples) out ∧ MergesAgree rewrittenColumns out := by
  have hone : ∀ c ∈ rewrittenColumns, ∀ d ∈ rewrittenColumns, sameColumn c d := by decide
  have hord : ∀ c ∈ rewrittenColumns, c.samples.Pairwise (·.timestamp ≤ ·.timestamp) := by decide
  have hseq : SeqsDistinct (rewrittenColumns.flatMap ColumnData.samples) := by decide
  exact ⟨hone, hord, hseq, merges_agree rewrittenColumns hone hord hseq⟩

end Mts.Engine
