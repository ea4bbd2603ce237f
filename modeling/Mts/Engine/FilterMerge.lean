import Mts.Engine.Tombstone

/-! Tombstones and version merges in any order. The parts of a read may be merged in groups, and filtered before or
after each of these merges; a tombstone that hides a version hides the older ones of its timestamp too, so the last
result is the same. -/

namespace Mts.Engine
open Lib Model List

/-- A way from columns to a result: columns side by side, `mergeColumnData` of them, `applyTombstones` on them. -/
inductive MergePlan
  | input (columns : List ColumnData)
  | beside (a b : MergePlan)
  | merge (a : MergePlan)
  | filter (a : MergePlan)

namespace MergePlan

def inputs : MergePlan → List ColumnData
  | input columns => columns
  | beside a b => a.inputs ++ b.inputs
  | merge a => a.inputs
  | filter a => a.inputs

def eval (tombstones : List Tombstone) : MergePlan → List ColumnData
  | input columns => columns
  | beside a b => a.eval tombstones ++ b.eval tombstones
  | merge a => mergeColumnData (a.eval tombstones)
  | filter a => applyTombstones (a.eval tombstones) tombstones

def Filtered : MergePlan → Prop
  | input _ => False
  | beside a b => a.Filtered ∧ b.Filtered
  | merge a => a.Filtered
  | filter _ => True

end MergePlan

def OneColumn (seriesID : UInt64) (fieldID : UInt32) (columns : List ColumnData) : Prop :=
  ∀ c ∈ columns, c.seriesID = seriesID ∧ c.fieldID = fieldID

def columnSamples (columns : List ColumnData) : Samples := columns.flatMap ColumnData.samples

section
variable {seriesID : UInt64} {fieldID : UInt32} {tombstones : List Tombstone} {columns : List ColumnData}

def Hidden (seriesID : UInt64) (fieldID : UInt32) (tombstones : List Tombstone) (x : VersionedSample) : Prop :=
  Covered tombstones ⟨seriesID, fieldID, x⟩

theorem hidesOlder_hidden : HidesOlder (Hidden seriesID fieldID tombstones) := by
  rintro x y hkey hseq ⟨t, ht, hmatches⟩
  obtain ⟨htimes, hbound, hids⟩ := tombstoneMatches_iff.mp hmatches
  have hkey : x.timestamp = y.timestamp := hkey
  refine ⟨t, ht, tombstoneMatches_iff.mpr ⟨?_, UInt64.le_trans hseq hbound, hids⟩⟩
  rw [hkey]
  exact htimes

theorem OneColumn.sameColumn (h : OneColumn seriesID fieldID columns) :
    ∀ c ∈ columns, ∀ d ∈ columns, sameColumn c d := by
  intro c hc d hd
  exact ⟨(h c hc).1.trans (h d hd).1.symm, (h c hc).2.trans (h d hd).2.symm⟩

theorem OneColumn.applyTombstones (h : OneColumn seriesID fieldID columns) :
    OneColumn seriesID fieldID (applyTombstones columns tombstones) := by
  intro c hc
  unfold Engine.applyTombstones at hc
  split at hc
  · exact h c hc
  · obtain ⟨d, hd, rfl⟩ := mem_map.mp (mem_of_mem_filter hc)
    exact h d hd

theorem OneColumn.mergeColumnData (h : OneColumn seriesID fieldID columns) :
    OneColumn seriesID fieldID (mergeColumnData columns) := by
  intro c hc
  obtain ⟨d, hd, hs, hf⟩ := (mergeColumnData_merged c hc).source
  exact ⟨hs ▸ (h d hd).1, hf ▸ (h d hd).2⟩

theorem OneColumn.eval (plan : MergePlan) (h : OneColumn seriesID fieldID plan.inputs) :
    OneColumn seriesID fieldID (plan.eval tombstones) := by
  induction plan with
  | input columns => exact h
  | beside a b iha ihb =>
    obtain ⟨ha, hb⟩ := forall_mem_append.mp h
    exact forall_mem_append.mpr ⟨iha ha, ihb hb⟩
  | merge a ih => exact (ih h).mergeColumnData
  | filter a ih => exact (ih h).applyTombstones

theorem OneColumn.mergesTo (h : OneColumn seriesID fieldID columns) (hc : Consistent {x | x ∈ columnSamples columns}) :
    MergesTo (columnSamples columns) (columnSamples (Engine.mergeColumnData columns)) :=
  (mergeColumnData_newestOf h.sameColumn).mergesTo hc

instance : DecidablePred (Hidden seriesID fieldID tombstones) := fun _ => inferInstanceAs (Decidable (Covered _ _))

theorem filterTombstonedSamples_eq (hseries : c.seriesID = seriesID) (hfield : c.fieldID = fieldID) :
    filterTombstonedSamples c tombstones = c.samples.filter fun x => ¬ Hidden seriesID fieldID tombstones x := by
  subst hseries hfield
  refine filter_congr fun x _ => ?_
  rw [sampleDeleted, Bool.eq_iff_iff, Bool.not_eq_true', ← Bool.not_eq_true, any_eq_true, decide_eq_true_iff]
  rfl

theorem columnSamples_filter_nonempty (columns : List ColumnData) :
    columnSamples (columns.filter fun c => !c.samples.isEmpty) = columnSamples columns := by
  induction columns with
  | nil => rfl
  | cons c columns ih =>
    unfold columnSamples at ih ⊢
    rw [filter_cons]
    split
    · rw [flatMap_cons, flatMap_cons, ih]
    · next hempty =>
      have hnil : c.samples = [] := by simpa using hempty
      rw [flatMap_cons, hnil, ih, nil_append]

theorem columnSamples_applyTombstones (h : OneColumn seriesID fieldID columns) :
    columnSamples (applyTombstones columns tombstones) =
      (columnSamples columns).filter fun x => ¬ Hidden seriesID fieldID tombstones x := by
  unfold applyTombstones
  split
  · next hnone =>
    rcases Bool.or_eq_true_iff.mp hnone with hnone | hnone
    · rw [List.isEmpty_iff.mp hnone]
      rfl
    · rw [List.isEmpty_iff.mp hnone]
      exact (filter_eq_self.mpr fun x _ => by simp [Hidden]).symm
  · rw [columnSamples_filter_nonempty, columnSamples, columnSamples, flatMap_map, filter_flatMap]
    refine flatMap_congr fun c hc => ?_
    exact filterTombstonedSamples_eq (h c hc).1 (h c hc).2

theorem mem_columnSamples_applyTombstones (h : OneColumn seriesID fieldID columns) :
    x ∈ columnSamples (applyTombstones columns tombstones) ↔
      x ∈ columnSamples columns ∧ ¬ Hidden seriesID fieldID tombstones x := by
  rw [columnSamples_applyTombstones h, mem_filter, decide_eq_true_iff]

theorem columnSamples_append (a b : List ColumnData) :
    {x | x ∈ columnSamples (a ++ b)} = {x | x ∈ columnSamples a} ∪ {x | x ∈ columnSamples b} := by
  ext x
  simp [columnSamples]

section
variable (plan : MergePlan) (h : OneColumn seriesID fieldID plan.inputs)
  (hc : Consistent {x | x ∈ columnSamples plan.inputs})
include plan h hc

theorem keeps_eval :
    Keeps (Hidden seriesID fieldID tombstones) {x | x ∈ columnSamples (plan.eval tombstones)}
      {x | x ∈ columnSamples plan.inputs} := by
  induction plan with
  | input columns => exact Keeps.refl _ _
  | beside a b iha ihb =>
    obtain ⟨ha, hb⟩ := forall_mem_append.mp h
    rw [MergePlan.inputs, columnSamples_append] at hc ⊢
    rw [MergePlan.eval, columnSamples_append]
    exact (iha ha (hc.mono Set.subset_union_left)).union (ihb hb (hc.mono Set.subset_union_right))
  | merge a ih =>
    have hone : OneColumn seriesID fieldID (a.eval tombstones) := OneColumn.eval a h
    have hkeeps := ih h hc
    have hset : {x | x ∈ columnSamples (mergeColumnData (a.eval tombstones))} =
        {x | IsLatest {x | x ∈ columnSamples (a.eval tombstones)} x} :=
      Set.ext (hone.mergesTo (hc.mono hkeeps.subset)).mem_iff
    rw [MergePlan.eval, hset]
    exact (keeps_isLatest _ (finite_toSet _)).trans hidesOlder_hidden hkeeps
  | filter a ih =>
    have hone : OneColumn seriesID fieldID (a.eval tombstones) := OneColumn.eval a h
    have hset : {x | x ∈ columnSamples (applyTombstones (a.eval tombstones) tombstones)} =
        {x | x ∈ {x | x ∈ columnSamples (a.eval tombstones)} ∧ ¬ Hidden seriesID fieldID tombstones x} :=
      Set.ext fun x => mem_columnSamples_applyTombstones hone
    rw [MergePlan.eval, hset]
    exact (keeps_sep _ _).trans hidesOlder_hidden (ih h hc)

theorem not_hidden_of_filtered (hfiltered : plan.Filtered) :
    ∀ x ∈ columnSamples (plan.eval tombstones), ¬ Hidden seriesID fieldID tombstones x := by
  induction plan with
  | input columns => exact hfiltered.elim
  | beside a b iha ihb =>
    obtain ⟨ha, hb⟩ := forall_mem_append.mp h
    rw [MergePlan.inputs, columnSamples_append] at hc
    intro x hx
    rw [MergePlan.eval, columnSamples, flatMap_append, mem_append] at hx
    rcases hx with hx | hx
    · exact iha ha (hc.mono Set.subset_union_left) hfiltered.1 x hx
    · exact ihb hb (hc.mono Set.subset_union_right) hfiltered.2 x hx
  | merge a ih =>
    intro x hx
    have hone : OneColumn seriesID fieldID (a.eval tombstones) := OneColumn.eval a h
    have hmerge := hone.mergesTo (hc.mono (keeps_eval a h hc).subset)
    exact ih h hc hfiltered x ((hmerge.mem_iff x).mp hx).1
  | filter a =>
    intro x hx
    exact ((mem_columnSamples_applyTombstones (OneColumn.eval a h)).mp hx).2

end

theorem filter_mergesTo_eq (h : MergesTo input out) (h' : MergesTo input' out') (hc : Consistent {x | x ∈ input'})
    (hkeeps : Keeps (Hidden seriesID fieldID tombstones) {x | x ∈ input} {x | x ∈ input'}) :
    (out.filter fun x => ¬ Hidden seriesID fieldID tombstones x) =
      out'.filter fun x => ¬ Hidden seriesID fieldID tombstones x := by
  refine (h.sorted.filter _).eq_of_mem_iff (h'.sorted.filter _) fun x => ?_
  rw [mem_filter, mem_filter, decide_eq_true_iff, h.mem_iff, h'.mem_iff]
  exact hkeeps.visible_iff hidesOlder_hidden hc x

end

/-- Filtering the inputs and merging gives what merging and filtering gives; so does every plan of partial merges
and filters, filtered at the end or with every input filtered on its way. -/
theorem filter_merge_commute {seriesID : UInt64} {fieldID : UInt32} (plan : MergePlan) (tombstones : List Tombstone)
    (hone : OneColumn seriesID fieldID plan.inputs) (hseq : SeqsDistinct (columnSamples plan.inputs)) :
    columnSamples (mergeColumnData (applyTombstones plan.inputs tombstones)) =
        columnSamples (applyTombstones (mergeColumnData plan.inputs) tombstones) ∧
      columnSamples (applyTombstones (mergeColumnData (plan.eval tombstones)) tombstones) =
        columnSamples (applyTombstones (mergeColumnData plan.inputs) tombstones) ∧
      (plan.Filtered → columnSamples (mergeColumnData (plan.eval tombstones)) =
        columnSamples (applyTombstones (mergeColumnData plan.inputs) tombstones)) := by
  have hc := hseq.consistent
  have hend : ∀ p : MergePlan, p.inputs = plan.inputs →
      columnSamples (applyTombstones (mergeColumnData (p.eval tombstones)) tombstones) =
        columnSamples (applyTombstones (mergeColumnData plan.inputs) tombstones) := by
    intro p hp
    have honep : OneColumn seriesID fieldID p.inputs := hp ▸ hone
    have heval : OneColumn seriesID fieldID (p.eval tombstones) := OneColumn.eval p honep
    have hkeeps : Keeps (Hidden seriesID fieldID tombstones) {x | x ∈ columnSamples (p.eval tombstones)}
        {x | x ∈ columnSamples p.inputs} := keeps_eval p honep (hp ▸ hc)
    rw [columnSamples_applyTombstones heval.mergeColumnData, columnSamples_applyTombstones hone.mergeColumnData]
    refine filter_mergesTo_eq (heval.mergesTo ((hp ▸ hc).mono hkeeps.subset)) (hone.mergesTo hc) hc ?_
    rw [← hp]
    exact hkeeps
  have hway : ∀ p : MergePlan, p.inputs = plan.inputs → p.Filtered →
      columnSamples (mergeColumnData (p.eval tombstones)) =
        columnSamples (applyTombstones (mergeColumnData plan.inputs) tombstones) := by
    intro p hp hfiltered
    have honep : OneColumn seriesID fieldID p.inputs := hp ▸ hone
    have hall : ∀ x ∈ columnSamples (mergeColumnData (p.eval tombstones)), ¬ Hidden seriesID fieldID tombstones x :=
      not_hidden_of_filtered p.merge honep (hp ▸ hc) hfiltered
    have heval : OneColumn seriesID fieldID (p.eval tombstones) := OneColumn.eval p honep
    rw [← hend p hp, columnSamples_applyTombstones heval.mergeColumnData]
    exact (filter_eq_self.mpr fun x hx => decide_eq_true (hall x hx)).symm
  exact ⟨hway (.filter (.input plan.inputs)) rfl trivial, hend plan rfl, hway plan rfl⟩

/-- A timestamp written twice before and once after a deletion, another one only before it. -/
def deletedColumns : MergePlan :=
  .beside (.merge (.beside (.input [⟨1, 1, .int64, [⟨5, 1, .int64 10⟩, ⟨6, 2, .int64 20⟩]⟩])
    (.filter (.input [⟨1, 1, .int64, [⟨5, 3, .int64 30⟩]⟩])))) (.input [⟨1, 1, .int64, [⟨5, 7, .int64 70⟩]⟩])

theorem deletedColumns_commute :
    columnSamples (mergeColumnData (applyTombstones deletedColumns.inputs [⟨[1], [], 0, 10, 4⟩])) =
        columnSamples (applyTombstones (mergeColumnData deletedColumns.inputs) [⟨[1], [], 0, 10, 4⟩]) ∧
      columnSamples (applyTombstones (mergeColumnData (deletedColumns.eval [⟨[1], [], 0, 10, 4⟩]))
          [⟨[1], [], 0, 10, 4⟩]) =
        columnSamples (applyTombstones (mergeColumnData deletedColumns.inputs) [⟨[1], [], 0, 10, 4⟩]) ∧
      (deletedColumns.Filtered → columnSamples (mergeColumnData (deletedColumns.eval [⟨[1], [], 0, 10, 4⟩])) =
        columnSamples (applyTombstones (mergeColumnData deletedColumns.inputs) [⟨[1], [], 0, 10, 4⟩])) :=
  filter_merge_commute deletedColumns [⟨[1], [], 0, 10, 4⟩]
    (by decide : ∀ c ∈ deletedColumns.inputs, c.seriesID = 1 ∧ c.fieldID = 1) (by decide)

end Mts.Engine
