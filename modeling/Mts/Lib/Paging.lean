import Mts.Lib.Runs

/-! Pages of a list in a strict order, each started after the last item of the one before. -/

namespace Mts.Lib
open List

section
variable {α : Type} {r : α → α → Prop} [DecidableRel r]

/-- The items after `e` are those that follow it on a page that was cut off by `P`. -/
theorem filter_after (hasymm : ∀ a b, r a b → ¬ r b a) {l init rest : List α} (hl : l.Pairwise r)
    (h : l.filter P = init ++ e :: rest) (hP : ∀ a, r e a → P a = true) : l.filter (r e) = rest := by
  have hfilter : l.filter (r e) = (init ++ e :: rest).filter (r e) := by
    rw [← h, filter_filter]
    exact filter_congr fun a _ => by by_cases ha : r e a <;> simp [ha, hP]
  obtain ⟨-, hrest, hacross⟩ := pairwise_append.mp (h ▸ hl.filter P)
  have hinit : init.filter (r e) = [] := by
    refine filter_eq_nil_iff.mpr fun a ha => ?_
    simpa using hasymm a e (hacross a ha e mem_cons_self)
  have hall : rest.filter (r e) = rest := filter_eq_self.mpr fun a ha => decide_eq_true (rel_of_pairwise_cons hrest ha)
  rw [hfilter, filter_append, hinit, filter_cons_of_neg (by simpa using fun hee => hasymm e e hee hee), hall,
    nil_append]

theorem take_cases (l : List α) (hn : 1 ≤ n) :
    l.length ≤ n ∧ l.take n = l ∨ ∃ init e rest, l = init ++ e :: rest ∧ rest ≠ [] ∧ l.take n = init ++ [e] := by
  rcases Nat.lt_or_ge n l.length with hlt | hle
  · right
    rcases eq_nil_or_concat (l.take n) with hnil | ⟨init, e, htake⟩
    · simp only [take_eq_nil_iff] at hnil
      rcases hnil with h | h
      · omega
      · simp [h] at hlt
    · rw [concat_eq_append] at htake
      refine ⟨init, e, l.drop n, ?_, ?_, htake⟩
      · rw [append_cons, ← htake, take_append_drop]
      · exact ne_nil_of_length_pos (by rw [length_drop]; omega)
  · exact .inl ⟨hle, take_of_length_le hle⟩

end

section Pages
variable {α γ : Type} (cursorOf : α → γ)

/-- The items of all pages until an empty one, each started from the last item of the one before. A page that fails
is `none`. -/
def pageRun (page : Option γ → Option (List α)) : Nat → Option γ → Option (List α)
  | 0, _ => none
  | fuel + 1, cursor => do
    let items ← page cursor
    match items.getLast? with
    | none => some []
    | some e => (pageRun page fuel (some (cursorOf e))).map (items ++ ·)

variable (after : γ → α → Bool)

def pageOf (n : Nat) (l : List α) (cursor : Option γ) : List α := (l.filter fun a => cursor.all (after · a)).take n

variable {cursorOf after} {l : List α} {n : Nat} {page : Option γ → Option (List α)}

/-- Pages of a list that is in the order of its cursors are complete. -/
theorem pageRun_eq (hpage : ∀ cursor, page cursor = some (pageOf after n l cursor))
    (hasymm : ∀ a b, after (cursorOf a) b = true → ¬ after (cursorOf b) a = true)
    (htrans : ∀ a b c, after (cursorOf a) b = true → after (cursorOf b) c = true → after (cursorOf a) c = true)
    (hl : l.Pairwise fun a b => after (cursorOf a) b = true) (hn : 1 ≤ n) {last : Option α}
    (hfuel : (l.filter fun a => (last.map cursorOf).all (after · a)).length < fuel) :
    pageRun cursorOf page fuel (last.map cursorOf) = some (l.filter fun a => (last.map cursorOf).all (after · a)) := by
  induction fuel generalizing last with
  | zero => omega
  | succ fuel ih =>
    -- the next page starts behind the last item of this one
    have hnext : ∀ {init e rest}, (l.filter fun a => (last.map cursorOf).all (after · a)) = init ++ e :: rest →
        pageRun cursorOf page fuel (some (cursorOf e)) = some rest := by
      intro init e rest h
      have he : e ∈ l.filter fun a => (last.map cursorOf).all (after · a) := by simp [h]
      have hrest : (l.filter fun a => ((some e).map cursorOf).all (after · a)) = rest := by
        have hafter := filter_after (r := fun a b => after (cursorOf a) b = true) hasymm hl h fun a ha => by
          cases last with
          | none => rfl
          | some c => exact htrans c e a (mem_filter.mp he).2 ha
        simpa using hafter
      rw [h, length_append, length_cons] at hfuel
      exact (ih (show (l.filter fun a => ((some e).map cursorOf).all (after · a)).length < fuel by rw [hrest]; omega)).trans (congrArg some hrest)
    rw [pageRun, hpage, Option.bind_eq_bind, Option.bind_some, pageOf]
    rcases take_cases (l.filter fun a => (last.map cursorOf).all (after · a)) hn with
      ⟨-, htake⟩ | ⟨init, e, rest, hsplit, -, htake⟩
    · rw [htake]
      rcases eq_nil_or_concat (l.filter fun a => (last.map cursorOf).all (after · a)) with hnil | ⟨init, e, hlast⟩
      · rw [hnil]
        rfl
      · rw [concat_eq_append] at hlast
        rw [hlast, getLast?_concat]
        simp [hnext hlast]
    · rw [htake, getLast?_concat, hsplit]
      simp [hnext hsplit]

/-- Pages of one item each are in the order of the cursors. -/
theorem isChain_of_pageRun (hpage : ∀ cursor, page cursor = some (pageOf after 1 l cursor)) (h : pageRun cursorOf page fuel cursor = some out) :
    out.IsChain (fun a b => after (cursorOf a) b = true) ∧ ∀ a ∈ out.head?, cursor.all (after · a) = true := by
  induction fuel generalizing cursor out with
  | zero => cases h
  | succ fuel ih =>
    rw [pageRun, hpage, Option.bind_eq_bind, Option.bind_some, pageOf] at h
    cases hcur : l.filter fun a => cursor.all (after · a) with
    | nil =>
      rw [hcur] at h
      cases h
      exact ⟨.nil, by simp⟩
    | cons a tail =>
      rw [hcur] at h
      obtain ⟨rest, hrest, rfl⟩ := Option.map_eq_some_iff.mp h
      obtain ⟨hchain, hhead⟩ := ih hrest
      have ha : a ∈ l.filter fun a => cursor.all (after · a) := by simp [hcur]
      exact ⟨hchain.cons (by simpa using hhead), by simpa using (mem_filter.mp ha).2⟩

end Pages
end Mts.Lib
