import Mts.Lib.Paging
import Mts.User.Manager

/-! Pages of users with their grants, `user/local_user_grant_page.go`. A page starts after the name in its cursor,
so that it needs no user of that name. -/

namespace Mts.User
open Lib Model List

structure UserGrantBundle where
  user : User
  grants : UserGrants

structure UserGrantPage where
  items : List UserGrantBundle
  nextCursor : GoString
  totalUsers : Nat

inductive GrantPageError
  | canceled
  | invalidPageLimit (limit : Int)

def maxGrantPageLimit : Int := 200

def listUserGrantPage (canceled : Bool) (cursor : GoString) (limit : Int) (s : State) :
    Except GrantPageError UserGrantPage := do
  require (canceled = false) .canceled
  require (1 ≤ limit ∧ limit ≤ maxGrantPageLimit) (.invalidPageLimit limit)
  let users := s.users.entries
  let rest := users.dropWhile fun e => !decide (cursor < e.1)
  let page := rest.take limit.toNat
  .ok {
    items := page.map fun e => ⟨e.2, s.grantsOf e.1⟩
    nextCursor := if page.length < rest.length then ((page.getLast?).map Prod.fst).getD [] else []
    totalUsers := users.length }

/-- The pages of a client that asks again with each cursor, and whether it came to the end. There is one state
of the store for each request. -/
def grantPages (limit : Int) : GoString → List State → List UserGrantPage × Bool
  | _, [] => ([], false)
  | cursor, s :: states =>
    match listUserGrantPage false cursor limit s with
    | .error _ => ([], false)
    | .ok page =>
      if page.nextCursor = [] then ([page], true)
      else (page :: (grantPages limit page.nextCursor states).1, (grantPages limit page.nextCursor states).2)

def visitedNames (pages : List UserGrantPage) : List GoString :=
  pages.flatMap fun page => page.items.map fun item => item.user.name

/-- Users are stored under their names, and none has the empty name. -/
def State.Named (s : State) : Prop := ∀ e ∈ s.users.entries, e.2.name = e.1 ∧ e.1 ≠ []

instance (s : State) : Decidable s.Named := inferInstanceAs (Decidable (∀ e ∈ s.users.entries, _))

/-- What a client sees that comes to the end when the store stops changing. -/
structure StablePaging (limit : Int) (states : List State) : Prop where
  increasing : (visitedNames (grantPages limit [] states).1).Pairwise (· < ·)
  complete : (grantPages limit [] states).2 = true → ∀ name,
    (∀ s ∈ states.take (grantPages limit [] states).1.length, (s.users.find? name).isSome) →
      name ∈ visitedNames (grantPages limit [] states).1
  ends : ∀ s, s.Named → ∃ n, (grantPages limit [] (states ++ List.replicate n s)).2 = true

def State.usersAfter (s : State) (cursor : GoString) : List (GoString × User) :=
  s.users.entries.filter fun e => cursor < e.1

variable {limit : Int} {cursor : GoString} {s : State} {states : List State}

theorem State.sorted_usersAfter (s : State) (cursor : GoString) :
    (s.usersAfter cursor).Pairwise (·.1 < ·.1) := s.users.sorted.filter _

section
variable (hlimit : 1 ≤ limit ∧ limit ≤ maxGrantPageLimit)
include hlimit

theorem listUserGrantPage_eq (hs : s.Named) (cursor : GoString) :
    ∃ page, listUserGrantPage false cursor limit s = .ok page ∧
      (page.nextCursor = [] ∧ visitedNames [page] = (s.usersAfter cursor).map Prod.fst ∨
      ∃ init e rest, s.usersAfter cursor = init ++ e :: rest ∧ page.nextCursor = e.1 ∧ e.1 ≠ [] ∧
        visitedNames [page] = (init ++ [e]).map Prod.fst) := by
  have hrest : s.users.entries.dropWhile (fun e => !decide (cursor < e.1)) = s.usersAfter cursor := by
    rw [(takeWhile_eq_filter ?_).2]
    · exact filter_congr fun e _ => by simp
    · refine s.users.sorted.imp fun {a b} hab hb => ?_
      simp only [Bool.not_eq_true', decide_eq_false_iff_not] at hb ⊢
      exact fun ha => hb (Std.lt_trans ha hab)
  have hnames : ∀ n, ((s.usersAfter cursor).take n).map (fun e => e.2.name) =
      ((s.usersAfter cursor).take n).map Prod.fst := fun n =>
    map_congr_left fun e he => (hs e (mem_of_mem_filter (mem_of_mem_take he))).1
  simp only [listUserGrantPage, require, if_pos hlimit, hrest]
  refine ⟨_, rfl, ?_⟩
  simp only [visitedNames, flatMap_singleton, map_map, Function.comp_def]
  rw [hnames]
  rcases take_cases (s.usersAfter cursor) (n := limit.toNat) (by omega) with
    ⟨hle, htake⟩ | ⟨init, e, rest, hafter, hne, htake⟩
  · exact .inl ⟨by rw [if_neg (by simpa using hle)], by rw [htake]⟩
  · refine .inr ⟨init, e, rest, hafter, ?_, ?_, by rw [htake]⟩
    · rw [htake, hafter, if_pos (by simpa using length_pos_iff.mpr hne)]
      simp
    · have hmem : e ∈ s.usersAfter cursor := by simp [hafter]
      exact (hs e (mem_of_mem_filter hmem)).2

theorem grantPages_spec (hstates : ∀ s ∈ states, s.Named) (cursor : GoString) :
    (visitedNames (grantPages limit cursor states).1).Pairwise (· < ·) ∧
      (∀ name ∈ visitedNames (grantPages limit cursor states).1, cursor < name) ∧
      ((grantPages limit cursor states).2 = true → ∀ name, cursor < name →
        (∀ s ∈ states.take (grantPages limit cursor states).1.length, (s.users.find? name).isSome) →
          name ∈ visitedNames (grantPages limit cursor states).1) := by
  induction states generalizing cursor with
  | nil => simp [grantPages, visitedNames]
  | cons s states ih =>
    obtain ⟨hs, hrest⟩ := forall_mem_cons.mp hstates
    obtain ⟨page, hpage, hcases⟩ := listUserGrantPage_eq hlimit hs cursor
    rw [grantPages, hpage]
    dsimp only
    have hsorted := s.sorted_usersAfter cursor
    have hmem : ∀ {name}, cursor < name → (s.users.find? name).isSome →
        name ∈ (s.usersAfter cursor).map Prod.fst := by
      intro name hlt hsome
      obtain ⟨u, hu⟩ := Option.isSome_iff_exists.mp hsome
      exact mem_map.mpr ⟨_, mem_filter.mpr ⟨SortedMap.find?_eq_some_iff.mp hu, by simpa using hlt⟩, rfl⟩
    rcases hcases with ⟨hend, hnames⟩ | ⟨init, e, rest, hafter, hnext, hne, hnames⟩
    · rw [if_pos hend]
      simp only [hnames]
      refine ⟨pairwise_map.mpr hsorted, fun name hname => ?_, fun _ name hlt hall => ?_⟩
      · obtain ⟨e, he, rfl⟩ := mem_map.mp hname
        simpa using (mem_filter.mp he).2
      · exact hmem hlt (hall s (by simp))
    · obtain ⟨hpairwise, habove, hcomplete⟩ := ih hrest e.1
      rw [if_neg (hnext ▸ hne), hnext]
      have hvisited : visitedNames (page :: (grantPages limit e.1 states).1) =
          (init ++ [e]).map Prod.fst ++ visitedNames (grantPages limit e.1 states).1 := by
        rw [← hnames]
        simp [visitedNames]
      have hcursor : ∀ a ∈ init ++ e :: rest, cursor < a.1 := fun a ha => by
        simpa using (mem_filter.mp (hafter ▸ ha : a ∈ s.usersAfter cursor)).2
      rw [hafter, append_cons] at hsorted
      obtain ⟨hfront, -, hback⟩ := pairwise_append.mp hsorted
      have hlast : ∀ a ∈ init ++ [e], ∀ name, e.1 < name → a.1 < name := by
        intro a ha name hlt
        rcases mem_append.mp ha with ha | ha
        · exact Std.lt_trans ((pairwise_append.mp hfront).2.2 a ha e (mem_singleton_self e)) hlt
        · rwa [mem_singleton.mp ha]
      rw [hvisited]
      refine ⟨pairwise_append.mpr ⟨pairwise_map.mpr hfront, hpairwise, ?_⟩, ?_, fun hend name hlt hall => ?_⟩
      · intro v hv w hw
        obtain ⟨a, ha, rfl⟩ := mem_map.mp hv
        exact hlast a ha w (habove w hw)
      · intro name hname
        rcases mem_append.mp hname with hname | hname
        · obtain ⟨a, ha, rfl⟩ := mem_map.mp hname
          exact hcursor a (by simp at ha ⊢; tauto)
        · exact Std.lt_trans (hcursor e (by simp)) (habove name hname)
      · obtain ⟨hs', hall⟩ := forall_mem_cons.mp (take_succ_cons ▸ hall)
        have hname := hmem hlt hs'
        rw [hafter, append_cons, map_append] at hname
        refine mem_append.mpr ((mem_append.mp hname).imp_right fun hname => ?_)
        obtain ⟨b, hb, rfl⟩ := mem_map.mp hname
        exact hcomplete hend b.1 (hback e (by simp) b hb) hall

theorem grantPages_ends (hs : s.Named) (hn : (s.usersAfter cursor).length < n) :
    (grantPages limit cursor (List.replicate n s)).2 = true := by
  induction n generalizing cursor with
  | zero => omega
  | succ n ih =>
    obtain ⟨page, hpage, hcases⟩ := listUserGrantPage_eq hlimit hs cursor
    rw [replicate_succ, grantPages, hpage]
    dsimp only
    split
    · rfl
    · next hne =>
      rcases hcases with ⟨hend, -⟩ | ⟨init, e, rest, hafter, hnext, -, -⟩
      · exact absurd hend hne
      · refine ih ?_
        have hcursor : cursor < e.1 := by
          simpa using (mem_filter.mp (hafter ▸ by simp : e ∈ s.usersAfter cursor)).2
        have hrest : s.usersAfter e.1 = rest :=
          filter_after (fun _ _ => Std.not_gt_of_lt) s.users.sorted hafter
            fun a ha => decide_eq_true (Std.lt_trans hcursor ha)
        rw [hafter, length_append, length_cons] at hn
        rw [hnext, hrest]
        omega

theorem grantPages_append_ends (hstates : ∀ s ∈ states, s.Named) (hs : s.Named) :
    (grantPages limit cursor (states ++ List.replicate (s.users.entries.length + 1) s)).2 = true := by
  induction states generalizing cursor with
  | nil => exact grantPages_ends hlimit hs (Nat.lt_succ_of_le (length_filter_le ..))
  | cons first states ih =>
    obtain ⟨hfirst, hrest⟩ := forall_mem_cons.mp hstates
    obtain ⟨page, hpage, -⟩ := listUserGrantPage_eq hlimit hfirst cursor
    rw [cons_append, grantPages, hpage]
    dsimp only
    split
    · rfl
    · exact ih hrest

end

/-- The names come in order, so that no user is visited twice. -/
theorem stablePaging (hlimit : 1 ≤ limit ∧ limit ≤ maxGrantPageLimit) (hstates : ∀ s ∈ states, s.Named) :
    StablePaging limit states := by
  obtain ⟨hpairwise, -, hcomplete⟩ := grantPages_spec hlimit hstates []
  refine ⟨hpairwise, fun hend name hall => hcomplete hend name ?_ hall, fun s hs => ?_⟩
  · cases states with
    | nil => simp [grantPages] at hend
    | cons s states =>
      obtain ⟨page, hpage, -⟩ := listUserGrantPage_eq hlimit (hstates s mem_cons_self) []
      have hsome : (s.users.find? name).isSome := by
        refine hall s ?_
        rw [grantPages, hpage]
        dsimp only
        split <;> simp
      obtain ⟨u, hu⟩ := Option.isSome_iff_exists.mp hsome
      have hne := (hstates s mem_cons_self _ (SortedMap.find?_eq_some_iff.mp hu)).2
      obtain ⟨b, bs, rfl⟩ := exists_cons_of_ne_nil hne
      exact nil_lt_cons b bs
  · exact ⟨_, grantPages_append_ends hlimit hstates hs⟩

def namedState (names : List GoString) : State :=
  { State.empty with users := names.foldl (fun m name => m.set name ⟨name, [], .user, false, TagMap.empty⟩) .empty }

/-- A user is created behind the cursor and another one deleted, with one user on a page. -/
theorem stablePaging_changing :
    StablePaging 1 [namedState [[97], [98], [99]], namedState [[96], [97], [99]], namedState [[99]]] :=
  stablePaging (by decide) (by decide)

/-- A stored user without a name is before the first page. -/
theorem unnamed_user_not_visited : ¬ StablePaging 1 [namedState [[]]] := by
  intro h
  exact absurd (h.complete (by decide) [] (by decide)) (by decide)

end Mts.User
