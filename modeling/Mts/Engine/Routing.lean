import Mts.Lib.Decimal
import Mts.Lib.FilePath
import Mts.Lib.GoMap
import Mts.Model.Types

/-! The routing of points to shards, `engine/shard_routing.go` with the paths of `engine/paths.go`: the map of
open shards by ID, the shard directories, and their rediscovery when the engine is opened. A batch also keeps the
shards it has looked up, by the same names and start. The directories inside a shard are left out, the one above
them is never named `shards`. -/

set_option linter.dupNamespace false

namespace Mts.Engine.Routing
open Lib Model List

structure EngineOptions where
  path : GoString
  defaultDatabase : GoString
  defaultRetentionPolicy : GoString
  shardDuration : Int64

/-- `default`. -/
def defaultDatabase : GoString := [100, 101, 102, 97, 117, 108, 116]

/-- `autogen`. -/
def defaultRetentionPolicy : GoString := [97, 117, 116, 111, 103, 101, 110]

/-- One hour in nanoseconds. -/
def defaultShardDuration : Int64 := 3600000000000

def normalizeOptions (opts : EngineOptions) : EngineOptions where
  path := opts.path
  defaultDatabase := if opts.defaultDatabase = [] then Routing.defaultDatabase else opts.defaultDatabase
  defaultRetentionPolicy :=
    if opts.defaultRetentionPolicy = [] then Routing.defaultRetentionPolicy else opts.defaultRetentionPolicy
  shardDuration := if opts.shardDuration ≤ 0 then defaultShardDuration else opts.shardDuration

def shardStart (timestamp duration : Int64) : Int64 :=
  if 0 ≤ timestamp then timestamp / duration * duration else ((timestamp + 1) / duration - 1) * duration

structure ShardKey where
  database : GoString
  policy : GoString
  start : Int64
  deriving DecidableEq

def shardID (k : ShardKey) : GoString := k.database ++ 47 :: (k.policy ++ 47 :: sprintInt k.start)

/-- `data`. -/
def dataName : PathName := ⟨[100, 97, 116, 97], by decide⟩

/-- `shards`. -/
def shardsName : PathName := ⟨[115, 104, 97, 114, 100, 115], by decide⟩

def dataRoot (root : GoString) : FilePath := FilePath.join [root, dataName.1]

def shardDir (root : GoString) (k : ShardKey) : FilePath :=
  FilePath.join [root, dataName.1, k.database, k.policy, shardsName.1, sprintInt k.start]

structure OpenShard where
  dir : FilePath
  key : ShardKey
  deriving DecidableEq

structure Engine where
  opts : EngineOptions
  shards : GoMap GoString OpenShard
  dirs : List FilePath

def mkdirAll (dirs : List FilePath) (dir : FilePath) : List FilePath := dirs ++ dir.ancestors

/-- The engine with the shard of a key, by its ID; `none` where its directory cannot be made. -/
def shardForStartLocked (accepts : FilePath → Bool) (e : Engine) (k : ShardKey) : Option (GoString × Engine) :=
  match e.shards.get? (shardID k) with
  | some _ => some (shardID k, e)
  | none =>
    let dir := shardDir e.opts.path k
    if accepts dir then
      some (shardID k, { e with shards := e.shards.set (shardID k) ⟨dir, k⟩, dirs := mkdirAll e.dirs dir })
    else none

def openShardDir (e : Engine) (path : FilePath) : Engine :=
  if path.dir.base ≠ shardsName.1 then e
  else
    match parseInt path.base with
    | none => e
    | some start =>
      let k : ShardKey := ⟨path.dir.dir.dir.base, path.dir.dir.base, start⟩
      { e with shards := e.shards.set (shardID k) ⟨path, k⟩ }

def walkDir (dirs : List FilePath) (root : FilePath) : List FilePath :=
  ((dirs.filter fun p => p.Below root).dedup).insertionSort fun p q =>
    p.names.reverse.map Subtype.val ≤ q.names.reverse.map Subtype.val

def loadExistingShards (e : Engine) : Engine := (walkDir e.dirs (dataRoot e.opts.path)).foldl openShardDir e

/-- `Open` on a directory. -/
def openEngine (opts : EngineOptions) (dirs : List FilePath) : Engine :=
  loadExistingShards ⟨normalizeOptions opts, ∅, dirs⟩

structure Write where
  database : GoString
  retentionPolicy : GoString
  timestamp : Int64

def Write.key (w : Write) (opts : EngineOptions) : ShardKey where
  database := if w.database = [] then opts.defaultDatabase else w.database
  policy := if w.retentionPolicy = [] then opts.defaultRetentionPolicy else w.retentionPolicy
  start := shardStart w.timestamp opts.shardDuration

/-- Points are written, or the engine is closed and opened with other options on the same path. -/
inductive Action
  | write (w : Write)
  | reopen (defaultDatabase defaultRetentionPolicy : GoString) (shardDuration : Int64)

structure Routed where
  key : ShardKey
  shard : GoString
  deriving DecidableEq

def run (accepts : FilePath → Bool) : List Action → Engine → List Routed × Engine
  | [], e => ([], e)
  | .write w :: actions, e =>
    match shardForStartLocked accepts e (w.key e.opts) with
    | some (shard, e') => (⟨w.key e.opts, shard⟩ :: (run accepts actions e').1, (run accepts actions e').2)
    | none => run accepts actions e
  | .reopen database policy duration :: actions, e =>
    run accepts actions (openEngine ⟨e.opts.path, database, policy, duration⟩ e.dirs)

/-- What is expected of the shards: one for each key, each with a directory of its own below the data root, and
open under the key of its points. -/
structure Placement (routed : List Routed) (e : Engine) : Prop where
  same : ∀ x ∈ routed, ∀ y ∈ routed, x.shard = y.shard ↔ x.key = y.key
  opened : ∀ x ∈ routed, ∃ dir, e.shards.get? x.shard = some ⟨dir, x.key⟩
  written : ∀ {id s}, e.shards.get? id = some s → ∃ x ∈ routed, x.shard = id ∧ x.key = s.key
  apart : ∀ {id id' s s'}, e.shards.get? id = some s → e.shards.get? id' = some s' → s.dir = s'.dir → id = id'
  inside : ∀ {id s}, e.shards.get? id = some s → s.dir.Below (dataRoot e.opts.path) ∧ s.dir ≠ dataRoot e.opts.path

/-- Names that are single directories, and are not taken for a shard of a database `shards`. -/
@[mk_iff] structure PlainKey (k : ShardKey) : Prop where
  database : IsName k.database
  policy : IsName k.policy
  number : k.database = shardsName.1 → parseInt k.policy = none

instance (k : ShardKey) : Decidable (PlainKey k) := decidable_of_iff _ (plainKey_iff k).symm

section Keys
variable {root : GoString} {k k' : ShardKey}

theorem isName_sprintInt (x : Int64) : IsName (sprintInt x) := by
  have hmem : ∀ b ∈ sprintInt x, b.toNat = 45 ∨ 48 ≤ b.toNat ∧ b.toNat ≤ 57 := fun b => mem_sprintInt
  refine ⟨?_, ?_, ?_, ?_⟩
  · intro h
    have := parseInt_sprintInt x
    rw [h] at this
    cases this
  · intro h
    exact absurd (hmem 47 h) (by decide)
  · intro h
    exact absurd (hmem 46 (by rw [h]; decide)) (by decide)
  · intro h
    exact absurd (hmem 46 (by rw [h]; decide)) (by decide)

theorem shardID_inj (h : PlainKey k) (h' : PlainKey k') (heq : shardID k = shardID k') : k = k' := by
  have hsplit : ∀ {k : ShardKey}, PlainKey k → components (shardID k) = [k.database, k.policy, sprintInt k.start] := by
    intro k h
    rw [shardID, components_append_separator, components_append_separator, components_of_notMem h.database.2.1,
      components_of_notMem h.policy.2.1, components_of_notMem (isName_sprintInt k.start).2.1]
    rfl
  have hcomponents := congrArg components heq
  rw [hsplit h, hsplit h'] at hcomponents
  simp only [List.cons.injEq, and_true] at hcomponents
  obtain ⟨hdatabase, hpolicy, hstart⟩ := hcomponents
  obtain ⟨database, policy, start⟩ := k
  obtain ⟨database', policy', start'⟩ := k'
  simp only [ShardKey.mk.injEq]
  exact ⟨hdatabase, hpolicy, sprintInt_inj hstart⟩

theorem dataRoot_eq (hroot : root ≠ []) :
    dataRoot root = { FilePath.clean root with names := dataName :: (FilePath.clean root).names } := by
  rw [dataRoot, FilePath.join_cons hroot]
  exact FilePath.enterAll_name _ dataName

theorem shardDir_eq (hroot : root ≠ []) (h : PlainKey k) : shardDir root k = { dataRoot root with names :=
      ⟨sprintInt k.start, isName_sprintInt k.start⟩ :: shardsName :: ⟨k.policy, h.policy⟩ ::
        ⟨k.database, h.database⟩ :: (dataRoot root).names } := by
  rw [dataRoot_eq hroot, shardDir, FilePath.join_cons hroot]
  simp only [foldl_cons, foldl_nil]
  rw [FilePath.enterAll_name _ dataName, FilePath.enterAll_name _ ⟨k.database, h.database⟩,
    FilePath.enterAll_name _ ⟨k.policy, h.policy⟩, FilePath.enterAll_name _ shardsName,
    FilePath.enterAll_name _ ⟨sprintInt k.start, isName_sprintInt k.start⟩]

theorem shardDir_inj (hroot : root ≠ []) (h : PlainKey k) (h' : PlainKey k')
    (heq : shardDir root k = shardDir root k') : k = k' := by
  rw [shardDir_eq hroot h, shardDir_eq hroot h'] at heq
  simp only [FilePath.mk.injEq, List.cons.injEq, Subtype.mk.injEq, true_and, and_true] at heq
  obtain ⟨hstart, hpolicy, hdatabase⟩ := heq
  obtain ⟨database, policy, start⟩ := k
  obtain ⟨database', policy', start'⟩ := k'
  simp only [ShardKey.mk.injEq]
  exact ⟨hdatabase, hpolicy, sprintInt_inj hstart⟩

theorem below_dataRoot (hroot : root ≠ []) (h : PlainKey k) : (shardDir root k).Below (dataRoot root) := by
  rw [shardDir_eq hroot h]
  exact ⟨rfl, rfl, ⟨[_, _, _, _], rfl⟩⟩

end Keys

section Walk
variable {root : GoString} {k : ShardKey} {p : FilePath} {e : Engine} {seen : List FilePath}

theorem openShardDir_of_number (h : p.dir.base = shardsName.1 → parseInt p.base = none) : openShardDir e p = e := by
  rw [openShardDir]
  split
  · rfl
  · next hbase => rw [h (not_not.mp hbase)]

theorem openShardDir_shardDir (hroot : root ≠ []) (h : PlainKey k) (e : Engine) :
    openShardDir e (shardDir root k) = { e with shards := e.shards.set (shardID k) ⟨shardDir root k, k⟩ } := by
  have hdir := shardDir_eq hroot h
  have hbase : (shardDir root k).base = sprintInt k.start := by rw [hdir]; rfl
  have hshards : (shardDir root k).dir.base = shardsName.1 := by rw [hdir]; rfl
  have hpolicy : (shardDir root k).dir.dir.base = k.policy := by rw [hdir]; rfl
  have hdatabase : (shardDir root k).dir.dir.dir.base = k.database := by rw [hdir]; rfl
  rw [openShardDir, if_neg (not_not.mpr hshards), hbase, parseInt_sprintInt, hpolicy, hdatabase]

theorem openShardDir_below (hroot : root ≠ []) (h : PlainKey k) (hbelow : (shardDir root k).Below p)
    (hdata : p.Below (dataRoot root)) : p = shardDir root k ∨
      p.names.length < (dataRoot root).names.length + 4 ∧ ∀ e, openShardDir e p = e := by
  have hdir := shardDir_eq hroot h
  obtain ⟨hrooted, hup, hsuffix⟩ := hdata
  have hnames := hbelow.2.2
  rw [hdir] at hnames
  simp only [List.suffix_cons_iff] at hnames
  have hroots : (dataRoot root).names = dataName :: (FilePath.clean root).names := by rw [dataRoot_eq hroot]
  rcases hnames with hnames | hnames | hnames | hnames | hnames
  · refine .inl (FilePath.eq_of_parts ?_ ?_ ?_)
    · rw [hrooted, hdir]
    · rw [hup, hdir]
    · rw [hnames, hdir]
  · refine .inr ⟨by rw [hnames]; simp, fun e => openShardDir_of_number fun _ => ?_⟩
    rw [FilePath.base_of_names hnames]
    decide
  · refine .inr ⟨by rw [hnames]; simp, fun e => openShardDir_of_number fun hbase => ?_⟩
    rw [FilePath.base_of_names (FilePath.names_dir hnames)] at hbase
    rw [FilePath.base_of_names hnames]
    exact h.number hbase
  · refine .inr ⟨by rw [hnames]; simp, fun e => openShardDir_of_number fun hbase => ?_⟩
    rw [FilePath.base_of_names ((FilePath.names_dir hnames).trans hroots)] at hbase
    exact absurd hbase (by decide)
  · have hsame : p.names = (dataRoot root).names := hnames.eq_of_length_le hsuffix.length_le
    refine .inr ⟨by rw [hsame]; omega, fun e => openShardDir_of_number fun _ => ?_⟩
    rw [FilePath.base_of_names (hsame.trans hroots)]
    decide

variable {keys : List ShardKey}

def Found (root : GoString) (keys : List ShardKey) (seen : List FilePath) (shards : GoMap GoString OpenShard) : Prop :=
  ∀ id s, shards.get? id = some s ↔
    ∃ k ∈ keys, shardDir root k ∈ seen ∧ id = shardID k ∧ s = ⟨shardDir root k, k⟩

theorem found_openShardDir (hroot : root ≠ []) (hplain : ∀ k ∈ keys, PlainKey k)
    (h : Found root keys seen e.shards) (hp : ∃ k ∈ keys, (shardDir root k).Below p)
    (hdata : p.Below (dataRoot root)) : Found root keys (seen ++ [p]) (openShardDir e p).shards := by
  obtain ⟨k, hk, hbelow⟩ := hp
  rcases openShardDir_below hroot (hplain k hk) hbelow hdata with rfl | ⟨hlength, hsame⟩
  · intro id s
    rw [openShardDir_shardDir hroot (hplain k hk), GoMap.get?_set]
    split
    · next hid =>
      subst hid
      constructor
      · intro hs
        exact ⟨k, hk, mem_append_right _ mem_cons_self, rfl, (Option.some.inj hs).symm⟩
      · rintro ⟨k', hk', -, hid, rfl⟩
        rw [shardID_inj (hplain k hk) (hplain k' hk') hid]
    · next hid =>
      rw [h]
      constructor
      · rintro ⟨k', hk', hseen, hid', hs⟩
        exact ⟨k', hk', mem_append_left _ hseen, hid', hs⟩
      · rintro ⟨k', hk', hseen, hid', hs⟩
        refine ⟨k', hk', (mem_append.mp hseen).resolve_right fun hdir => hid ?_, hid', hs⟩
        rw [hid', shardDir_inj hroot (hplain k' hk') (hplain k hk) (mem_singleton.mp hdir)]
  · intro id s
    rw [hsame, h]
    have hother : ∀ k' ∈ keys, shardDir root k' ≠ p := by
      rintro k' hk' rfl
      rw [shardDir_eq hroot (hplain k' hk')] at hlength
      simp at hlength
    constructor
    · rintro ⟨k', hk', hseen, hid, hs⟩
      exact ⟨k', hk', mem_append_left _ hseen, hid, hs⟩
    · rintro ⟨k', hk', hseen, hid, hs⟩
      refine ⟨k', hk', (mem_append.mp hseen).resolve_right fun hdir => ?_, hid, hs⟩
      exact hother k' hk' (mem_singleton.mp hdir)

theorem found_foldl (hroot : root ≠ []) (hplain : ∀ k ∈ keys, PlainKey k) (paths : List FilePath)
    (h : Found root keys seen e.shards)
    (hpaths : ∀ p ∈ paths, (∃ k ∈ keys, (shardDir root k).Below p) ∧ p.Below (dataRoot root)) :
    Found root keys (seen ++ paths) (paths.foldl openShardDir e).shards := by
  induction paths generalizing seen e with
  | nil => rwa [append_nil]
  | cons p paths ih =>
    obtain ⟨⟨hp, hdata⟩, hrest⟩ := forall_mem_cons.mp hpaths
    rw [append_cons]
    exact ih (found_openShardDir hroot hplain h hp hdata) hrest

theorem mem_walkDir : p ∈ walkDir dirs q ↔ p ∈ dirs ∧ p.Below q := by
  rw [walkDir, mem_insertionSort, mem_dedup, mem_filter, decide_eq_true_eq]

end Walk

section Run
variable {accepts : FilePath → Bool} {keys : List ShardKey} {e : Engine}

structure Tracks (keys : List ShardKey) (e : Engine) : Prop where
  path : e.opts.path ≠ []
  plain : ∀ k ∈ keys, PlainKey k
  shards : ∀ {id s}, e.shards.get? id = some s ↔ ∃ k ∈ keys, id = shardID k ∧ s = ⟨shardDir e.opts.path k, k⟩
  dirs : ∀ {p}, p ∈ e.dirs ↔ ∃ k ∈ keys, (shardDir e.opts.path k).Below p

theorem foldl_openShardDir_opts (paths : List FilePath) (e : Engine) :
    (paths.foldl openShardDir e).opts = e.opts ∧ (paths.foldl openShardDir e).dirs = e.dirs := by
  induction paths generalizing e with
  | nil => exact ⟨rfl, rfl⟩
  | cons p paths ih =>
    have hstep : (openShardDir e p).opts = e.opts ∧ (openShardDir e p).dirs = e.dirs := by
      rw [openShardDir]
      split
      · exact ⟨rfl, rfl⟩
      · split <;> exact ⟨rfl, rfl⟩
    rw [foldl_cons, (ih _).1, (ih _).2]
    exact hstep

theorem Tracks.reopen (h : Tracks keys e) (hopts : opts.path = e.opts.path) :
    Tracks keys (openEngine opts e.dirs) := by
  have hpath : (normalizeOptions opts).path = e.opts.path := hopts
  have hopen : openEngine opts e.dirs =
      (walkDir e.dirs (dataRoot e.opts.path)).foldl openShardDir ⟨normalizeOptions opts, ∅, e.dirs⟩ := by
    rw [openEngine, loadExistingShards, hpath]
  obtain ⟨hopts', hdirs⟩ := foldl_openShardDir_opts (walkDir e.dirs (dataRoot e.opts.path))
    ⟨normalizeOptions opts, ∅, e.dirs⟩
  have hempty : Found e.opts.path keys [] (⟨normalizeOptions opts, ∅, e.dirs⟩ : Engine).shards := fun id s => by simp
  have hfound := found_foldl h.path h.plain (walkDir e.dirs (dataRoot e.opts.path)) hempty fun p hp =>
    ⟨h.dirs.mp (mem_walkDir.mp hp).1, (mem_walkDir.mp hp).2⟩
  rw [← hopen] at hopts' hdirs hfound
  have hpath' : (openEngine opts e.dirs).opts.path = e.opts.path := by rw [hopts', hpath]
  refine ⟨by rw [hpath']; exact h.path, h.plain, fun {id s} => ?_, fun {p} => ?_⟩
  · rw [hpath', hfound]
    constructor
    · rintro ⟨k, hk, -, hid, hs⟩
      exact ⟨k, hk, hid, hs⟩
    · rintro ⟨k, hk, hid, hs⟩
      refine ⟨k, hk, mem_walkDir.mpr ⟨h.dirs.mpr ⟨k, hk, ?_⟩, ?_⟩, hid, hs⟩
      · exact FilePath.Below.refl _
      · exact below_dataRoot h.path (h.plain k hk)
  · rw [hpath', hdirs]
    exact h.dirs

theorem Tracks.write (h : Tracks keys e) (hk : PlainKey k)
    (hroute : shardForStartLocked accepts e k = some (shard, e')) :
    shard = shardID k ∧ e'.opts = e.opts ∧ Tracks (k :: keys) e' := by
  have hplain : ∀ k' ∈ k :: keys, PlainKey k' := forall_mem_cons.mpr ⟨hk, h.plain⟩
  rw [shardForStartLocked] at hroute
  split at hroute
  · next s hs =>
    cases hroute
    obtain ⟨k', hk', hid, -⟩ := h.shards.mp hs
    obtain rfl := shardID_inj hk (h.plain k' hk') hid
    have hmem : ∀ x, x ∈ k :: keys ↔ x ∈ keys := fun x =>
      ⟨fun hx => (mem_cons.mp hx).elim (fun heq => heq ▸ hk') id, mem_cons_of_mem _⟩
    refine ⟨rfl, rfl, h.path, hplain, ?_, ?_⟩
    · simp only [hmem]
      exact h.shards
    · simp only [hmem]
      exact h.dirs
  · next hnone =>
    dsimp only at hroute
    split at hroute
    · cases hroute
      refine ⟨rfl, rfl, h.path, hplain, fun {id s} => ?_, fun {p} => ?_⟩
      · have hnew : ∀ {s'}, e.shards.get? (shardID k) = some s' → s' = ⟨shardDir e.opts.path k, k⟩ := by
          intro s' hs'
          rw [hnone] at hs'
          cases hs'
        rw [GoMap.get?_set_eq_some hnew, h.shards]
        simp
      · change p ∈ e.dirs ++ _ ↔ _
        rw [mem_append, h.dirs, FilePath.mem_ancestors]
        simp only [mem_cons, exists_eq_or_imp]
        exact or_comm
    · cases hroute

def PlainRun (accepts : FilePath → Bool) : List Action → Engine → Prop
  | [], _ => True
  | .write w :: actions, e =>
    PlainKey (w.key e.opts) ∧
      match shardForStartLocked accepts e (w.key e.opts) with
      | some (_, e') => PlainRun accepts actions e'
      | none => PlainRun accepts actions e
  | .reopen database policy duration :: actions, e =>
    PlainRun accepts actions (openEngine ⟨e.opts.path, database, policy, duration⟩ e.dirs)

instance decidablePlainRun (accepts : FilePath → Bool) :
    (actions : List Action) → (e : Engine) → Decidable (PlainRun accepts actions e)
  | [], _ => inferInstanceAs (Decidable True)
  | .write _ :: actions, _ => by
    have := decidablePlainRun accepts actions
    unfold PlainRun
    split <;> infer_instance
  | .reopen .. :: actions, e => decidablePlainRun accepts actions _

theorem Tracks.run (h : Tracks keys e) (hplain : PlainRun accepts actions e) :
    Tracks ((Routing.run accepts actions e).1.reverse.map Routed.key ++ keys) (Routing.run accepts actions e).2 ∧
      ∀ x ∈ (Routing.run accepts actions e).1, x.shard = shardID x.key := by
  induction actions generalizing keys e with
  | nil => exact ⟨h, by simp [Routing.run]⟩
  | cons action actions ih =>
    cases action with
    | write w =>
      obtain ⟨hkey, hplain⟩ := hplain
      rw [Routing.run]
      cases hroute : shardForStartLocked accepts e (w.key e.opts) with
      | none =>
        rw [hroute] at hplain
        exact ih h hplain
      | some r =>
        rw [hroute] at hplain
        obtain ⟨hshard, -, htracks⟩ := h.write hkey hroute
        obtain ⟨htracks', hrest⟩ := ih htracks hplain
        refine ⟨?_, forall_mem_cons.mpr ⟨hshard, hrest⟩⟩
        simpa using htracks'
    | reopen database policy duration => exact ih (h.reopen rfl) hplain

end Run

/-- Every run from an empty directory whose points have plain names places its shards as expected. -/
theorem placement_run (accepts : FilePath → Bool) (opts : EngineOptions) (hpath : opts.path ≠ [])
    (actions : List Action) (hplain : PlainRun accepts actions (openEngine opts [])) :
    Placement (run accepts actions (openEngine opts [])).1 (run accepts actions (openEngine opts [])).2 := by
  have hstart : Tracks [] (openEngine opts []) := ⟨hpath, by simp, by simp [openEngine, loadExistingShards, walkDir], by
    simp [openEngine, loadExistingShards, walkDir]⟩
  obtain ⟨h, hshard⟩ := hstart.run hplain
  generalize run accepts actions (openEngine opts []) = result at h hshard
  have hmem : ∀ {k}, k ∈ result.1.reverse.map Routed.key ++ [] ↔ ∃ x ∈ result.1, x.key = k := by simp
  have hkey : ∀ x ∈ result.1, PlainKey x.key := fun x hx => h.plain _ (hmem.mpr ⟨x, hx, rfl⟩)
  refine ⟨fun x hx y hy => ?_, fun x hx => ?_, fun {id s} hs => ?_, fun {id id' s s'} hs hs' hdir => ?_,
    fun {id s} hs => ?_⟩
  · rw [hshard x hx, hshard y hy]
    exact ⟨shardID_inj (hkey x hx) (hkey y hy), congrArg shardID⟩
  · exact ⟨_, h.shards.mpr ⟨x.key, hmem.mpr ⟨x, hx, rfl⟩, hshard x hx, rfl⟩⟩
  · obtain ⟨k, hk, rfl, rfl⟩ := h.shards.mp hs
    obtain ⟨x, hx, rfl⟩ := hmem.mp hk
    exact ⟨x, hx, hshard x hx, rfl⟩
  · obtain ⟨k, hk, rfl, rfl⟩ := h.shards.mp hs
    obtain ⟨k', hk', rfl, rfl⟩ := h.shards.mp hs'
    rw [shardDir_inj h.path (h.plain k hk) (h.plain k' hk') hdir]
  · obtain ⟨k, hk, rfl, rfl⟩ := h.shards.mp hs
    refine ⟨below_dataRoot h.path (h.plain k hk), fun heq => ?_⟩
    have hlength := congrArg (fun p => p.names.length) heq
    simp only [shardDir_eq h.path (h.plain k hk), length_cons] at hlength
    omega

def sampleOptions : EngineOptions := ⟨[47, 100], [], [], 0⟩

/-- The database `a/b` with the policy `c`, the database `a` with the policy `b/c`, and `..` for both. -/
def slashWrites : List Action :=
  [.write ⟨[97, 47, 98], [99], 0⟩, .write ⟨[97], [98, 47, 99], 0⟩, .write ⟨[46, 46], [46, 46], 0⟩]

/-- Two keys in one shard, a shard outside of the data root, and one that comes back under another key. -/
theorem names_with_separators_collide :
    (∃ x ∈ (run (fun _ => true) slashWrites (openEngine sampleOptions [])).1,
      ∃ y ∈ (run (fun _ => true) slashWrites (openEngine sampleOptions [])).1, x.shard = y.shard ∧ x.key ≠ y.key) ∧
    (∃ s ∈ (run (fun _ => true) slashWrites (openEngine sampleOptions [])).2.shards.values,
      ¬ s.dir.Below (dataRoot sampleOptions.path)) ∧
    ∃ s ∈ (run (fun _ => true) (slashWrites ++ [.reopen [] [] 0]) (openEngine sampleOptions [])).2.shards.values,
      ∀ x ∈ (run (fun _ => true) (slashWrites ++ [.reopen [] [] 0]) (openEngine sampleOptions [])).1,
        x.key ≠ s.key := by
  decide +kernel

/-- Points before and after the epoch with the default names, another database, and shorter shards later. -/
def plainActions : List Action :=
  [.write ⟨[], [], -1⟩, .write ⟨[100, 98], [112], 7200000000000⟩, .reopen [] [] 60000000000, .write ⟨[], [], 90000000000⟩]

theorem placement_plainActions :
    PlainRun (fun _ => true) plainActions (openEngine sampleOptions []) ∧
      Placement (run (fun _ => true) plainActions (openEngine sampleOptions [])).1
        (run (fun _ => true) plainActions (openEngine sampleOptions [])).2 := by
  have hplain : PlainRun (fun _ => true) plainActions (openEngine sampleOptions []) := by decide +kernel
  exact ⟨hplain, placement_run (fun _ => true) sampleOptions (by decide) plainActions hplain⟩

end Mts.Engine.Routing
