/-
  GluaLs.Cache.Keyed — which references are keyed by where their walks start
  (`semantic/cache/mod.rs`).

  A walk of an index reference may start from a given origin, and a walk of the implicit `self`
  from a seed.  The cache keeps both, and beside them the context keys of the references this
  concerns (`keyed`): a memo is reused only where they are as they were.  Each operation
  changes the list along with the maps.

  What is replaced is put back later, in order (`Frame`).  Between the two the cache may be
  cleared, and then an origin is put back where there is none: it is kept without its key.
-/
import Mathlib.Data.List.Perm.Basic
import GluaLs.Lib.FiniteMap
import GluaLs.Lib.LabelledRuns

namespace GluaLs.Cache.Keyed

open GluaLs.Lib
open GluaLs.Lib.LabelledRuns

/-! ## §1. The cache -/

/-- References, what they are keyed by, and what the cache only copies. -/
structure KeyedTypes where
  VarRefId : Type
  VarRefCacheKey : Type
  LuaDeclId : Type
  LuaType : Type
  CacheEntry : Type
  ScopeMark : Type
  CacheOptions : Type
  /-- `VarRefCacheKey::from` -/
  cacheKey : VarRefId → VarRefCacheKey
  getDeclIdRef : VarRefId → Option LuaDeclId
  flowContextKey : VarRefCacheKey → UInt64
  selfDeclContextKey : LuaDeclId → UInt64
  [decKey : DecidableEq VarRefCacheKey]
  [defaultMark : Inhabited ScopeMark]

attribute [instance] KeyedTypes.decKey KeyedTypes.defaultMark

structure SelfSeed (T : KeyedTypes) where
  seed : Option (T.VarRefId × T.LuaType)
  mark : T.ScopeMark

structure LuaInferCache (T : KeyedTypes) where
  config : T.CacheOptions
  indexRefOriginTypeCache : HashMap T.VarRefCacheKey (T.CacheEntry × T.ScopeMark)
  keyed : List UInt64
  selfBaseSeed : Option (T.VarRefId × T.LuaType)
  selfBaseSeedMark : T.ScopeMark

variable {T : KeyedTypes}

/-- The body of the loop of `unkey`. -/
def unkeyOne (keyed : List UInt64) (key : UInt64) : List UInt64 :=
  match keyed.idxOf? key with
  | some at' => swapRemove keyed at'
  | none => keyed

/-- The context keys a seed for `varRefId` answers: the reference, and its declaration. -/
def seedKeys (varRefId : T.VarRefId) : List UInt64 :=
  T.flowContextKey (T.cacheKey varRefId) ::
    ((T.getDeclIdRef varRefId).map T.selfDeclContextKey).toList

def seedKeysOf (seed : Option (T.VarRefId × T.LuaType)) : List UInt64 :=
  (seed.map fun seed => seedKeys seed.1).getD []

namespace LuaInferCache

def new (config : T.CacheOptions) : LuaInferCache T := ⟨config, ∅, [], none, default⟩

def forkFresh (c : LuaInferCache T) : LuaInferCache T :=
  { new c.config with
    selfBaseSeed := c.selfBaseSeed
    selfBaseSeedMark := c.selfBaseSeedMark
    indexRefOriginTypeCache := c.indexRefOriginTypeCache
    keyed := c.keyed }

def key (c : LuaInferCache T) (keys : List UInt64) : LuaInferCache T :=
  { c with keyed := c.keyed ++ keys }

def unkey (c : LuaInferCache T) (keys : List UInt64) : LuaInferCache T :=
  { c with keyed := keys.foldl unkeyOne c.keyed }

/-- The seed before, and the cache; `mark` is `derivation::scope_mark()`. -/
def seedSelf (c : LuaInferCache T) (mark : T.ScopeMark) (varRefId : T.VarRefId)
    (seed : T.LuaType) : SelfSeed T × LuaInferCache T :=
  let previous : SelfSeed T := ⟨c.selfBaseSeed, c.selfBaseSeedMark⟩
  let c := { c with selfBaseSeed := none, selfBaseSeedMark := mark }
  let c := match previous.seed with
    | some (seeded, _) => c.unkey (seedKeys seeded)
    | none => c
  (previous, { c.key (seedKeys varRefId) with selfBaseSeed := some (varRefId, seed) })

def restoreSelfSeed (c : LuaInferCache T) (previous : SelfSeed T) : LuaInferCache T :=
  let c := match c.selfBaseSeed with
    | some (seeded, _) => { c with selfBaseSeed := none }.unkey (seedKeys seeded)
    | none => c
  let c := match previous.seed with
    | some (seeded, _) => c.key (seedKeys seeded)
    | none => c
  { c with selfBaseSeed := previous.seed, selfBaseSeedMark := previous.mark }

/-- The origin before, and the cache. -/
def replaceIndexRefOriginTypeCache (c : LuaInferCache T) (mark : T.ScopeMark)
    (varRefId : T.VarRefId) (entry : T.CacheEntry) :
    Option (T.CacheEntry × T.ScopeMark) × LuaInferCache T :=
  let cacheKey := T.cacheKey varRefId
  let previous := c.indexRefOriginTypeCache.lookup cacheKey
  let c := { c with
    indexRefOriginTypeCache := c.indexRefOriginTypeCache.insert cacheKey (entry, mark) }
  (previous, if previous.isNone then c.key [T.flowContextKey cacheKey] else c)

/-- As `replace_index_ref_origin_type_cache`, which tells the origin before. -/
def setIndexRefOriginTypeCache (c : LuaInferCache T) (mark : T.ScopeMark)
    (varRefId : T.VarRefId) (entry : T.CacheEntry) : LuaInferCache T :=
  (c.replaceIndexRefOriginTypeCache mark varRefId entry).2

def restoreIndexRefOriginTypeCache (c : LuaInferCache T) (varRefId : T.VarRefId)
    (previous : Option (T.CacheEntry × T.ScopeMark)) : LuaInferCache T :=
  let cacheKey := T.cacheKey varRefId
  match previous with
  | some previous =>
    { c with indexRefOriginTypeCache := c.indexRefOriginTypeCache.insert cacheKey previous }
  | none =>
    match c.indexRefOriginTypeCache.lookup cacheKey with
    | some _ =>
      { c with indexRefOriginTypeCache := c.indexRefOriginTypeCache.erase cacheKey }.unkey
        [T.flowContextKey cacheKey]
    | none => c

/-- The list is taken for the lookup, in a memo map, and put back. -/
def trackedGet (c : LuaInferCache T) : LuaInferCache T :=
  let keyed := c.keyed
  { { c with keyed := [] } with keyed := keyed }

def clear (c : LuaInferCache T) : LuaInferCache T :=
  { c with indexRefOriginTypeCache := ∅, keyed := [], selfBaseSeed := none }

/-- The context keys of the references with an origin, and of the seed. -/
def contextKeys (c : LuaInferCache T) : List UInt64 :=
  c.indexRefOriginTypeCache.keys.map T.flowContextKey ++ seedKeysOf c.selfBaseSeed

/-- `keyed` holds them, each as often as it occurs. -/
def Tracked (c : LuaInferCache T) : Prop := c.keyed.Perm c.contextKeys

end LuaInferCache

/-! ## §2. Calls -/

/-- What is to be put back: a seed, an origin, or the options `with_config` replaced. -/
inductive Frame (T : KeyedTypes) where
  | seed (previous : SelfSeed T)
  | origin (varRefId : T.VarRefId) (previous : Option (T.CacheEntry × T.ScopeMark))
  | config (previous : T.CacheOptions)

inductive Call (T : KeyedTypes) where
  | seedSelf (mark : T.ScopeMark) (varRefId : T.VarRefId) (seed : T.LuaType)
  | setIndexRefOrigin (mark : T.ScopeMark) (varRefId : T.VarRefId) (entry : T.CacheEntry)
  | replaceIndexRefOrigin (mark : T.ScopeMark) (varRefId : T.VarRefId) (entry : T.CacheEntry)
  | withConfig (config : T.CacheOptions)
  /-- Puts back what was replaced last: `restore_self_seed`,
      `restore_index_ref_origin_type_cache` or the end of `with_config`. -/
  | restore
  | trackedGet
  | clear
  /-- Goes on with a fork; what is to be put back stays with the cache that was forked. -/
  | forkFresh

/-- A cache in use. -/
structure InUse (T : KeyedTypes) where
  cache : LuaInferCache T
  frames : List (Frame T)

def putBack (c : LuaInferCache T) : Frame T → LuaInferCache T
  | .seed previous => c.restoreSelfSeed previous
  | .origin varRefId previous => c.restoreIndexRefOriginTypeCache varRefId previous
  | .config previous => { c.clear with config := previous }

def step (s : InUse T) : Call T → Option (InUse T)
  | .seedSelf mark varRefId seed =>
    let (previous, cache) := s.cache.seedSelf mark varRefId seed
    some ⟨cache, .seed previous :: s.frames⟩
  | .setIndexRefOrigin mark varRefId entry =>
    some { s with cache := s.cache.setIndexRefOriginTypeCache mark varRefId entry }
  | .replaceIndexRefOrigin mark varRefId entry =>
    let (previous, cache) := s.cache.replaceIndexRefOriginTypeCache mark varRefId entry
    some ⟨cache, .origin varRefId previous :: s.frames⟩
  | .withConfig config =>
    some ⟨{ s.cache with config := config }.clear, .config s.cache.config :: s.frames⟩
  | .restore =>
    match s.frames with
    | frame :: frames => some ⟨putBack s.cache frame, frames⟩
    | [] => none
  | .trackedGet => some { s with cache := s.cache.trackedGet }
  | .clear => some { s with cache := s.cache.clear }
  | .forkFresh => some ⟨s.cache.forkFresh, []⟩

/-- An origin is put back where there is one. -/
def replacesOrigin (s : InUse T) : Call T → Bool
  | .restore =>
    match s.frames with
    | .origin varRefId (some _) :: _ =>
      (s.cache.indexRefOriginTypeCache.lookup (T.cacheKey varRefId)).isSome
    | _ => true
  | _ => true

/-! ## §3. Keys that go and come -/

theorem unkeyOne_perm (keyed : List UInt64) (key : UInt64) :
    (unkeyOne keyed key).Perm (keyed.erase key) := by
  unfold unkeyOne
  rw [List.erase_eq_eraseIdx]
  cases hat : keyed.idxOf? key with
  | none => exact .refl _
  | some at' =>
    obtain ⟨hlt, -⟩ := List.findIdx?_eq_some_iff_getElem.1 hat
    exact swapRemove_perm keyed at' hlt

/-- Taking keys off a list that holds them leaves the rest. -/
theorem unkey_perm (keys rest : List UInt64) : ∀ keyed : List UInt64,
    keyed.Perm (rest ++ keys) → (keys.foldl unkeyOne keyed).Perm rest := by
  induction keys with
  | nil =>
    intro keyed h
    rwa [List.append_nil] at h
  | cons key keys ih =>
    intro keyed h
    refine ih _ ((unkeyOne_perm keyed key).trans ?_)
    have hone := (h.trans List.perm_middle).erase key
    rwa [List.erase_cons_head] at hone

namespace LuaInferCache

variable {c : LuaInferCache T}

/-- A seed in place of another. -/
theorem Tracked.reseed (h : c.Tracked) (mark : T.ScopeMark)
    (seed : Option (T.VarRefId × T.LuaType)) (cache : LuaInferCache T)
    (horigins : cache.indexRefOriginTypeCache = c.indexRefOriginTypeCache)
    (hkeyed : cache.keyed = (seedKeysOf c.selfBaseSeed).foldl unkeyOne c.keyed ++
      seedKeysOf seed) :
    Tracked { cache with selfBaseSeed := seed, selfBaseSeedMark := mark } := by
  unfold Tracked contextKeys
  rw [hkeyed, horigins]
  exact (unkey_perm _ _ _ h).append_right _

theorem Tracked.seedSelf (h : c.Tracked) (mark : T.ScopeMark) (varRefId : T.VarRefId)
    (seed : T.LuaType) : (c.seedSelf mark varRefId seed).2.Tracked := by
  refine h.reseed mark (some (varRefId, seed))
    ((c.seedSelf mark varRefId seed).2) ?_ ?_ <;>
  · unfold LuaInferCache.seedSelf
    cases c.selfBaseSeed <;> rfl

theorem Tracked.restoreSelfSeed (h : c.Tracked) (previous : SelfSeed T) :
    (c.restoreSelfSeed previous).Tracked := by
  refine h.reseed previous.mark previous.seed (c.restoreSelfSeed previous) ?_ ?_ <;>
  · unfold LuaInferCache.restoreSelfSeed
    cases c.selfBaseSeed <;> cases previous.seed <;> simp [key, unkey, seedKeysOf]

/-- An origin where there was one brings no key, and one where there was none brings its own. -/
theorem keys_insert_perm (origins : HashMap T.VarRefCacheKey (T.CacheEntry × T.ScopeMark))
    (cacheKey : T.VarRefCacheKey) (origin : T.CacheEntry × T.ScopeMark) :
    ((origins.insert cacheKey origin).keys.map T.flowContextKey).Perm
      (origins.keys.map T.flowContextKey ++
        if (origins.lookup cacheKey).isNone then [T.flowContextKey cacheKey] else []) := by
  rw [AList.keys_insert]
  by_cases hkey : cacheKey ∈ origins.keys
  · have hsome := (mem_keys_iff origins cacheKey).1 hkey
    rw [if_neg (by simpa using hsome), List.append_nil]
    exact (List.perm_cons_erase hkey).symm.map _
  · have hnone : origins.lookup cacheKey = none := by
      by_contra hsome
      exact hkey ((mem_keys_iff origins cacheKey).2 hsome)
    rw [if_pos (by simp [hnone]), List.erase_of_not_mem hkey, List.map_cons]
    exact (List.perm_append_singleton _ _).symm

theorem Tracked.replace (h : c.Tracked) (mark : T.ScopeMark) (varRefId : T.VarRefId)
    (entry : T.CacheEntry) :
    (c.replaceIndexRefOriginTypeCache mark varRefId entry).2.Tracked := by
  have hkeys := keys_insert_perm c.indexRefOriginTypeCache (T.cacheKey varRefId) (entry, mark)
  unfold replaceIndexRefOriginTypeCache
  dsimp only
  split_ifs at hkeys ⊢
  · refine (h.append_right [T.flowContextKey (T.cacheKey varRefId)]).trans ?_
    refine .trans ?_ (hkeys.append_right _).symm
    unfold contextKeys
    rw [List.append_assoc, List.append_assoc]
    exact List.perm_append_comm.append_left _
  · rw [List.append_nil] at hkeys
    exact h.trans (hkeys.append_right _).symm

/-- **What is put back is tracked**, but for an origin where there is none. -/
theorem Tracked.putBack (h : c.Tracked) (frame : Frame T) (frames : List (Frame T)) :
    (Keyed.putBack c frame).Tracked ↔ replacesOrigin ⟨c, frame :: frames⟩ .restore = true := by
  cases frame with
  | seed previous => exact ⟨fun _ => rfl, fun _ => h.restoreSelfSeed previous⟩
  | config previous => exact ⟨fun _ => rfl, fun _ => .refl []⟩
  | origin varRefId previous =>
    cases previous with
    | none =>
      refine ⟨fun _ => rfl, fun _ => ?_⟩
      show (c.restoreIndexRefOriginTypeCache varRefId none).Tracked
      unfold restoreIndexRefOriginTypeCache
      dsimp only
      cases hlookup : c.indexRefOriginTypeCache.lookup (T.cacheKey varRefId) with
      | none => exact h
      | some origin =>
        have hmem := (mem_keys_iff c.indexRefOriginTypeCache (T.cacheKey varRefId)).2
          (by rw [hlookup]; exact Option.some_ne_none origin)
        refine unkey_perm [T.flowContextKey (T.cacheKey varRefId)] _ _ (h.trans ?_)
        refine .trans ?_ (List.perm_append_singleton _ _).symm
        have hkeys := (List.perm_cons_erase hmem).map T.flowContextKey
        rw [← AList.keys_erase] at hkeys
        exact hkeys.append_right _
    | some previous =>
      have hkeys := keys_insert_perm c.indexRefOriginTypeCache (T.cacheKey varRefId) previous
      show c.keyed.Perm ((c.indexRefOriginTypeCache.insert (T.cacheKey varRefId)
        previous).keys.map T.flowContextKey ++ seedKeysOf c.selfBaseSeed) ↔
          (c.indexRefOriginTypeCache.lookup (T.cacheKey varRefId)).isSome = true
      cases hlookup : c.indexRefOriginTypeCache.lookup (T.cacheKey varRefId) with
      | some origin =>
        rw [hlookup, if_neg (by simp), List.append_nil] at hkeys
        exact ⟨fun _ => rfl, fun _ => h.trans (hkeys.append_right _).symm⟩
      | none =>
        -- the origins have a key more than the list
        refine ⟨fun hperm => ?_, fun hsome => absurd hsome (by simp)⟩
        rw [hlookup, if_pos (by simp)] at hkeys
        have hlong := ((hperm.symm.trans h).symm.trans (hkeys.append_right _)).length_eq
        simp [contextKeys] at hlong

end LuaInferCache

/-- **The list of keys is exact in every state of a run just where each origin that is put back
    finds one.** -/
theorem keyed_exact_iff (config : T.CacheOptions) (calls : List (Call T))
    (hrun : ∃ last, run step calls ⟨LuaInferCache.new config, []⟩ = some last) :
    EveryState step (fun s => s.cache.Tracked) calls ⟨LuaInferCache.new config, []⟩ ↔
      everyStep step replacesOrigin calls ⟨LuaInferCache.new config, []⟩ = true := by
  refine everyState_iff_everyStep (fun _ => True) _ replacesOrigin (fun _ _ _ _ _ => trivial) ?_
    calls _ trivial (.refl []) hrun
  rintro ⟨c, frames⟩ call s' - h hstep
  cases call with
  | restore =>
    cases frames with
    | nil => cases hstep
    | cons frame frames =>
      cases hstep
      exact h.putBack frame frames
  | seedSelf mark varRefId seed =>
    cases hstep
    exact ⟨fun _ => rfl, fun _ => h.seedSelf mark varRefId seed⟩
  | setIndexRefOrigin mark varRefId entry | replaceIndexRefOrigin mark varRefId entry =>
    cases hstep
    exact ⟨fun _ => rfl, fun _ => h.replace mark varRefId entry⟩
  | withConfig _ | clear =>
    cases hstep
    exact ⟨fun _ => rfl, fun _ => .refl []⟩
  | trackedGet | forkFresh =>
    cases hstep
    exact ⟨fun _ => rfl, fun _ => h⟩

section

/-- References that are numbers, each its own key. -/
abbrev numbered : KeyedTypes where
  VarRefId := Nat
  VarRefCacheKey := Nat
  LuaDeclId := Nat
  LuaType := Unit
  CacheEntry := Unit
  ScopeMark := Unit
  CacheOptions := Unit
  cacheKey := id
  getDeclIdRef varRefId := some varRefId
  flowContextKey := UInt64.ofNat
  selfDeclContextKey _ := 0

/-- A seed and an origin, put back with nothing cleared. -/
theorem keyed_exact_iff_nested :
    EveryState step (fun s => s.cache.Tracked)
      [.setIndexRefOrigin () (1 : Nat) (), .seedSelf () (2 : Nat) (),
        .replaceIndexRefOrigin () (1 : Nat) (), .restore, .restore]
      (⟨LuaInferCache.new (), []⟩ : InUse numbered) :=
  (keyed_exact_iff (T := numbered) () _ ⟨_, rfl⟩).2 rfl

/-- An origin is replaced, the cache cleared, and the origin put back: it has no key. -/
theorem origin_without_key :
    ∃ s, run step
        [.setIndexRefOrigin () (1 : Nat) (), .replaceIndexRefOrigin () (1 : Nat) (), .clear,
          .restore] (⟨LuaInferCache.new (), []⟩ : InUse numbered) = some s ∧
      s.cache.keyed = [] ∧ s.cache.contextKeys = [1] ∧ ¬ s.cache.Tracked := by
  refine ⟨_, rfl, rfl, rfl, fun hperm => ?_⟩
  exact absurd hperm.length_eq (by decide)

end

end GluaLs.Cache.Keyed
