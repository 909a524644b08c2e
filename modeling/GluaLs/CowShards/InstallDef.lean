/-
  GluaLs.CowShards.InstallDef — taking a fork's writes back (`db_index/cow_shards.rs`).

  `install` hands `self` what a fork changed since the map it was forked from.  It compares
  shards by POINTER first: one the fork shares with the frozen map is skipped, one `self`
  shares with it is taken whole, and only a shard all three hold apart is merged key by key.
  `install_all` takes several forks at once and regroups the work by shard.

  Names in the world: `a` is `self`, `z` is `frozen`, `b` is `fork`.  The fork is passed by
  value, so it is gone when the install returns.  The replaced `Arc`s go to the drop thread,
  which holds them (`World.loose`) until it gets to them.
-/
import Mathlib.Algebra.Group.Defs
import Mathlib.Data.Finset.Sort
import Mathlib.Data.List.Sort
import GluaLs.CowShards.Def

namespace GluaLs.Cow

open GluaLs.Lib

/-- Two tasks changed a value in ways no merge composes. -/
inductive Conflict where
  | conflict
  deriving DecidableEq

/-- `Merge<V>`: the value both changes leave, from the index's value, the value the fork found
    and the value it left.  `None` is an absent entry. -/
abbrev Merge (V : Type) : Type := Option V → Option V → Option V → Except Conflict (Option V)

def sameShard : Option Ptr → Option Ptr → Bool
  | some a, some b => a == b
  | none, none => true
  | _, _ => false

section

variable {K V : Type} [DecidableEq K]

/-! ## §1. Key by key -/

/-- `shard.and_then(|shard| shard.get(key))`. -/
def valueIn (shard : Option (Shard K V)) (key : K) : Option V :=
  shard.bind fun s => s.lookup key

-- values are compared by `PartialEq`: a value need not equal itself
variable [BEq V]

/-- `changed_entries`: the entries of `shard` that differ from `frozen`, with `none` for a key
    `shard` dropped. -/
def changedEntries (frozen shard : Option (Shard K V)) : List (K × Option V) :=
  ((shard.toList.flatMap AList.entries).filter fun e =>
    valueIn frozen e.1 != some e.2).map (fun e => (e.1, some e.2)) ++
  ((frozen.toList.flatMap AList.keys).filter fun k =>
    !shard.any fun s => (s.lookup k).isSome).map fun k => (k, none)

/-- The keys the merge loop visits: those the fork's shard holds otherwise than `was`, then
    those it dropped. -/
def changedIn (was : Option (Shard K V)) (forked : Shard K V) : List K :=
  (forked.entries.filter fun e => valueIn was e.1 != some e.2).map Sigma.fst ++
  (was.toList.flatMap AList.keys).filter fun k => !(forked.lookup k).isSome

/-- What the merge loop carries: the fork's shard, emptied as it goes, the shard it writes,
    and whether a key conflicted. -/
structure Merging (K V : Type) where
  forked : Shard K V
  target : Shard K V
  conflicted : Bool

/-- One key of the merge loop, the same in `install_with` and `install_shard`. -/
def mergeStep (merge : Option (Merge V)) (was : Option (Shard K V)) (st : Merging K V)
    (key : K) : Merging K V :=
  let before := valueIn was key
  let value := st.forked.lookup key
  let forked := st.forked.erase key
  let now := st.target.lookup key
  let identical := now == value
  if now == before then ⟨forked, World.putValue st.target key value, st.conflicted⟩
  else
    match merge with
    | some merge =>
      -- merged even when both wrote the same value: two tasks' equal sums are two changes
      let target := st.target.erase key
      match merge now before value with
      | .ok merged => ⟨forked, World.putValue target key merged, st.conflicted⟩
      | .error _ => ⟨forked, World.putValue target key value, st.conflicted || !identical⟩
    | none =>
      if identical then ⟨forked, st.target, st.conflicted⟩
      else ⟨forked, World.putValue st.target key value, true⟩

/-- The merge loop over one shard: the shard it leaves, and whether a key conflicted. -/
def mergeShard (merge : Option (Merge V)) (was : Option (Shard K V)) (forked target : Shard K V) :
    Shard K V × Bool :=
  let st := (changedIn was forked).foldl (mergeStep merge was) ⟨forked, target, false⟩
  (st.target, st.conflicted)

end

namespace World

variable {K V : Type}

/-! ## §2. Taking and placing shards -/

def takeSlot (w : World K V) (n at_ : Nat) : World K V × Option Ptr :=
  if w.soleTable n then (w.setSlot n at_ none, (w.table n)[at_]?.join)
  else (w, (w.table n)[at_]?.join)

def takeHeldShard (w : World K V) (n at_ : Nat) : World K V × Option Ptr :=
  match (w.cow n).dirty.lookup at_.toUInt32 with
  | some p => (w.eraseDirty n at_.toUInt32, some p)
  | none => w.takeSlot n at_

/-- `Option<Arc<Shard>>::unwrap_or_default`. -/
def unwrapOrDefault (w : World K V) : Option Ptr → World K V × Ptr
  | some p => (w, p)
  | none => w.newShard ∅

def writesApart (w : World K V) (n : Nat) : Bool :=
  (w.cow n).forked || !w.soleTable n

/-- `CowShards::place_shard`, with the shard it replaces. -/
def placeShard (w : World K V) (n at_ : Nat) (shard : Option Ptr) : World K V × Option Ptr :=
  let kept := (w.cow n).dirty.lookup at_.toUInt32
  if w.writesApart n then
    let (w, p) := w.unwrapOrDefault shard
    (w.setDirty n at_.toUInt32 p, kept)
  else
    let w := (w.eraseDirty n at_.toUInt32).slotsMut n at_
    (w.setSlot n at_ shard, ((w.table n)[at_]?.join).or kept)

def installShardMut (w : World K V) (n at_ : Nat) : World K V × Ptr :=
  if !w.writesApart n then w.shardMut n at_
  else w.dirtyMut n at_

/-- `CowShards::forked_slots`: the slots the fork `b` of `z` may have changed. -/
def forkedSlots (w : World K V) (z b : Nat) : List Nat :=
  if (w.cow b).slots == (w.cow z).slots then (w.cow b).dirty.keys.map UInt32.toNat
  else List.range (max (w.slotEnd z) (w.slotEnd b))

section

variable [DecidableEq K] [BEq V]

/-! ## §3. One fork -/

/-- One slot of `CowShards::install_with`. -/
def installSlot (merge : Option (Merge V)) (a z b : Nat) (st : World K V × Bool) (at_ : Nat) :
    World K V × Bool :=
  let w := st.1
  let was := w.heldShard z at_
  if sameShard was (w.heldShard b at_) then st
  else
    let (w, forked) := w.takeHeldShard b at_
    if sameShard was (w.heldShard a at_) then
      let (w, replaced) := w.placeShard a at_ forked
      (w.hold replaced.toList, st.2)
    else
      let was := was.map w.shards.mem
      let forked := (forked.map w.shards.mem).getD ∅
      let (w, p) := w.installShardMut a at_
      let (target, conflicted) := mergeShard merge was forked (w.shards.mem p)
      (w.writeShard p target, st.2 || conflicted)

/-- `CowShards::install_with`, and whether it conflicted. -/
def installWith (w : World K V) (a z b : Nat) (merge : Option (Merge V)) : World K V × Bool :=
  let (w, conflicted) := (w.forkedSlots z b).foldl (installSlot merge a z b) (w, false)
  (w.dropMap b, conflicted)

def install (w : World K V) (a z b : Nat) : World K V × Bool :=
  w.installWith a z b none

def changedKeys (w : World K V) (z b : Nat) : List K :=
  (w.forkedSlots z b).flatMap fun at_ =>
    (changedEntries ((w.heldShard z at_).map w.shards.mem)
      ((w.heldShard b at_).map w.shards.mem)).map Prod.fst

def bothChangedKeys [ShardKey K] (w : World K V) (a z b : Nat) : List K :=
  (w.changedKeys z b).filter fun key =>
    let now := w.get a key
    now != w.get z key && now != w.get b key

/-! ## §4. Several forks -/

/-- The forks' shards at one slot, with the forks' places, in the forks' order. -/
abbrev Forked : Type := List (Nat × Option Ptr)

/-- The forks one after another, as `install_all` runs them while it does not write apart. -/
def installEach (w : World K V) (a z : Nat) (forks : List (Nat × Nat)) (merge : Option (Merge V)) :
    World K V × List Nat :=
  forks.foldl (fun st fork =>
    let (w, conflicted) := st.1.installWith a z fork.2 merge
    (w, if conflicted then st.2 ++ [fork.1] else st.2)) (w, [])

/-- `by_shard.entry(at).or_default().push((place, fork.take_held_shard(at)))`, for a shard the
    fork does not share with `z`. -/
def takeForked (z : Nat) (place b : Nat) (st : World K V × HashMap Nat Forked) (at_ : Nat) :
    World K V × HashMap Nat Forked :=
  if sameShard (st.1.heldShard z at_) (st.1.heldShard b at_) then st
  else
    let (w, forked) := st.1.takeHeldShard b at_
    (w.hold forked.toList, st.2.insert at_ ((st.2.lookup at_).getD [] ++ [(place, forked)]))

/-- Takes the shards of one fork, which is dropped then. -/
def takeFork (z : Nat) (st : World K V × HashMap Nat Forked) (fork : Nat × Nat) :
    World K V × HashMap Nat Forked :=
  let (w, byShard) :=
    (st.1.forkedSlots z fork.2).foldl (takeForked z fork.1 fork.2) st
  (w.dropMap fork.2, byShard)

/-- What `install_shard` carries: the world, the shard held so far and the places that
    conflicted.  `held` is in a local, and no longer among the `Arc`s of the world. -/
structure Held (K V : Type) where
  world : World K V
  held : Option Ptr
  conflicted : List Nat

/-- `Arc::make_mut(held.get_or_insert_with(Default::default))` of a local. -/
def makeMutHeld (w : World K V) : Option Ptr → World K V × Ptr
  | some p => if w.unheld p then (w, p) else w.newShard (w.shards.mem p)
  | none => w.newShard ∅

/-- One fork's shard in `CowShards::install_shard`.  The fork's `Arc` is the local's no more
    once it was moved or unwrapped. -/
def installForked (merge : Option (Merge V)) (was : Option Ptr) (st : Held K V)
    (fork : Nat × Option Ptr) : Held K V :=
  let w := st.world.letGo fork.2
  if sameShard was st.held then
    let (w, p) := w.unwrapOrDefault fork.2
    ⟨w.hold st.held.toList, some p, st.conflicted⟩
  else
    let was := was.map w.shards.mem
    let forked := (fork.2.map w.shards.mem).getD ∅
    let (w, p) := w.makeMutHeld st.held
    let (target, conflicted) := mergeShard merge was forked (w.shards.mem p)
    ⟨w.writeShard p target, some p, if conflicted then st.conflicted ++ [fork.1] else st.conflicted⟩

/-- One shard of `CowShards::install_all`: `self`'s shard is taken out, `install_shard` runs
    over the forks' shards, and what it leaves is filed in `self`'s overlay.  No shard's
    install reads another's, so that the worker threads' order does not matter. -/
def installGroup (merge : Option (Merge V)) (a z : Nat) (st : World K V × List Nat)
    (group : Sigma fun _ : Nat => Forked) : World K V × List Nat :=
  let at_ := group.1
  let (w, held) := st.1.takeHeldShard a at_
  let left := group.2.foldl (installForked merge (w.heldShard z at_)) ⟨w, held, []⟩
  let (w, shard) := left.world.unwrapOrDefault left.held
  (w.setDirty a at_.toUInt32 shard, st.2 ++ left.conflicted)

/-- `CowShards::install_all`, and the places of the forks that conflicted. -/
def installAll (w : World K V) (a z : Nat) (forks : List (Nat × Nat)) (merge : Option (Merge V)) :
    World K V × List Nat :=
  if forks.length < 2 || !w.writesApart a then w.installEach a z forks merge
  else
    let (w, byShard) := forks.foldl (takeFork z) (w, ∅)
    let (w, conflicted) := byShard.entries.foldl (installGroup merge a z) (w, [])
    (w, (conflicted.insertionSort (· ≤ ·)).dedup)

end

end World

/-! ## §5. Sums

  `merge_sum` adds up what two tasks added, `merge_set` takes each task's own elements in and
  out, `merge_map` merges each key of a map by an inner merge.  All three make an emptied
  value absent (`prune`).  The traits `SetOf` and `MapOf` are classes here, with the laws a
  set and a map obey; a `BTreeSet` is a `Finset`, and a map a `Finmap`, both walked in the
  order of their elements.
-/

/-- `merge_sum`, over the wrapping integers. -/
def mergeSum {T : Type} [AddCommGroup T] [DecidableEq T] (current frozen fork : Option T) :
    Except Conflict (Option T) :=
  let value : Option T → T := fun value => value.getD 0
  let sum := value current + (value fork - value frozen)
  .ok (if sum ≠ 0 then some sum else none)

/-- `prune`: makes an emptied value absent. -/
def prune {T : Type} (merged : Option T) (isEmpty : T → Bool) : Option T :=
  if merged.any isEmpty then none else merged

/-! ## §6. Sets -/

/-- `SetOf`: a set that is merged element by element. -/
class SetOf (S : Type) where
  Element : Type
  default : S
  elements : S → List Element
  has : S → Element → Bool
  put : S → Element → S
  dropElement : S → Element → S
  isEmpty : S → Bool
  mem_elements : ∀ s e, e ∈ elements s ↔ has s e = true
  has_default : ∀ e, has default e = false
  has_put : ∀ s x e, has (put s x) e = true ↔ e = x ∨ has s e = true
  has_dropElement : ∀ s x e, has (dropElement s x) e = true ↔ e ≠ x ∧ has s e = true
  isEmpty_iff : ∀ s, isEmpty s = true ↔ ∀ e, has s e = false
  ext : ∀ s t, (∀ e, has s e = has t e) → s = t

/-- `BTreeSet<T>`. -/
instance {T : Type} [LinearOrder T] : SetOf (Finset T) where
  Element := T
  default := ∅
  elements s := s.sort (· ≤ ·)
  has s e := e ∈ s
  put s e := insert e s
  dropElement s e := s.erase e
  isEmpty s := s = ∅
  mem_elements s e := by simp
  has_default e := by simp
  has_put s x e := by simp
  has_dropElement s x e := by simp
  isEmpty_iff s := by simp [Finset.eq_empty_iff_forall_notMem]
  ext s t h := by
    ext e
    simpa using h e

/-- Whether a set that may be absent has an element. -/
def hadIn {S : Type} [SetOf S] (set : Option S) (element : SetOf.Element S) : Bool :=
  set.any fun set => SetOf.has set element

def mergeSet {S : Type} [SetOf S] (current frozen fork : Option S) : Except Conflict (Option S) :=
  let merged := current.getD SetOf.default
  let merged := (fork.toList.flatMap SetOf.elements).foldl (fun merged element =>
    if !hadIn frozen element then SetOf.put merged element else merged) merged
  let merged := (frozen.toList.flatMap SetOf.elements).foldl (fun merged element =>
    if !hadIn fork element then SetOf.dropElement merged element else merged) merged
  .ok (prune (some merged) SetOf.isEmpty)

/-! ## §7. Maps -/

/-- `MapOf`: a map that is merged key by key. -/
class MapOf (M : Type) where
  Key : Type
  Value : Type
  default : M
  keysOf : M → List Key
  entryOf : M → Key → Option Value
  putEntry : M → Key → Value → M
  dropEntry : M → Key → M
  isEmpty : M → Bool
  mem_keysOf : ∀ m k, k ∈ keysOf m ↔ entryOf m k ≠ none
  nodup_keysOf : ∀ m, (keysOf m).Nodup
  entryOf_default : ∀ k, entryOf default k = none
  entryOf_putEntry : ∀ m k v, entryOf (putEntry m k v) k = some v
  entryOf_putEntry_ne : ∀ m k v k', k' ≠ k → entryOf (putEntry m k v) k' = entryOf m k'
  entryOf_dropEntry : ∀ m k, entryOf (dropEntry m k) k = none
  entryOf_dropEntry_ne : ∀ m k k', k' ≠ k → entryOf (dropEntry m k) k' = entryOf m k'
  isEmpty_iff : ∀ m, isEmpty m = true ↔ ∀ k, entryOf m k = none
  ext : ∀ m m', (∀ k, entryOf m k = entryOf m' k) → m = m'

/-- `BTreeMap<K, V>`. -/
instance {K V : Type} [LinearOrder K] : MapOf (Finmap fun _ : K => V) where
  Key := K
  Value := V
  default := ∅
  keysOf m := m.keys.sort (· ≤ ·)
  entryOf m k := m.lookup k
  putEntry m k v := m.insert k v
  dropEntry m k := m.erase k
  isEmpty m := m.keys = ∅
  mem_keysOf m k := by
    rw [Finset.mem_sort, Finmap.mem_keys, ne_eq, Finmap.lookup_eq_none, not_not]
  nodup_keysOf m := Finset.sort_nodup _ _
  entryOf_default k := Finmap.lookup_empty k
  entryOf_putEntry m k v := Finmap.lookup_insert m
  entryOf_putEntry_ne m k v k' h := Finmap.lookup_insert_of_ne m h
  entryOf_dropEntry m k := Finmap.lookup_erase k m
  entryOf_dropEntry_ne m k k' h := Finmap.lookup_erase_ne h
  isEmpty_iff m := by
    rw [decide_eq_true_eq, Finset.eq_empty_iff_forall_notMem]
    refine forall_congr' fun k => ?_
    rw [Finmap.mem_keys, Finmap.lookup_eq_none]
  ext m m' h := Finmap.ext_lookup h

section

variable {M : Type} [MapOf M]

/-- The entry of a map that may be absent. -/
def entryIn (map : Option M) (key : MapOf.Key M) : Option (MapOf.Value M) :=
  map.bind fun map => MapOf.entryOf map key

variable [DecidableEq (MapOf.Value M)]

/-- The keys `merge_map` visits. -/
def changedOf (frozen fork : Option M) : List (MapOf.Key M) :=
  ((fork.toList.flatMap MapOf.keysOf).filter fun key => entryIn fork key ≠ entryIn frozen key) ++
  (frozen.toList.flatMap MapOf.keysOf).filter fun key => (entryIn fork key).isNone

/-- One key of `merge_map`. -/
def mergeEntry (inner : Merge (MapOf.Value M)) (frozen fork : Option M) (merged : M)
    (key : MapOf.Key M) : Except Conflict M :=
  let before := entryIn frozen key
  let value := entryIn fork key
  let now := MapOf.entryOf merged key
  if now = before then
    match value with
    | some value => .ok (MapOf.putEntry merged key value)
    | none => .ok (MapOf.dropEntry merged key)
  else
    let identical := now = value
    let merged := MapOf.dropEntry merged key
    match inner now before value with
    | .ok slot =>
      match slot with
      | some slot => .ok (MapOf.putEntry merged key slot)
      | none => .ok merged
    | .error e =>
      if identical then
        match value with
        | some value => .ok (MapOf.putEntry merged key value)
        | none => .ok merged
      else .error e

def mergeMap (inner : Merge (MapOf.Value M)) (current frozen fork : Option M) :
    Except Conflict (Option M) := do
  let merged := current.getD MapOf.default
  let merged ← (changedOf frozen fork).foldlM (mergeEntry inner frozen fork) merged
  return prune (some merged) MapOf.isEmpty

end

end GluaLs.Cow
