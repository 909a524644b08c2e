/-
  GluaLs.CowShards.Def — the copy-on-write sharded map (`db_index/cow_shards.rs`).

  A `CowShards` value holds POINTERS: one to its slot table, whose slots point to shards,
  and one for each shard in its `dirty` overlay.  The contents live in a heap shared by all
  values, so a write in place through a pointer would be seen by everybody holding it.
  `Arc::get_mut` and `Arc::make_mut` write in place only when no other `Arc` points to the
  allocation; `World.arcs` lists every live `Arc` to a shard with the place that holds it,
  and `World.sole` is that test.

  A `World` is the program's state: the two heaps, the live maps by name, and the `Arc`s held
  outside any map (by the locals of a running install and by the drop thread).  Each method
  of the source is a function of the world and of the name of the map it is called on.
-/
import Mathlib.Tactic
import GluaLs.Lib.FiniteMap
import GluaLs.Lib.Heap
import GluaLs.Vfs.FileId

namespace GluaLs.Cow

/-! ## §1. Which shard owns a key

  A file-owned key lives in its file's shard, a workspace-owned key in one of `PAGES` hash
  pages.  A map whose keys are all file-owned has no pages in front of its file shards.
-/

/-- The number of hash pages workspace-owned keys are spread over. -/
def PAGES : Nat := 4096

/-- The slot table grows in steps of this many slots. -/
def SLOT_CHUNK : Nat := 256

/-- Which shard owns a key. -/
inductive ShardOwner where
  | file (fileId : FileId)
  | workspace
  deriving DecidableEq, Repr

/-- A key of a sharded map.  `hashOne` is the key's hash under the maps' hasher; a key type
    that is not `paged` has no workspace-owned key. -/
class ShardKey (K : Type) where
  paged : Bool
  shardOwner : K → ShardOwner
  hashOne : K → UInt64
  paged_of_workspace : ∀ k, shardOwner k = .workspace → paged = true

instance : ShardKey FileId where
  paged := false
  shardOwner := fun f => .file f
  hashOne := fun f => f.id.toUInt64
  paged_of_workspace := by
    intro k h
    cases h

/-- `(FileId, TextSize)`. -/
instance : ShardKey (FileId × Nat) where
  paged := false
  shardOwner := fun key => .file key.1
  hashOne := fun key => key.1.id.toUInt64
  paged_of_workspace := by
    intro k h
    cases h

section

variable (K : Type) [ShardKey K]

/-- The slot of a file's shard. -/
def fileSlot (fileId : FileId) : Nat :=
  let pages := if ShardKey.paged K then PAGES else 0
  pages + fileId.id.toNat

variable {K}

/-- The slot of a key's shard: a page comes from the bits of the hash between those that pick
    a bucket and those of the control byte. -/
def slotOf (key : K) : Nat :=
  match ShardKey.shardOwner key with
  | .file fileId => fileSlot K fileId
  | .workspace => (ShardKey.hashOne key >>> 40).toNat % PAGES

/-- The `u32` a slot is filed under in `dirty` names one slot only. -/
def SlotFits (key : K) : Prop := slotOf key < 2 ^ 32

instance (key : K) : Decidable (SlotFits key) := inferInstanceAs (Decidable (_ < _))

/-- A key sits in a file's slot exactly when the file owns it. -/
theorem slotOf_eq_fileSlot (key : K) (f : FileId) :
    slotOf key = fileSlot K f ↔ ShardKey.shardOwner key = .file f := by
  unfold slotOf
  cases howner : ShardKey.shardOwner key with
  | file g =>
    show fileSlot K g = fileSlot K f ↔ _
    unfold fileSlot
    constructor
    · intro h
      have hid : g.id.toNat = f.id.toNat := Nat.add_left_cancel h
      have hg : g = f := by
        cases g; cases f
        congr
        exact UInt32.toNat_inj.1 hid
      rw [hg]
    · intro h
      cases h
      rfl
  | workspace =>
    -- the pages lie in front of every file slot
    have hpaged : ShardKey.paged K = true := ShardKey.paged_of_workspace key howner
    have hlt : (ShardKey.hashOne key >>> 40).toNat % PAGES < PAGES :=
      Nat.mod_lt _ (by decide)
    show (ShardKey.hashOne key >>> 40).toNat % PAGES = fileSlot K f ↔ _
    unfold fileSlot
    rw [hpaged]
    simp only [if_true, reduceCtorEq, iff_false]
    omega

end

open GluaLs.Lib

/-! ## §2. Maps and the world -/

/-- A shard: the entries of one slot. -/
abbrev Shard (K V : Type) : Type := HashMap K V

/-- A map split into copy-on-write shards, as the pointers it holds. -/
structure CowShards where
  slots : Ptr
  dirty : HashMap UInt32 Ptr
  forked : Bool

/-- Where an `Arc` to a shard is held. -/
inductive Place where
  /-- The overlay of map `n`, under key `d`. -/
  | dirty (n : Nat) (d : UInt32)
  /-- Slot `i` of table `t`. -/
  | slot (t : Ptr) (i : Nat)
  /-- Outside any map. -/
  | loose (i : Nat)
  deriving DecidableEq

/-- The program's state. -/
structure World (K V : Type) where
  tables : Heap (List (Option Ptr))
  shards : Heap (Shard K V)
  maps : HashMap Nat CowShards
  loose : List Ptr

/-- A state with no map. -/
def World.init (K V : Type) : World K V where
  tables := ⟨fun _ => [], 0⟩
  shards := ⟨fun _ => ∅, 0⟩
  maps := ∅
  loose := []

namespace World

variable {K V : Type}

/-! ## §3. Pointers -/

/-- The map named `n`. -/
def cow (w : World K V) (n : Nat) : CowShards :=
  (w.maps.lookup n).getD ⟨0, ∅, false⟩

/-- The slot table of map `n`. -/
def table (w : World K V) (n : Nat) : List (Option Ptr) :=
  w.tables.mem (w.cow n).slots

/-- Every live `Arc` to a shard, with the place that holds it. -/
def arcs (w : World K V) : List (Place × Ptr) :=
  w.maps.entries.flatMap (fun e => e.2.dirty.entries.map fun d => (.dirty e.1 d.1, d.2)) ++
  w.maps.entries.flatMap (fun e => (w.tables.mem e.2.slots).zipIdx.filterMap fun s =>
    s.1.map fun p => (.slot e.2.slots s.2, p)) ++
  w.loose.zipIdx.map fun l => (.loose l.2, l.1)

/-- Whether no `Arc` to `p` is held elsewhere than at `place`. -/
def sole (w : World K V) (place : Place) (p : Ptr) : Bool :=
  w.arcs.all fun a => a.2 != p || a.1 == place

/-- Whether no live map's `Arc` to `p` exists at all: `p` is held by a local alone. -/
def unheld (w : World K V) (p : Ptr) : Bool :=
  w.arcs.all fun a => a.2 != p

/-- Whether map `n` alone holds its slot table: `Arc::get_mut` of the table succeeds. -/
def soleTable (w : World K V) (n : Nat) : Bool :=
  w.maps.entries.all fun e => e.2.slots != (w.cow n).slots || e.1 == n

/-- Replaces the map named `n`. -/
def put (w : World K V) (n : Nat) (c : CowShards) : World K V :=
  { w with maps := w.maps.insert n c }

/-- Points `dirty[d]` of map `n` at `p`. -/
def setDirty (w : World K V) (n : Nat) (d : UInt32) (p : Ptr) : World K V :=
  w.put n { w.cow n with dirty := (w.cow n).dirty.insert d p }

/-- Removes `dirty[d]` of map `n`. -/
def eraseDirty (w : World K V) (n : Nat) (d : UInt32) : World K V :=
  w.put n { w.cow n with dirty := (w.cow n).dirty.erase d }

/-- Gives map `n` a slot table of its own holding `slots`. -/
def newTable (w : World K V) (n : Nat) (slots : List (Option Ptr)) : World K V :=
  { w with
    tables := w.tables.alloc slots
    maps := w.maps.insert n { w.cow n with slots := w.tables.next } }

/-- Overwrites slot `at` of map `n`'s table in place. -/
def setSlot (w : World K V) (n at_ : Nat) (shard : Option Ptr) : World K V :=
  { w with tables := w.tables.write (w.cow n).slots ((w.table n).set at_ shard) }

/-- A new shard `Arc`. -/
def newShard (w : World K V) (s : Shard K V) : World K V × Ptr :=
  ({ w with shards := w.shards.alloc s }, w.shards.next)

/-- Overwrites the shard `p` in place. -/
def writeShard (w : World K V) (p : Ptr) (s : Shard K V) : World K V :=
  { w with shards := w.shards.write p s }

/-- Keeps `ps` alive outside any map. -/
def hold (w : World K V) (ps : List Ptr) : World K V :=
  { w with loose := w.loose ++ ps }

/-- Lets go of an `Arc` held outside any map. -/
def letGo (w : World K V) (p : Option Ptr) : World K V :=
  { w with loose := p.elim w.loose w.loose.erase }

/-- Drops the map named `n`. -/
def dropMap (w : World K V) (n : Nat) : World K V :=
  { w with maps := w.maps.erase n }

/-! ## §4. Reading -/

def shard (w : World K V) (n at_ : Nat) : Option (Shard K V) :=
  match if (w.cow n).dirty.entries.isEmpty then none
      else (w.cow n).dirty.lookup at_.toUInt32 with
  | some p => some (w.shards.mem p)
  | none => (w.table n)[at_]?.join.map w.shards.mem

def heldShard (w : World K V) (n at_ : Nat) : Option Ptr :=
  ((w.cow n).dirty.lookup at_.toUInt32).or (w.table n)[at_]?.join

/-- `CowShards::end`: one past the last slot that may hold a shard. -/
def slotEnd (w : World K V) (n : Nat) : Nat :=
  ((w.cow n).dirty.keys.map fun slot => slot.toNat + 1).foldl max (w.table n).length

/-- `CowShards::shards`. -/
def shardList (w : World K V) (n : Nat) : List (Shard K V) :=
  (List.range (w.slotEnd n)).filterMap (w.shard n)

def iter (w : World K V) (n : Nat) : List (Sigma fun _ : K => V) :=
  (w.shardList n).flatMap AList.entries

def isEmpty (w : World K V) (n : Nat) : Bool :=
  (w.shardList n).all fun s => s.entries.isEmpty

def len (w : World K V) (n : Nat) : Nat :=
  ((w.shardList n).map fun s => s.entries.length).sum

section

variable [ShardKey K]

def fileEntries (w : World K V) (n : Nat) (fileId : FileId) : List (Sigma fun _ : K => V) :=
  (w.shard n (fileSlot K fileId)).toList.flatMap AList.entries

variable [DecidableEq K]

def get (w : World K V) (n : Nat) (key : K) : Option V :=
  (w.shard n (slotOf key)).bind fun s => s.lookup key

def containsKey (w : World K V) (n : Nat) (key : K) : Bool :=
  (w.shard n (slotOf key)).any fun s => (s.lookup key).isSome

end

/-! ## §5. Whole-map operations -/

/-- `CowShards::default`. -/
def new (w : World K V) (n : Nat) : World K V :=
  { w with
    tables := w.tables.alloc []
    maps := w.maps.insert n ⟨w.tables.next, ∅, false⟩ }

/-- `CowShards::clone`, as map `m`. -/
def clone (w : World K V) (n m : Nat) : World K V :=
  w.put m (w.cow n)

/-- `CowShards::fork`, as map `m`. -/
def fork (w : World K V) (n m : Nat) : World K V :=
  w.put m { w.cow n with forked := true }

def clear (w : World K V) (n : Nat) : World K V :=
  let w := w.newTable n []
  w.put n { w.cow n with dirty := ∅ }

/-! ## §6. Writable shards -/

/-- The least multiple of `SLOT_CHUNK` that is at least `n` (`usize::next_multiple_of`). -/
def nextMultipleOfChunk (n : Nat) : Nat :=
  (n + (SLOT_CHUNK - 1)) / SLOT_CHUNK * SLOT_CHUNK

/-- `CowShards::slots_mut`: grows the table to hold `at` and makes it the map's own. -/
def slotsMut (w : World K V) (n at_ : Nat) : World K V :=
  let w :=
    if (w.table n).length ≤ at_ then
      let len := nextMultipleOfChunk (at_ + 1)
      w.newTable n (w.table n ++ List.replicate (len - (w.table n).length) none)
    else w
  if w.soleTable n then w else w.newTable n (w.table n)

/-- `Arc::make_mut` of the shard filed in `dirty[d]`. -/
def makeMutDirty (w : World K V) (n : Nat) (d : UInt32) (p : Ptr) : World K V × Ptr :=
  if w.sole (.dirty n d) p then (w, p)
  else
    let (w', q) := w.newShard (w.shards.mem p)
    (w'.setDirty n d q, q)

/-- The overlay's shard at `at` for writing: `dirty.entry(at).or_insert_with(..)`, taking the
    table's shard or an empty one, then `Arc::make_mut`. -/
def dirtyMut (w : World K V) (n at_ : Nat) : World K V × Ptr :=
  let d := at_.toUInt32
  match (w.cow n).dirty.lookup d with
  | some p => w.makeMutDirty n d p
  | none =>
    match (w.table n)[at_]?.join with
    | some p => (w.setDirty n d p).makeMutDirty n d p
    | none =>
      let (w, p) := w.newShard ∅
      (w.setDirty n d p).makeMutDirty n d p

/-- `Arc::make_mut` of the shard in slot `at` of map `n`'s own table. -/
def makeMutSlot (w : World K V) (n at_ : Nat) (p : Ptr) : World K V × Ptr :=
  if w.sole (.slot (w.cow n).slots at_) p then (w, p)
  else
    let (w', q) := w.newShard (w.shards.mem p)
    (w'.setSlot n at_ (some q), q)

/-- The table's shard at `at` for writing: `slots_mut(at)[at].get_or_insert_with(..)`, then
    `Arc::make_mut`. -/
def slotMut (w : World K V) (n at_ : Nat) : World K V × Ptr :=
  let w := w.slotsMut n at_
  match (w.table n)[at_]?.join with
  | some p => w.makeMutSlot n at_ p
  | none =>
    let (w, p) := w.newShard ∅
    (w.setSlot n at_ (some p)).makeMutSlot n at_ p

def shardMut (w : World K V) (n at_ : Nat) : World K V × Ptr :=
  if !(w.cow n).forked && ((w.cow n).dirty.lookup at_.toUInt32).isNone then w.slotMut n at_
  else w.dirtyMut n at_

/-- One step of `CowShards::fold_dirty`: the overlay's shard replaces the table's, an empty
    one is dropped. -/
def foldEntry (n : Nat) (st : World K V × List Ptr) (e : Sigma fun _ : UInt32 => Ptr) :
    World K V × List Ptr :=
  let at_ := e.1.toNat
  let shard := if (st.1.shards.mem e.2).entries.isEmpty then none else some e.2
  let w := st.1.slotsMut n at_
  let replaced := (w.table n)[at_]?.join
  (w.setSlot n at_ shard, st.2 ++ replaced.toList)

/-- `CowShards::fold_dirty`, with the shards the fold replaces. -/
def foldDirty (w : World K V) (n : Nat) : World K V × List Ptr :=
  if (w.cow n).forked || (w.cow n).dirty.entries.isEmpty then (w, [])
  else
    let dirty := (w.cow n).dirty.entries
    dirty.foldl (foldEntry n) (w.put n { w.cow n with dirty := ∅ }, [])

/-- `TaskFork::flatten`: what the fold replaces goes to the drop thread. -/
def flatten (w : World K V) (n : Nat) : World K V :=
  let (w, replaced) := w.foldDirty n
  w.hold replaced

/-- The slots that hold an entry. -/
def populated (w : World K V) (n : Nat) : List Nat :=
  (List.range (w.slotEnd n)).filter fun at_ => (w.shard n at_).any fun s => !s.entries.isEmpty

/-- The shards `Arc::get_mut` owns, with their slots. -/
def ownedShards (w : World K V) (n : Nat) : List (Nat × Ptr) :=
  if (w.cow n).forked then
    (w.cow n).dirty.entries.filterMap fun e =>
      if w.sole (.dirty n e.1) e.2 then some (e.1.toNat, e.2) else none
  else if w.soleTable n then
    (w.table n).zipIdx.filterMap fun s => s.1.bind fun p =>
      if w.sole (.slot (w.cow n).slots s.2) p then some (s.2, p) else none
  else []

/-- `CowShards::writable_shards`: makes every non-empty shard writable.  Returns the shards
    that can be written, in slot order; one `Arc::get_mut` does not own is left out. -/
def writableShards (w : World K V) (n : Nat) : World K V × List Ptr :=
  let w := (w.foldDirty n).1
  let w := (w.populated n).foldl (fun w at_ => (w.shardMut n at_).1) w
  (w, ((w.ownedShards n).insertionSort fun a b => a.1 ≤ b.1).map Prod.snd)

/-- Rewrites every entry of the writable shards. -/
def rewriteShards (w : World K V) (n : Nat) (f : K → V → Option V) : World K V :=
  let (w, shards) := w.writableShards n
  shards.foldl (fun w p => w.writeShard p ((w.shards.mem p).filterMapEntries f)) w

/-- A write of `f` through `CowShards::iter_mut`. -/
def iterMut (w : World K V) (n : Nat) (f : K → V → V) : World K V :=
  w.rewriteShards n fun k v => some (f k v)

/-- `CowShards::retain`: `keep` may write the value it is shown. -/
def retain (w : World K V) (n : Nat) (keep : K → V → Bool × V) : World K V :=
  w.rewriteShards n fun k v => if (keep k v).1 then some (keep k v).2 else none

/-! ## §7. Keyed writes -/

variable [DecidableEq K]

/-- Puts an optional value at a key. -/
def putValue (s : Shard K V) (key : K) (value : Option V) : Shard K V :=
  match value with
  | some value => s.insert key value
  | none => s.erase key

variable [ShardKey K]

/-- `CowShards::holding_shard_mut`: a fork copies the shard only when the key is there. -/
def holdingShardMut (w : World K V) (n : Nat) (key : K) : Option (World K V × Ptr) :=
  let at_ := slotOf key
  match w.shard n at_ with
  | none => none
  | some s =>
    if (w.cow n).forked && (s.lookup key).isNone then none
    else some (w.shardMut n at_)

/-- A write of `f` through `CowShards::get_mut`. -/
def getMut (w : World K V) (n : Nat) (key : K) (f : V → V) : World K V :=
  match w.holdingShardMut n key with
  | none => w
  | some (w, p) =>
    match (w.shards.mem p).lookup key with
    | none => w
    | some v => w.writeShard p ((w.shards.mem p).insert key (f v))

def insert (w : World K V) (n : Nat) (key : K) (value : V) : World K V :=
  let (w, p) := w.shardMut n (slotOf key)
  w.writeShard p ((w.shards.mem p).insert key value)

def remove (w : World K V) (n : Nat) (key : K) : World K V :=
  match w.holdingShardMut n key with
  | none => w
  | some (w, p) => w.writeShard p ((w.shards.mem p).erase key)

/-- A write of `f` through `CowShards::entry`: the entry, vacant or occupied, ends as `f` of
    what it was. -/
def entry (w : World K V) (n : Nat) (key : K) (f : Option V → Option V) : World K V :=
  let (w, p) := w.shardMut n (slotOf key)
  w.writeShard p (putValue (w.shards.mem p) key (f ((w.shards.mem p).lookup key)))

end World

end GluaLs.Cow
