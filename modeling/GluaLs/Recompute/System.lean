/-
  GluaLs.Recompute.System — runs of a key table with the values behind it.

  Every change of a value comes with the call that says so: a write, or a window that opens.
  The values are those of the keys read out of none; the value of a key read out of another
  is a part of that one's.  A `Label` is one call:

    • `intern`, with a stamp later than every release and earlier than every open frame,
    • `release`, of a slot nothing refers to,
    • `write`, `open`, which give a key a new value, and `close`, whose `unchanged` accepts
      a key only when its value is the one it had when its window opened,
    • `openFrame`, `read`, `closeFrame`, and the `reuse` of a memo, which asks
      `Provenance::freshness` and replays the memo's reads when it is fresh.
-/
import Mathlib.Algebra.Order.Monoid.Unbundled.WithTop
import Mathlib.Logic.Function.Basic
import Mathlib.Order.Nat
import Mathlib.Order.WithBot
import GluaLs.Lib.FiniteMap
import GluaLs.Lib.LabelledRuns

namespace GluaLs.Recompute

open GluaLs.Lib

/-! ## §1. Facts

  A SLOT of the table names a key and carries the stamp its key was last written at.  A
  memo remembers the slots it read and the stamp its frame opened at: it is fresh while no
  slot was written since.  A key that is about to be computed again opens a WINDOW: it
  counts as written, and its old stamp is saved, to be put back if it comes out unchanged.
  Two kinds of windows exist, of one evaluation (`WINDOWED`) and of a loop of statements
  that settles again (`HELD`); they save their stamps apart.  Both also cover the keys READ
  OUT of the key.

    • `intern`, `releaseOne`,
    • `markWritten`, `openWindow`, `holdWindow`, `closeWindows`, `releaseHeld`,
    • `writtenSince`, `Memo.freshness`.

  Every definition follows `derivation/graph.rs`, and `Provenance::freshness` of
  `frames.rs`.  A saved stamp comes with the value the key had then, a GHOST.
-/

/-- What the table knows of its keys: `FactKey::base`, the key one is read out of, and the
    part of the base's value a key reads.  No base has a base. -/
structure Facts (K V : Type) where
  base : K → Option K
  base_base : ∀ key root, base key = some root → base root = none
  part : K → V → V

/-- The value of a key, given the values of the keys that are read out of none. -/
def Facts.value {K V : Type} (facts : Facts K V) (values : K → V) (key : K) : V :=
  match facts.base key with
  | some root => facts.part key (values root)
  | none => values key

/-! ## §2. The table -/

/-- The marks of a slot whose key is being computed again. -/
inductive Mark where
  | windowed
  | held
  deriving DecidableEq

/-- The other kind of window. -/
def Mark.other : Mark → Mark
  | .windowed => .held
  | .held => .windowed

theorem Mark.other_ne (mark : Mark) : mark.other ≠ mark := by
  cases mark <;> decide

/-- A stamp; the last of all is the one a freed slot reads as written at (`u64::MAX`). -/
abbrev Stamp := WithTop Nat

/-- `KeySlot`, as far as writes go.  A slot that was never allocated reads as a freed one. -/
structure KeySlot (K : Type) where
  key : Option K
  written : Stamp
  marked : Mark → Bool

/-- A saved stamp.  `value` is a GHOST: the value of the key when its window opened. -/
structure Saved (V : Type) where
  before : Stamp
  value : V
  deriving DecidableEq

/-- `KeyTable`.  `saved` holds the maps `windows` and `held`, by their mark. -/
structure KeyTable (K V : Type) where
  keys : Nat → KeySlot K
  size : Nat
  freeKeys : List Nat
  derived : HashMap Nat (List Nat)
  lastWritten : Nat
  saved : Mark → HashMap Nat (Saved V)

namespace KeyTable

variable {K V : Type} [DecidableEq K]

/-- `KeyTable::default` -/
def empty : KeyTable K V where
  keys _ := ⟨none, ⊤, fun _ => false⟩
  size := 0
  freeKeys := []
  derived := ∅
  lastWritten := 0
  saved _ := ∅

/-- `KeyTable::find` -/
def find (t : KeyTable K V) (key : K) : Option Nat :=
  (List.range t.size).find? fun slot => decide ((t.keys slot).key = some key)

/-- A slot and those of the keys read out of its key. -/
def family (t : KeyTable K V) (slot : Nat) : List Nat := slot :: (t.derived.lookup slot).getD []

/-- A free slot, or a new one. -/
def allocate (t : KeyTable K V) : Nat × KeyTable K V :=
  match t.freeKeys with
  | slot :: free => (slot, { t with freeKeys := free })
  | [] => (t.size, { t with size := t.size + 1 })

/-- The slot `key` takes in `intern_created`, without its base. -/
def place (t : KeyTable K V) (key : K) (now : Nat) : Nat × KeyTable K V :=
  let allocated := t.allocate
  (allocated.1, { allocated.2 with
      keys := Function.update allocated.2.keys allocated.1
        { allocated.2.keys allocated.1 with key := some key, written := now } })

/-- `intern` of a key with no base. -/
def internRoot (t : KeyTable K V) (key : K) (now : Nat) : Nat × KeyTable K V :=
  match t.find key with
  | some slot => (slot, t)
  | none => t.place key now

/-- `derived.entry(base).or_default().slots.push(slot)` -/
def listUnder (t : KeyTable K V) (root slot : Nat) : KeyTable K V :=
  { t with derived := t.derived.insert root ((t.derived.lookup root).getD [] ++ [slot]) }

/-- `intern`; a key read out of another also interns that one. -/
def intern (facts : Facts K V) (t : KeyTable K V) (key : K) (now : Nat) : KeyTable K V :=
  match t.find key with
  | some _ => t
  | none =>
    let placed := t.place key now
    match facts.base key with
    | some root =>
      let rooted := placed.2.internRoot root now
      rooted.2.listUnder rooted.1 placed.1
    | none => placed.2

/-- `release_one` of a slot that nothing refers to, and `drop_freed_derived` of its base. -/
def releaseOne (facts : Facts K V) (t : KeyTable K V) (slot : Nat) (now : Nat) : KeyTable K V :=
  match (t.keys slot).key with
  | none => t
  | some key =>
    { t with
      keys := Function.update t.keys slot ⟨none, ⊤, fun _ => false⟩
      saved := fun mark => (t.saved mark).erase slot
      lastWritten := now
      freeKeys := slot :: t.freeKeys
      derived :=
        match (facts.base key).bind t.find with
        | some root =>
          let left := ((t.derived.lookup root).getD []).erase slot
          if left = [] then t.derived.erase root else t.derived.insert root left
        | none => t.derived }

def markWritten (t : KeyTable K V) (key : K) (now : Nat) : KeyTable K V :=
  match t.find key with
  | none => t
  | some slot =>
    { t with
      lastWritten := max t.lastWritten now
      keys := (t.family slot).foldl
        (fun keys slot => Function.update keys slot { keys slot with written := now }) t.keys }

/-- The body of the loop of `open_window` and `hold_window`. -/
def openOne (mark : Mark) (now : Nat) (value : Nat → V)
    (opened : (Nat → KeySlot K) × HashMap Nat (Saved V)) (slot : Nat) :
    (Nat → KeySlot K) × HashMap Nat (Saved V) :=
  let entry := opened.1 slot
  (Function.update opened.1 slot
      { entry with written := now, marked := Function.update entry.marked mark true },
    match opened.2.lookup slot with
    | some _ => opened.2
    | none => opened.2.insert slot ⟨entry.written, value slot⟩)

/-- A window opens on `key` and on every key read out of it; `value` is what the keys in the
    slots hold. -/
def openIn (mark : Mark) (t : KeyTable K V) (key : K) (now : Nat) (value : Nat → V) :
    KeyTable K V :=
  match t.find key with
  | none => t
  | some slot =>
    let opened := (t.family slot).foldl (openOne mark now value) (t.keys, t.saved mark)
    { t with
      lastWritten := max t.lastWritten now
      keys := opened.1
      saved := Function.update t.saved mark opened.2 }

def openWindow (t : KeyTable K V) (key : K) (now : Nat) (value : Nat → V) : KeyTable K V :=
  t.openIn .windowed key now value

def holdWindow (t : KeyTable K V) (key : K) (now : Nat) (value : Nat → V) : KeyTable K V :=
  t.openIn .held key now value

/-- The body of their inner loop: the stamp of a key read out of the key is put back. -/
def putBackOne (saved : HashMap Nat (Saved V)) (keys : Nat → KeySlot K) (slot : Nat) :
    Nat → KeySlot K :=
  match saved.lookup slot with
  | some before => Function.update keys slot { keys slot with written := before.before }
  | none => keys

/-- The body of the loop of `close_windows` and `release_held`; `saved` are the windows as
    they were taken. -/
def closeOne (facts : Facts K V) (mark : Mark) (derived : HashMap Nat (List Nat))
    (saved : HashMap Nat (Saved V)) (unchanged : K → Bool) (keys : Nat → KeySlot K)
    (window : Sigma fun _ : Nat => Saved V) : Nat → KeySlot K :=
  let entry := keys window.1
  let keys := Function.update keys window.1
    { entry with marked := Function.update entry.marked mark false }
  match entry.key with
  | none => keys
  | some key =>
    if (facts.base key).isSome || !unchanged key then keys
    else
      ((derived.lookup window.1).getD []).foldl (putBackOne saved)
        (Function.update keys window.1 { keys window.1 with written := window.2.before })

/-- Every window of one kind closes. -/
def closeIn (facts : Facts K V) (mark : Mark) (t : KeyTable K V) (unchanged : K → Bool) :
    KeyTable K V :=
  { t with
    saved := Function.update t.saved mark ∅
    keys := (t.saved mark).entries.foldl
      (closeOne facts mark t.derived (t.saved mark) unchanged) t.keys }

def closeWindows (facts : Facts K V) (t : KeyTable K V) (unchanged : K → Bool) : KeyTable K V :=
  t.closeIn facts .windowed unchanged

def releaseHeld (facts : Facts K V) (t : KeyTable K V) (unchanged : K → Bool) : KeyTable K V :=
  t.closeIn facts .held unchanged

def taints (t : KeyTable K V) (slot : Nat) : Bool :=
  (t.keys slot).marked .windowed || (t.keys slot).marked .held

def writtenAfter (t : KeyTable K V) (stamp : Nat) : Bool := decide (t.lastWritten > stamp)

end KeyTable

/-! ## §3. Freshness -/

inductive Freshness where
  | unwritten
  | recomputing
  | written
  deriving DecidableEq

def Freshness.and : Freshness → Freshness → Freshness
  | .written, _ => .written
  | _, .written => .written
  | .recomputing, _ => .recomputing
  | _, .recomputing => .recomputing
  | .unwritten, .unwritten => .unwritten

/-- `written_since`, from the answer the slots before gave. -/
def KeyTable.writtenSinceFrom {K V : Type} (t : KeyTable K V) (since : Nat)
    (freshness : Freshness) : List Nat → Freshness
  | [] => freshness
  | slot :: slots =>
    if (t.keys slot).written ≤ since then t.writtenSinceFrom since freshness slots
    else
      match ((t.saved .held).lookup slot).or ((t.saved .windowed).lookup slot) with
      | some saved =>
        if saved.before ≤ since then t.writtenSinceFrom since .recomputing slots else .written
      | none => .written

def KeyTable.writtenSince {K V : Type} (t : KeyTable K V) (slots : List Nat) (since : Nat) :
    Freshness :=
  t.writtenSinceFrom since .unwritten slots

/-- A slot that was read.  `key` and `value` are GHOSTS: the key it named and the value that
    key had when it was read. -/
structure Read (K V : Type) where
  slot : Nat
  key : K
  value : V
  deriving DecidableEq

/-- An open frame, and what it read; `tainted` if one of its reads was of a key being
    computed again. -/
structure Frame (K V : Type) where
  since : Nat
  reads : List (Read K V)
  tainted : Bool

/-- `Provenance`, as far as writes go. -/
structure Memo (K V : Type) where
  since : Nat
  reads : List (Read K V)
  checked : Nat
  deriving DecidableEq

/-- The slots a memo read. -/
def Memo.slots {K V : Type} (p : Memo K V) : List Nat := p.reads.map Read.slot

/-- `Provenance::freshness`, and the memo with what it stores; `latest` is `latest_stamp`. -/
def Memo.freshness {K V : Type} (p : Memo K V) (t : KeyTable K V) (latest : Nat) :
    Freshness × Memo K V :=
  if !t.writtenAfter p.checked then (.unwritten, p)
  else
    match t.writtenSince p.slots p.since with
    | .unwritten => (.unwritten, { p with checked := latest })
    | freshness => (freshness, p)

variable {K V : Type} [DecidableEq K] [DecidableEq V]

/-! ## §4. Runs -/

/-- The table, the values and the memos.  `touched` and `released` are GHOSTS: the stamp at
    which a key was last written, windowed, held or released, itself or with its base, and
    the stamp of the last release of any key. -/
structure State (K V : Type) where
  counter : Nat
  table : KeyTable K V
  values : K → V
  frames : List (Frame K V)
  memos : List (Memo K V)
  touched : K → Nat
  released : Nat

namespace State

/-- An empty table. -/
def initial (counter : Nat) (values : K → V) : State K V where
  counter := counter
  table := KeyTable.empty
  values := values
  frames := []
  memos := []
  touched _ := 0
  released := 0

/-- What the key in a slot holds; a slot without a key holds nothing that matters. -/
def valueAt (facts : Facts K V) (s : State K V) (default : V) (slot : Nat) : V :=
  match (s.table.keys slot).key with
  | some key => facts.value s.values key
  | none => default

/-- The value of a key with no base changes; the value of any other is a part. -/
def assign (facts : Facts K V) (values : K → V) (key : K) (value : V) : K → V :=
  match facts.base key with
  | some _ => values
  | none => Function.update values key value

/-- A key, and with it every key read out of it, is touched. -/
def touch (facts : Facts K V) (touched : K → Nat) (key : K) (now : Nat) : K → Nat :=
  fun other => if other = key ∨ facts.base other = some key then now else touched other

/-- Every open frame notes the reads. -/
def note (frames : List (Frame K V)) (reads : List (Read K V)) (taints : Bool) : List (Frame K V) :=
  frames.map fun frame =>
    { frame with reads := frame.reads ++ reads, tainted := frame.tainted || taints }

/-- What `unchanged` may accept: a key that holds what it held when its window opened. -/
def acceptsUnchanged (facts : Facts K V) (s : State K V) (mark : Mark) (unchanged : K → Bool) :
    Bool :=
  (s.table.saved mark).entries.all fun window =>
    match (s.table.keys window.1).key with
    | some key =>
      (facts.base key).isSome || !unchanged key ||
        decide (facts.value s.values key = window.2.value)
    | none => true

end State

/-- A call. -/
inductive Label (K V : Type) where
  | intern (key : K) (now : Nat)
  | release (slot : Nat)
  | write (key : K) (value : V)
  | openIn (mark : Mark) (key : K) (value : V)
  | closeIn (mark : Mark) (unchanged : K → Bool)
  | openFrame
  | read (slot : Nat)
  | closeFrame
  | reuse (i : Nat)
  | stampElsewhere

/-- One step. -/
def step (facts : Facts K V) (s : State K V) : Label K V → Option (State K V)
  | .intern key now =>
    if s.released ≤ now ∧ now ≤ s.counter ∧ ∀ frame ∈ s.frames, now < frame.since then
      some { s with table := s.table.intern facts key now }
    else none
  | .release slot =>
    match (s.table.keys slot).key with
    | some key =>
      if (s.table.derived.lookup slot).getD [] = [] then
        let now := s.counter + 1
        some { s with
          counter := now
          table := s.table.releaseOne facts slot now
          touched := State.touch facts s.touched key now
          released := now }
      else none
    | none => none
  | .write key value =>
    let now := s.counter + 1
    some { s with
      counter := now
      table := s.table.markWritten key now
      values := State.assign facts s.values key value
      touched := State.touch facts s.touched key now }
  | .openIn mark key value =>
    let now := s.counter + 1
    some { s with
      counter := now
      table := s.table.openIn mark key now (s.valueAt facts value)
      values := State.assign facts s.values key value
      touched := State.touch facts s.touched key now }
  | .closeIn mark unchanged =>
    if s.acceptsUnchanged facts mark unchanged then
      some { s with table := s.table.closeIn facts mark unchanged }
    else none
  | .openFrame =>
    let now := s.counter + 1
    some { s with counter := now, frames := ⟨now, [], false⟩ :: s.frames }
  | .read slot =>
    match (s.table.keys slot).key with
    | some key =>
      some { s with
        frames := State.note s.frames [⟨slot, key, facts.value s.values key⟩]
          (s.table.taints slot) }
    | none => none
  | .closeFrame =>
    match s.frames with
    | closed :: outer =>
      some { s with
        frames := outer
        memos := if closed.tainted then s.memos
          else s.memos ++ [⟨closed.since, closed.reads, 0⟩] }
    | [] => none
  | .reuse i =>
    match s.memos[i]? with
    | some p =>
      let asked := p.freshness s.table s.counter
      some { s with
        memos := s.memos.set i asked.2
        frames := if asked.1 = .unwritten then State.note s.frames p.reads false
          else s.frames }
    | none => none
  | .stampElsewhere => some { s with counter := s.counter + 1 }

/-- A run. -/
abbrev run (facts : Facts K V) (labels : List (Label K V)) (s : State K V) : Option (State K V) :=
  LabelledRuns.run (step facts) labels s

end GluaLs.Recompute
