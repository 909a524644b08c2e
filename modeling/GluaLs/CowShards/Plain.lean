/-
  GluaLs.CowShards.Plain — runs of operations, and what they are FOR.

  `Op` is one operation on the maps of a program; `World.step` runs it on the pointers, as
  the methods do, and `Plain.step` on plain maps: each name has a finite map of its own,
  `clone` and `fork` copy it whole, an install is the three-way merge of each key.

  A plain map also carries what the callers of an install have to know: `version` is renewed
  by each write, so that two maps of one version hold the same entries, `origin` is the
  version a fork was taken from, and `made` tells a map that replaced a fork whole.
  `Plain.step` refuses an operation a caller cannot ask for: on a name that is not live, with
  a key whose slot 32 bits do not name, or an install of a map that was neither forked from
  the frozen map as it stands nor made apart from it.
-/
import GluaLs.CowShards.InstallDef
import GluaLs.Lib.ThreeWay

namespace GluaLs.Cow

open GluaLs.Lib

variable {K V : Type}

/-! ## §1. Operations -/

/-- An operation on the maps of a program. -/
inductive Op (K V : Type) where
  | new (n : Nat)
  | insert (n : Nat) (key : K) (value : V)
  | remove (n : Nat) (key : K)
  | getMut (n : Nat) (key : K) (f : V → V)
  | entry (n : Nat) (key : K) (f : Option V → Option V)
  | retain (n : Nat) (keep : K → V → Bool × V)
  | iterMut (n : Nat) (f : K → V → V)
  | clear (n : Nat)
  | clone (n m : Nat)
  | fork (n m : Nat)
  | installWith (a z b : Nat) (merge : Option (Merge V))
  | installAll (a z : Nat) (forks : List (Nat × Nat)) (merge : Option (Merge V))
  | flatten (n : Nat)
  | drop (n : Nat)
  /-- The drop thread lets go of an `Arc`. -/
  | free (p : Ptr)

variable [DecidableEq K] [ShardKey K]

section

variable [BEq V]

/-- One operation on the pointers. -/
def World.step (w : World K V) : Op K V → World K V
  | .new n => w.new n
  | .insert n key value => w.insert n key value
  | .remove n key => w.remove n key
  | .getMut n key f => w.getMut n key f
  | .entry n key f => w.entry n key f
  | .retain n keep => w.retain n keep
  | .iterMut n f => w.iterMut n f
  | .clear n => w.clear n
  | .clone n m => w.clone n m
  | .fork n m => w.fork n m
  | .installWith a z b merge => (w.installWith a z b merge).1
  | .installAll a z forks merge => (w.installAll a z forks merge).1
  | .flatten n => w.flatten n
  | .drop n => w.dropMap n
  | .free p => w.letGo (some p)

/-- A run of operations, from no map. -/
def World.run (ops : List (Op K V)) : World K V :=
  ops.foldl World.step (World.init K V)

end

/-! ## §2. Plain maps -/

/-- A finite map with its version, the version it was forked from, and the `new` that it, or
    what it is a copy of, came from. -/
structure PlainMap (K V : Type) where
  entries : HashMap K V
  version : Nat
  origin : Option Nat
  made : Nat

/-- The plain maps by name, and the next version. -/
structure Plain (K V : Type) where
  maps : HashMap Nat (PlainMap K V)
  clock : Nat

namespace Plain

/-- No map. -/
def init (K V : Type) : Plain K V := ⟨∅, 0⟩

/-- The entries of map `n` rewritten: a new version. -/
def write (s : Plain K V) (n : Nat) (f : HashMap K V → HashMap K V) : Option (Plain K V) :=
  (s.maps.lookup n).map fun m =>
    ⟨s.maps.insert n { m with entries := f m.entries, version := s.clock }, s.clock + 1⟩

/-- `write` at a key that 32 bits name the slot of. -/
def writeKey (s : Plain K V) (n : Nat) (key : K) (f : HashMap K V → HashMap K V) :
    Option (Plain K V) :=
  if SlotFits key then s.write n f else none

/-- A copy of map `n` under a free name. -/
def copy (s : Plain K V) (n m : Nat) (f : PlainMap K V → PlainMap K V) : Option (Plain K V) :=
  if (s.maps.lookup m).isSome then none
  else (s.maps.lookup n).map fun c => { s with maps := s.maps.insert m (f c) }

/-- The entry of `k` in map `n`. -/
def get (s : Plain K V) (n : Nat) (k : K) : Option V :=
  (s.maps.lookup n).bind fun m => m.entries.lookup k

/-- The keys of map `n`. -/
def keys (s : Plain K V) (n : Nat) : List K :=
  (s.maps.lookup n).toList.flatMap fun m => m.entries.keys

/-- Map `b` is a fork of map `z` as `z` stands: it was forked from this version of it, or
    replaced whole since, by a map that came from another `new`. -/
def IsFork (s : Plain K V) (z b : Nat) : Prop :=
  ∃ mz mb, s.maps.lookup z = some mz ∧ s.maps.lookup b = some mb ∧
    (mb.origin = some mz.version ∨ mb.made ≠ mz.made)

instance (s : Plain K V) (z b : Nat) : Decidable (s.IsFork z b) :=
  match hz : s.maps.lookup z, hb : s.maps.lookup b with
  | some mz, some mb =>
    decidable_of_iff (mb.origin = some mz.version ∨ mb.made ≠ mz.made)
      ⟨fun h => ⟨mz, mb, hz, hb, h⟩, fun ⟨_, _, hz', hb', h⟩ => by
        rw [hz] at hz'
        rw [hb] at hb'
        cases hz'
        cases hb'
        exact h⟩
  | none, _ => .isFalse fun ⟨_, _, hz', _, _⟩ => by rw [hz] at hz'; cases hz'
  | _, none => .isFalse fun ⟨_, _, _, hb', _⟩ => by rw [hb] at hb'; cases hb'

/-- The names `a`, `z` and the forks can be passed to an install: `a` is live, each fork is one
    of `z`, and no name is passed twice. -/
def CanInstall (s : Plain K V) (a z : Nat) (forks : List Nat) : Prop :=
  s.maps.lookup a ≠ none ∧ s.maps.lookup z ≠ none ∧ (∀ b ∈ forks, s.IsFork z b) ∧
    (a :: z :: forks).Nodup

instance (s : Plain K V) (a z : Nat) (forks : List Nat) : Decidable (s.CanInstall a z forks) :=
  haveI : ∀ n, Decidable (s.maps.lookup n ≠ none) := fun n =>
    decidable_of_iff ((s.maps.lookup n).isSome = true) Option.isSome_iff_ne_none
  inferInstanceAs (Decidable (_ ∧ _ ∧ _ ∧ _))

variable [DecidableEq V]

/-- The forks' changes taken into map `a` one after another, the forks dropped. -/
def install (s : Plain K V) (a z : Nat) (forks : List Nat) (merge : Option (Merge V)) :
    Option (Plain K V) :=
  if s.CanInstall a z forks then
    let merged := AList.ofKeys (s.keys a ++ s.keys z ++ forks.flatMap s.keys) fun k =>
      threeWayFold merge (s.get z k) (s.get a k) (forks.map fun b => s.get b k)
    (s.write a fun _ => merged).map fun s =>
      { s with maps := forks.foldl (fun maps b => maps.erase b) s.maps }
  else none

/-- One operation on plain maps; none when a caller cannot ask for it. -/
def step (s : Plain K V) : Op K V → Option (Plain K V)
  | .new n =>
    if (s.maps.lookup n).isSome then none
    else some ⟨s.maps.insert n ⟨∅, s.clock, none, s.clock⟩, s.clock + 1⟩
  | .insert n key value => s.writeKey n key fun m => m.insert key value
  | .remove n key => s.writeKey n key fun m => m.erase key
  | .getMut n key f => s.writeKey n key fun m => World.putValue m key ((m.lookup key).map f)
  | .entry n key f => s.writeKey n key fun m => World.putValue m key (f (m.lookup key))
  | .retain n keep => s.write n fun m =>
    m.filterMapEntries fun k v => if (keep k v).1 then some (keep k v).2 else none
  | .iterMut n f => s.write n fun m => m.filterMapEntries fun k v => some (f k v)
  | .clear n => s.write n fun _ => ∅
  | .clone n m => s.copy n m id
  | .fork n m => s.copy n m fun c => { c with origin := some c.version }
  | .installWith a z b merge => s.install a z [b] merge
  | .installAll a z forks merge => s.install a z (forks.map Prod.snd) merge
  | .flatten n => if (s.maps.lookup n).isSome then some s else none
  | .drop n => if (s.maps.lookup n).isSome then some { s with maps := s.maps.erase n } else none
  | .free _ => some s

/-- A run of operations, from no map. -/
def run (ops : List (Op K V)) : Option (Plain K V) :=
  ops.foldlM step (init K V)

end Plain

end GluaLs.Cow
