/-
  GluaLs.Edit.Session — update after update (`derivation/positions.rs`).

  A re-analysis composes the edits of the texts it takes in: `EditMaps` holds the map of each
  file, from the text it began with to the one readers see.  Main results:

    • `of_thenLater` — edits compose file by file,
    • `tracks_take` — **one update more keeps every map on the bytes it keeps**,
    • `positions_follow` — so do all of them, and the inverse leads back.
-/
import GluaLs.Edit.Compose
import GluaLs.Edit.DiffSound
import GluaLs.Vfs.FileId

namespace GluaLs.Edit

open GluaLs.Lib Diff

/-! ## §1. The edits of several files -/

/-- The position maps of the files one update re-indexed. -/
structure EditMaps where
  maps : HashMap FileId PositionMap

namespace EditMaps

/-- The source takes pairs; its callers give each file's once. -/
def new (maps : HashMap FileId PositionMap) : EditMaps :=
  ⟨maps.filterMapEntries fun _ map => if map.isIdentity then none else some map⟩

/-- These edits followed by `later`, edits of the text these produced. -/
def thenLater (edits later : EditMaps) : EditMaps :=
  new (later.maps.entries.foldl (fun maps entry => maps.insert entry.1
    ((edits.maps.lookup entry.1).elim entry.2 (·.thenLater entry.2))) edits.maps)

def inverse (edits : EditMaps) : EditMaps :=
  ⟨edits.maps.filterMapEntries fun _ map => some map.inverse⟩

def position (edits : EditMaps) (file : FileId) (p : Nat) : Option Nat :=
  (edits.maps.lookup file).elim (some p) (·.map p)

/-- A file's map. -/
def of (edits : EditMaps) (file : FileId) : PositionMap :=
  (edits.maps.lookup file).getD .identity

theorem position_eq (edits : EditMaps) (file : FileId) (p : Nat) :
    edits.position file p = (edits.of file).map p := by
  unfold position of
  cases edits.maps.lookup file <;> rfl

theorem of_inverse (edits : EditMaps) (file : FileId) :
    edits.inverse.of file = (edits.of file).inverse := by
  unfold inverse of
  rw [AList.lookup_filterMapEntries]
  cases edits.maps.lookup file <;> rfl

theorem of_new (maps : HashMap FileId PositionMap) (file : FileId) :
    (new maps).of file = (maps.lookup file).getD .identity := by
  unfold new of
  rw [AList.lookup_filterMapEntries]
  cases maps.lookup file with
  | none => rfl
  | some map =>
    show (if map.isIdentity then none else some map).getD _ = map
    split_ifs with hid
    · exact ((isIdentity_iff map).1 hid).symm
    · rfl

theorem of_thenLater (edits later : EditMaps) (file : FileId) :
    (edits.thenLater later).of file = (edits.of file).thenLater (later.of file) := by
  unfold thenLater
  rw [of_new, lookup_foldl_insertSome
    (fun file map => some ((edits.maps.lookup file).elim map (·.thenLater map)))
    _ (fun _ _ => rfl) _ later.maps.nodupKeys]
  show ((later.maps.lookup file).bind _ |>.or _).getD _ = _
  unfold of
  cases later.maps.lookup file with
  | none => exact (thenLater_identity _).symm
  | some map =>
    cases edits.maps.lookup file with
    | none => exact (identity_thenLater map).symm
    | some earlier => rfl

end EditMaps

/-! ## §2. Bytes kept -/

/-- What `f` keeps of one text are the same bytes of the other. -/
structure KeepsBytes (old new : String) (f : PositionMap) : Prop where
  old_lt : old.utf8ByteSize < OPEN
  new_lt : new.utf8ByteSize < OPEN
  wellFormed : f.WellFormed old.utf8ByteSize new.utf8ByteSize
  same : ∀ p q, p < old.utf8ByteSize → f.image p = some q → (asBytes old)[p]? = (asBytes new)[q]?

theorem lt_u32 {n : Nat} (h : n < OPEN) : n < U32_SIZE := lt_trans h (Nat.lt_succ_self OPEN)

theorem keepsBytes_identity (text : String) (h : text.utf8ByteSize < OPEN) :
    KeepsBytes text text .identity :=
  ⟨h, h, ⟨Nat.zero_le _, Nat.zero_le _, rfl⟩, fun p q _ hq => by
    rw [show p = q from Option.some.inj hq]⟩

theorem keepsBytes_new (old new : String) (hold : old.utf8ByteSize < OPEN)
    (hnew : new.utf8ByteSize < OPEN) : KeepsBytes old new (.new old new) := by
  obtain ⟨hwf, hscript⟩ := new_script old new (lt_u32 hold) (lt_u32 hnew)
  refine ⟨hold, hnew, hwf, fun p q hp hq => ?_⟩
  rw [← length_asBytes] at hp
  rw [← length_asBytes, ← length_asBytes] at hscript
  exact imageFrom_same_byte _ _ _ 0 0 p q hscript (Nat.zero_le p) hp hq

theorem KeepsBytes.thenLater {a b c : String} {f g : PositionMap} (hf : KeepsBytes a b f)
    (hg : KeepsBytes b c g) : KeepsBytes a c (f.thenLater g) := by
  obtain ⟨hwf, himage⟩ := thenLater_spec f g _ _ _ hf.wellFormed hg.wellFormed
    (lt_u32 hf.old_lt) hf.new_lt (lt_u32 hg.new_lt)
  refine ⟨hf.old_lt, hg.new_lt, hwf, fun p r hp hr => ?_⟩
  rw [himage, Option.bind_eq_some_iff] at hr
  obtain ⟨q, hq, hr⟩ := hr
  rw [hf.same p q hp hq]
  exact hg.same q r ((image_le f _ _ hf.wellFormed p q hq).2 hp) hr

/-! ## §3. A run of updates -/

/-- The texts readers see, and the edits since the first ones. -/
structure Session where
  texts : FileId → String
  edits : EditMaps

/-- `take_staged` of files that had text, then `take_edits`. -/
def Session.take (s : Session) (staged : HashMap FileId String) : Session where
  texts := fun file => (staged.lookup file).getD (s.texts file)
  edits := s.edits.thenLater (.new (.ofKeys staged.keys fun file =>
    (staged.lookup file).map (.new (s.texts file))))

/-- No staged text reaches `u32::MAX` bytes. -/
def ShortTexts (staged : HashMap FileId String) : Prop :=
  ∀ file text, staged.lookup file = some text → text.utf8ByteSize < OPEN

/-- Each file's map keeps its bytes, since the texts `first`. -/
def Tracks (first : FileId → String) (s : Session) : Prop :=
  ∀ file, KeepsBytes (first file) (s.texts file) (s.edits.of file)

theorem tracks_take (first : FileId → String) (s : Session) (staged : HashMap FileId String)
    (hshort : ShortTexts staged) (h : Tracks first s) : Tracks first (s.take staged) := by
  intro file
  unfold Session.take
  rw [EditMaps.of_thenLater, EditMaps.of_new, AList.lookup_ofKeys]
  refine (h file).thenLater ?_
  dsimp only
  cases hfile : staged.lookup file with
  -- a file without staged text keeps its map
  | none => simpa using keepsBytes_identity _ (h file).new_lt
  | some text =>
    rw [if_pos ((mem_keys_iff staged file).2 (by simp [hfile]))]
    exact keepsBytes_new _ _ (h file).new_lt (hshort file text hfile)

theorem tracks_takes (first : FileId → String) (rounds : List (HashMap FileId String)) :
    ∀ s : Session, (∀ staged ∈ rounds, ShortTexts staged) → Tracks first s →
      Tracks first (rounds.foldl Session.take s) := by
  induction rounds with
  | nil => exact fun _ _ h => h
  | cons staged rounds ih =>
    intro s hshort h
    obtain ⟨hstaged, hrest⟩ := List.forall_mem_cons.1 hshort
    exact ih _ hrest (tracks_take first s staged hstaged h)

/-- **Whatever updates follow, positions stay on their bytes**: where the composed edits send
    the position of a byte stands that byte, and from there they lead back to it. -/
theorem positions_follow (texts : FileId → String) (rounds : List (HashMap FileId String))
    (htexts : ∀ file, (texts file).utf8ByteSize < OPEN)
    (hrounds : ∀ staged ∈ rounds, ShortTexts staged)
    (file : FileId) (p q : Nat) (hp : p < (texts file).utf8ByteSize)
    (hq : (rounds.foldl Session.take ⟨texts, ⟨∅⟩⟩).edits.position file p = some q) :
    (asBytes (texts file))[p]? = (asBytes ((rounds.foldl Session.take ⟨texts, ⟨∅⟩⟩).texts file))[q]?
      ∧ (rounds.foldl Session.take ⟨texts, ⟨∅⟩⟩).edits.inverse.position file q = some p := by
  have hs := tracks_takes texts rounds ⟨texts, ⟨∅⟩⟩ hrounds
    (fun file => keepsBytes_identity _ (htexts file)) file
  generalize rounds.foldl Session.take ⟨texts, ⟨∅⟩⟩ = s at *
  obtain ⟨hold, hnew, hwf, hsame⟩ := hs
  -- the offsets of both texts are `u32`s: no sum of `map` wraps
  have hq32 : ∀ q, (s.edits.of file).image p = some q → q < U32_SIZE :=
    fun q hq => lt_trans ((image_le _ _ _ hwf p q hq).2 hp) (lt_u32 hnew)
  have hp32 := lt_trans hp (lt_u32 hold)
  rw [EditMaps.position_eq, map_eq_image_of_fits _ _ _ hwf p hp32 hq32] at hq
  have hback := (image_inverse_iff _ _ _ hwf p q).1 hq
  refine ⟨hsame p q hp hq, ?_⟩
  rw [EditMaps.position_eq, EditMaps.of_inverse, map_eq_image_of_fits _ _ _
    (wellFormed_inverse _ _ _ hwf) q (hq32 q hq), hback]
  intro r hr
  rw [hback] at hr
  exact Option.some.inj hr ▸ hp32

theorem positions_follow_two : (asBytes "ab")[1]? = (asBytes "yaxb")[3]? := by
  have hshort : ∀ text : String, text.utf8ByteSize < OPEN →
      ShortTexts (AList.insert ⟨0⟩ text ∅) := by
    intro text htext file text' h
    obtain ⟨-, rfl⟩ | ⟨-, h⟩ := lookup_insert_some h
    · exact htext
    · cases h
  exact (positions_follow (fun _ => "ab") [AList.insert ⟨0⟩ "axb" ∅, AList.insert ⟨0⟩ "yaxb" ∅]
    (fun _ => by decide)
    (List.forall_mem_cons.2
      ⟨hshort _ (by decide), List.forall_mem_singleton.2 (hshort _ (by decide))⟩)
    ⟨0⟩ 1 3 (by decide) (by decide +kernel)).1

end GluaLs.Edit
