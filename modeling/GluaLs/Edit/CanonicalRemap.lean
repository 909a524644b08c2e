/-
  GluaLs.Edit.CanonicalRemap — a remap keeps unions canonical
  (`remap_identities_in_type` of `db_index/type/mod.rs`; `LuaType::from_vec` and
  `lua_type_sort_key` of `db_index/type/types.rs`).

  A remap that moves the positions of one file in order keeps equality, the order of sort keys
  and what is built in order (`wellBuilt_replace`).  So a union that is what `from_vec` makes of
  its members stays so (`remapped_union_canonical`): a type that was remapped is the type a
  fresh analysis of the edited text builds.
-/
import GluaLs.Edit.FromVecRemap

namespace GluaLs.Edit

open GluaLs.Types IdentityRemap
open GluaLs.Types.LuaType
open GluaLs.Lib

/-! ## §1. What is put in order stays in order -/

section

variable {h : Hashing} {remap back : IdentityRemap} {I : Identity → Prop}
variable (hk : Keeps h remap back I)

theorem flattenMergedTables_eq (types : List LuaType) :
    flattenMergedTables types = types.flatMap flattenMergedTable := by
  induction types with
  | nil => rfl
  | cons t types ih =>
    show flattenMergedTable t ++ flattenMergedTables types = _
    rw [ih, List.flatMap_cons]

/-- Lists of members one after the other. -/
theorem movedList_flatMap (f : LuaType → List LuaType) (types : List LuaType)
    (hf : ∀ t ∈ types, MovedList remap I (f t) (f (remap.replace t))) :
    MovedList remap I (types.flatMap f) ((types.map remap.replace).flatMap f) := by
  induction types with
  | nil => exact .nil
  | cons t types ih =>
    rw [List.map_cons, List.flatMap_cons, List.flatMap_cons]
    exact List.rel_append (hf t (.head _))
      (ih fun s hs => hf s (.tail _ hs))

theorem moved_flattenMergedTable (t : LuaType) (ht : NamesOnly I t) :
    MovedList remap I (flattenMergedTable t) (flattenMergedTable (remap.replace t)) := by
  induction t using induction_children with
  | step t ih =>
    have hself : MovedList remap I [t] [remap.replace t] := movedList_single ⟨ht, rfl⟩
    cases t with
    | MergedTable types =>
      rw [replace_eq]
      show MovedList remap I (flattenMergedTables types)
        (flattenMergedTables (types.map remap.replace))
      rw [flattenMergedTables_eq, flattenMergedTables_eq]
      exact movedList_flatMap _ types fun s hs => ih s hs (ht.child hs)
    | Union union => cases union <;> exact hself
    | Variadic variadic => cases variadic <;> exact hself
    | _ => exact hself

include hk in
/-- A merged table in order moves to one in order. -/
theorem newMergedTable_replace (types : List LuaType) (hty : ∀ t ∈ types, NamesOnly I t)
    (hbuilt : newMergedTable h types = .MergedTable types) :
    newMergedTable h (types.map remap.replace) = .MergedTable (types.map remap.replace) := by
  have hflat : MovedList remap I (flattenMergedTables types)
      (flattenMergedTables (types.map remap.replace)) := by
    rw [flattenMergedTables_eq, flattenMergedTables_eq]
    exact movedList_flatMap _ types fun t ht => moved_flattenMergedTable t (hty t ht)
  have hsorted := (moved_dedupTypes hk (moved_sortTypes hk hflat)).eq_map
  injection hbuilt with hbuilt
  rw [hbuilt] at hsorted
  exact congrArg LuaType.MergedTable hsorted

/-- A field whose key and type have moved. -/
def MovedField (remap : IdentityRemap) (I : Identity → Prop)
    (field field' : LuaMemberKey × LuaType) : Prop :=
  (∀ s ∈ field.1.children, NamesOnly I s) ∧ NamesOnly I field.2
    ∧ field' = (field.1.mapType remap.replace, remap.replace field.2)

include hk in
theorem keyLt_mapType (key key' : LuaMemberKey) (hkey : ∀ s ∈ key.children, NamesOnly I s)
    (hkey' : ∀ s ∈ key'.children, NamesOnly I s) :
    keyLt h (key.mapType remap.replace) (key'.mapType remap.replace) = keyLt h key key' := by
  cases key with
  | ExprType s =>
    cases key' with
    | ExprType s' =>
      exact decide_eq_decide.2 (hk.lt_moved_iff ⟨hkey s (.head _), rfl⟩
        ⟨hkey' s' (.head _), rfl⟩).symm
    | _ => rfl
  | _ => cases key' <;> rfl

include hk in
theorem moved_insertField {field field' : LuaMemberKey × LuaType}
    (hfield : MovedField remap I field field') {fields fields' : List (LuaMemberKey × LuaType)}
    (hfields : List.Forall₂ (MovedField remap I) fields fields') :
    List.Forall₂ (MovedField remap I) (insertField h field.1 field.2 fields)
      (insertField h field'.1 field'.2 fields') := by
  obtain ⟨key, type⟩ := field
  obtain ⟨hkey, htype, rfl⟩ := hfield
  induction hfields with
  | nil => exact .cons ⟨hkey, htype, rfl⟩ .nil
  | @cons old old' fields fields' hold hrest ih =>
    obtain ⟨oldKey, oldType⟩ := old
    obtain ⟨holdKey, holdType, rfl⟩ := hold
    simp only [insertField]
    rw [keyLt_mapType hk oldKey key holdKey hkey, keyLt_mapType hk key oldKey hkey holdKey]
    split
    · exact .cons ⟨holdKey, holdType, rfl⟩ ih
    · split
      · exact .cons ⟨hkey, htype, rfl⟩
          (.cons ⟨holdKey, holdType, rfl⟩ hrest)
      · exact .cons ⟨holdKey, htype, rfl⟩ hrest

include hk in
theorem moved_foldl_insertField {fields fields' : List (LuaMemberKey × LuaType)}
    (hfields : List.Forall₂ (MovedField remap I) fields fields') :
    ∀ {into into' : List (LuaMemberKey × LuaType)},
      List.Forall₂ (MovedField remap I) into into' →
      List.Forall₂ (MovedField remap I)
        (fields.foldl (fun inserted field => insertField h field.1 field.2 inserted) into)
        (fields'.foldl (fun inserted field => insertField h field.1 field.2 inserted) into') := by
  induction hfields with
  | nil => exact fun hinto => hinto
  | cons hfield _ ih => exact fun hinto => ih (moved_insertField hk hfield hinto)

theorem movedFields_eq_map {fields fields' : List (LuaMemberKey × LuaType)}
    (hfields : List.Forall₂ (MovedField remap I) fields fields') :
    fields' = fields.map fun field => (field.1.mapType remap.replace, remap.replace field.2) := by
  induction hfields with
  | nil => rfl
  | cons hfield _ ih => rw [List.map_cons, ← hfield.2.2, ih]

theorem movedFields_map (fields : List (LuaMemberKey × LuaType))
    (hfields : ∀ s ∈ fields.flatMap fun field => field.1.children ++ [field.2], NamesOnly I s) :
    List.Forall₂ (MovedField remap I) fields
      (fields.map fun field => (field.1.mapType remap.replace, remap.replace field.2)) := by
  induction fields with
  | nil => exact .nil
  | cons field fields ih =>
    have hboth := List.forall_mem_append.1 hfields
    have hfield := List.forall_mem_append.1 hboth.1
    exact .cons ⟨hfield.1, List.forall_mem_singleton.1 hfield.2, rfl⟩ (ih hboth.2)

include hk in
/-- A field map in order moves to one in order. -/
theorem insertFields_replace (fields : List (LuaMemberKey × LuaType))
    (hfields : ∀ s ∈ fields.flatMap fun field => field.1.children ++ [field.2], NamesOnly I s)
    (hbuilt : insertFields h fields = fields) :
    insertFields h (fields.map fun field => (field.1.mapType remap.replace, remap.replace field.2))
      = fields.map fun field => (field.1.mapType remap.replace, remap.replace field.2) := by
  have hinserted := movedFields_eq_map
    (moved_foldl_insertField hk (movedFields_map fields hfields) .nil)
  have hself : fields.foldl (fun inserted field => insertField h field.1 field.2 inserted) []
      = fields := hbuilt
  rw [hself] at hinserted
  exact hinserted

include hk in
theorem rebuilt_replace (t : LuaType) (ht : NamesOnly I t) (hbuilt : rebuilt h t = t) :
    rebuilt h (remap.replace t) = remap.replace t := by
  cases t with
  | MergedTable types =>
    rw [replace_eq]
    exact newMergedTable_replace hk types (fun s hs => ht.child hs) hbuilt
  | Object fields indexAccess =>
    have hfields : insertFields h fields = fields := by
      injection hbuilt
    rw [replace_eq]
    exact congrArg (fun fields => LuaType.Object fields _) (insertFields_replace hk fields
      (fun s hs => ht.child (List.mem_append_left _ hs)) hfields)
  | DocFunction a c v params optional roles ret =>
    have hflags : resize optional params.length = optional := by
      injection hbuilt
    rw [replace_eq]
    show LuaType.DocFunction a c v _ (resize optional (List.map _ params).length) roles _ = _
    rw [List.length_map, hflags]
    rfl
  | Union union => cases union <;> rfl
  | Variadic variadic => cases variadic <;> rfl
  | _ => rfl

include hk in
/-- **A type built by its constructors moves to one built by them.** -/
theorem wellBuilt_replace (t : LuaType) (ht : NamesOnly I t) (hbuilt : WellBuilt h t) :
    WellBuilt h (remap.replace t) := by
  intro s hs
  obtain ⟨u, hu, rfl⟩ := (within_transform_iff _ remap.onOwn s t).1 hs
  exact rebuilt_replace hk u (ht.within hu) (hbuilt u hu)

end

/-! ## §2. A file remap in order keeps what a union is built from -/

/-- A hash set finds a moved key exactly where it found the key: hashing tells apart the same
    keys before and after. -/
def FindsMoved (set : FxHashSet) (remap : IdentityRemap) (I : Identity → Prop) : Prop :=
  ∀ keys t, (∀ k ∈ keys, NamesOnly I k) → NamesOnly I t →
    set.contains (keys.map remap.replace) (remap.replace t) = set.contains keys t

theorem keeps_contentHashing {remap : IdentityRemap} {file : FileId} {I : Identity → Prop}
    (hm : MovesInOrder remap file I) (set : FxHashSet) (hset : FindsMoved set remap I)
    (hashStrContent : SmolStr → Nat) (hash : List Word → Nat) :
    Keeps (contentHashing set hashStrContent hash) remap (backRemap remap I) I where
  back_replace := backRemap_replace hm
  le_iff := sortKey_replace_le_iff hm set hashStrContent hash
  contains_eq := hset

/-- A set that compares finds what moved. -/
theorem findsMoved_plain {remap : IdentityRemap} {file : FileId} {I : Identity → Prop}
    (hm : MovesInOrder remap file I) : FindsMoved plainHashing.set remap I := by
  intro keys t hkeys ht
  show (keys.map remap.replace).any (fun s => s.eq (remap.replace t)) = keys.any fun s => s.eq t
  exact (any_eq (R := Moved remap I)
    (fun s s' hs => by rw [hs.2]; exact (eq_replace hm s t hs.1 ht).symm)
    (movedList_map hkeys)).symm

theorem fileId_orOld_mapInto {T U : Type} (build : T → U) (fileOf : U → FileId) (file : FileId)
    (hbuild : ∀ value, fileOf (build value) = file) (remapped : Remap T) (old : U)
    (hold : fileOf old = file) : fileOf ((remapped.mapInto build).orOld old) = file := by
  cases remapped with
  | Moved value => exact hbuild value
  | Unrelated => exact hold
  | Lost => exact hold

namespace FileRemap

variable (remap : FileRemap)

/-- Resolving moves a value, or leaves it, or loses it: it never makes one up. -/
theorem resolve_cases {T : Type} (mapped : Remap T) (beforeTheHunk : Bool)
    (occupied : FileFacts → Bool) (exist : FileFacts → T → Bool) :
    remap.resolve mapped beforeTheHunk occupied exist = mapped
      ∨ remap.resolve mapped beforeTheHunk occupied exist = .Unrelated
      ∨ remap.resolve mapped beforeTheHunk occupied exist = .Lost := by
  unfold resolve
  split
  · exact .inl rfl
  · exact .inl rfl
  · split
    · exact .inl rfl
    · split
      · exact .inl rfl
      · split
        · exact .inr (.inl rfl)
        · exact .inr (.inr rfl)
  · split
    · exact .inl rfl
    · split
      · exact .inr (.inl rfl)
      · exact .inr (.inr rfl)

theorem fileId_orOld_resolve {T U : Type} (build : T → U) (fileOf : U → FileId) (file : FileId)
    (hbuild : ∀ value, fileOf (build value) = file) (remapped : Remap T) (beforeTheHunk : Bool)
    (occupied : FileFacts → Bool) (exist : FileFacts → U → Bool) (old : U)
    (hold : fileOf old = file) :
    fileOf ((remap.resolve (remapped.mapInto build) beforeTheHunk occupied exist).orOld old)
      = file := by
  rcases remap.resolve_cases (remapped.mapInto build) beforeTheHunk occupied exist with h | h | h
  · rw [h]
    exact fileId_orOld_mapInto build fileOf file hbuild remapped old hold
  · rw [h]
    exact hold
  · rw [h]
    exact hold

theorem fileId_rangeImage (range : InFiled TextRange) :
    (remap.identities.rangeImage range).fileId = range.fileId :=
  remap.fileId_orOld_resolve (fun value => (⟨range.fileId, value⟩ : InFiled TextRange))
    InFiled.fileId range.fileId (fun _ => rfl) _ _ _ _ range rfl

/-- Nothing leaves its file. -/
theorem fileId_image (i : Identity) : (remap.identities.image i).fileId = i.fileId := by
  cases i with
  | Signature id =>
    rw [image_signature]
    exact remap.fileId_orOld_resolve (fun position => (⟨id.fileId, position⟩ : LuaSignatureId))
      LuaSignatureId.fileId id.fileId (fun _ => rfl) _ _ _ _ id rfl
  | Table range =>
    rw [image_table]
    exact remap.fileId_rangeImage range
  | Instance range =>
    rw [image_instance]
    exact remap.fileId_rangeImage range

theorem image_other (i : Identity) (hfile : i.fileId ≠ remap.fileId) :
    remap.identities.image i = i := by
  rw [IdentityRemap.image, remapped_of_other_file remap i hfile]
  rfl

/-- A file remap whose starts are in order moves in order. -/
theorem movesInOrder {I : Identity → Prop} (hs : StartsInOrder remap.identities remap.fileId I) :
    MovesInOrder remap.identities remap.fileId I where
  toStartsInOrder := hs
  other := fun i _ hfile => remap.image_other i hfile
  fileId_image := fun i _ hfile => (remap.fileId_image i).trans hfile

end FileRemap

/-! ## §3. Canonical unions -/

/-- The members of a union are its children, and the nil of a nullable one. -/
theorem mem_intoVec {u : LuaUnionType} {t : LuaType} (ht : t ∈ u.intoVec) :
    t ∈ (LuaType.Union u).children ∨ t = .Nil := by
  cases u with
  | Nullable s =>
    rcases List.mem_cons.1 ht with rfl | ht
    · exact .inl (.head _)
    · exact .inr (List.mem_singleton.1 ht)
  | Multi types => exact .inl ht

/-- **A remap that moves one file's positions in order keeps unions canonical**: what becomes
    of a union is what `from_vec` makes of what becomes of its members. -/
theorem remapped_union_canonical (set : FxHashSet) (hashStrContent : SmolStr → Nat)
    (hash : List Word → Nat) (remap : FileRemap) (u : LuaUnionType)
    (hset : FindsMoved set remap.identities fun i => Names i (.Union u))
    (hs : StartsInOrder remap.identities remap.fileId fun i => Names i (.Union u))
    (hbuilt : WellBuilt (contentHashing set hashStrContent hash) (.Union u))
    (hcanonical : fromVec (contentHashing set hashStrContent hash) u.intoVec = .Union u)
    (hlost : (remapIdentitiesInType (contentHashing set hashStrContent hash) remap.identities
      (.Union u)).lost = false) :
    ∃ u' : LuaUnionType,
      (remapIdentitiesInType (contentHashing set hashStrContent hash) remap.identities
        (.Union u)).orOld (.Union u) = .Union u' ∧
      u'.intoVec = u.intoVec.map (fun t =>
        (remapIdentitiesInType (contentHashing set hashStrContent hash) remap.identities t).orOld
          t) ∧
      fromVec (contentHashing set hashStrContent hash) u'.intoVec = .Union u' := by
  have hm := remap.movesInOrder hs
  have hk := keeps_contentHashing hm set hset hashStrContent hash
  have hnames : NamesOnly (fun i => Names i (.Union u)) (.Union u) := fun i hi => hi
  have hmoved : Moved remap.identities (fun i => Names i (.Union u)) (.Union u)
      (remap.identities.replace (.Union u)) := ⟨hnames, rfl⟩
  obtain ⟨u', hu', hmembers⟩ := movedList_intoVec hmoved
  have hreplace : ∀ t, lostBy (contentHashing set hashStrContent hash) remap.identities t = false →
      NamesOnly (fun i => Names i (.Union u)) t →
      WellBuilt (contentHashing set hashStrContent hash) t →
      remappedBy (contentHashing set hashStrContent hash) remap.identities t
        = remap.identities.replace t :=
    fun t hlost ht hbuilt =>
      remappedBy_eq_replace _ _ t hlost hbuilt (wellBuilt_replace hk t ht hbuilt)
  refine ⟨u', (hreplace _ hlost hnames hbuilt).trans hu', ?_, ?_⟩
  · rw [hmembers.eq_map]
    apply List.map_congr_left
    intro t ht
    rcases mem_intoVec ht with hchild | rfl
    · exact (hreplace t (lostBy_child _ _ hchild hlost) (hnames.child hchild)
        (hbuilt.child hchild)).symm
    · rfl
  · have hfresh := (moved_fromVec hk hmembers).2
    rw [hfresh, hcanonical, hu']

/-! Five bytes put in front of a file with two table literals, beside one of another file. -/

def fiveInFront : FileRemap := ⟨⟨1⟩, ⟨[⟨0, 0, 0, 5⟩]⟩, none⟩

def otherLiteral : InFiled TextRange := ⟨⟨2⟩, ⟨7, 9⟩⟩

/-- `table | table | table` -/
def threeLiterals (start : Nat) : LuaUnionType :=
  .Multi [.TableConst (tableLiteral start), .TableConst (tableLiteral (start + 10)),
    .TableConst otherLiteral]

theorem names_threeLiterals {i : Identity} {start : Nat}
    (hi : Names i (.Union (threeLiterals start))) :
    i = .Table (tableLiteral start) ∨ i = .Table (tableLiteral (start + 10))
      ∨ i = .Table otherLiteral := by
  rcases (names_iff i _).1 hi with hi | ⟨s, hs, u, hu, hi⟩
  · cases hi
  · simp only [threeLiterals, children, List.mem_cons, List.not_mem_nil, or_false] at hs
    rcases hs with rfl | rfl | rfl
    · rw [(within_leaf rfl).1 hu] at hi
      exact .inl (Option.some.inj hi).symm
    · rw [(within_leaf rfl).1 hu] at hi
      exact .inr (.inl (Option.some.inj hi).symm)
    · rw [(within_leaf rfl).1 hu] at hi
      exact .inr (.inr (Option.some.inj hi).symm)

theorem startsInOrder_threeLiterals :
    StartsInOrder fiveInFront.identities fiveInFront.fileId
      fun i => Names i (.Union (threeLiterals 10)) where
  lt := by
    intro i j hi hj hfile hfile' hlt
    rcases names_threeLiterals hi with rfl | rfl | rfl <;>
      rcases names_threeLiterals hj with rfl | rfl | rfl <;>
      revert hfile hfile' hlt <;> decide
  eq := by
    intro i j hi hj hfile hfile' heq
    rcases names_threeLiterals hi with rfl | rfl | rfl <;>
      rcases names_threeLiterals hj with rfl | rfl | rfl <;>
      revert hfile hfile' heq <;> decide
  distinct := by
    intro i j range range' hi hj hrange hrange' hfile hfile' heq
    rcases names_threeLiterals hi with rfl | rfl | rfl <;>
      rcases names_threeLiterals hj with rfl | rfl | rfl <;>
      cases hrange <;> cases hrange' <;> revert hfile hfile' heq <;> decide
  small := by
    intro i hi
    rcases names_threeLiterals hi with rfl | rfl | rfl <;> decide

theorem remapped_union_canonical_threeLiterals :
    fromVec (contentHashing plainHashing.set (fun _ => 0) fun _ => 0) (threeLiterals 15).intoVec
      = .Union (threeLiterals 15) := by
  have hm := fiveInFront.movesInOrder startsInOrder_threeLiterals
  obtain ⟨u', hu', -, hcanonical⟩ := remapped_union_canonical plainHashing.set (fun _ => 0)
    (fun _ => 0) fiveInFront (threeLiterals 10) (findsMoved_plain hm) startsInOrder_threeLiterals
    (by
      intro s hs
      rcases (within_iff s _).1 hs with rfl | ⟨u, hu, hs⟩
      · rfl
      · simp only [threeLiterals, children, List.mem_cons, List.not_mem_nil, or_false] at hu
        rcases hu with rfl | rfl | rfl <;> rw [(within_leaf rfl).1 hs] <;> rfl)
    rfl rfl
  cases hu'
  exact hcanonical

end GluaLs.Edit
