/-
  GluaLs.Edit.RemapOrder — what a remap that does not reorder positions keeps
  (`lua_type_sort_key`, `content_detail` of `db_index/type/types.rs`;
  `hash_apart_from_positions` of `db_index/derivation/positions.rs`).

  A composite type is sorted by its content apart from the positions it names, then by these
  positions, file by file.  Under a remap that moves the positions of one file in order
  (`MovesInOrder`) and leaves the others, equality of types and the order of their keys stay
  what they were (`eq_replace`, `sortKey_replace_le_iff`), and with them everything that is
  sorted: merged tables and field maps stay built as they are.
-/
import GluaLs.Edit.RemapExact
import GluaLs.Types.HashContent

namespace GluaLs.Edit

open GluaLs.Lib GluaLs.Types LuaType IdentityRemap
/-! ## §1. Equality is kept -/

/-- Equal types name equal identities of their own. -/
theorem eq_own (remap : IdentityRemap) (a b : LuaType) (heq : a.eq b = true) :
    (remap.own a).eq (remap.own b) = true := by
  unfold eq at heq
  split at heq
  all_goals try exact heq
  all_goals try cases heq
  · next range range' =>
      have hrange := eq_of_beq heq
      subst hrange
      exact beq_self_eq_true _
  · next id id' =>
      have hid := eq_of_beq heq
      subst hid
      exact beq_self_eq_true _
  · next base range kind base' range' kind' =>
      simp only [Bool.and_eq_true] at heq
      obtain ⟨⟨hbase, hrange⟩, hkind⟩ := heq
      have hrange := eq_of_beq hrange
      subst hrange
      simp only [own, eq, hbase, hkind, beq_self_eq_true, Bool.and_self]

/-- Equal types with equal new children and the same identity replaced. -/
theorem eq_own_mapChildren (remap : IdentityRemap) (σ : LuaType → LuaType) (a b : LuaType)
    (hσ : ∀ s ∈ a.children, ∀ s', s.eq s' = true → (σ s).eq (σ s') = true) (heq : a.eq b = true) :
    (remap.own (a.mapChildren σ)).eq (remap.own (b.mapChildren σ)) = true := by
  rw [(splits a).eq_eq, Bool.and_eq_true] at heq
  have hown := eq_own remap _ _ heq.1
  rw [remap.onOwn.mapChildren_comm, remap.onOwn.mapChildren_comm] at hown ⊢
  rw [eq_mapChildren, hown, Bool.true_and, remap.onOwn.children_eq, remap.onOwn.children_eq]
  exact listEq_map_map a.children hσ b.children heq.2

/-- Equal types stay equal, whatever the remap. -/
theorem eq_replace_of_eq (remap : IdentityRemap) (a : LuaType) :
    ∀ b, a.eq b = true → (remap.replace a).eq (remap.replace b) = true := by
  induction a using induction_children with
  | step a ih =>
    intro b heq
    rw [replace_eq, replace_eq]
    exact eq_own_mapChildren remap remap.replace a b ih heq

/-! ## §2. Remaps that keep the order -/

def Identity.start : Identity → Nat
  | .Signature id => id.position
  | .Table range => range.value.start
  | .Instance range => range.value.start

/-- The range of a table literal. -/
def Identity.tableRange : Identity → Option (InFiled TextRange)
  | .Signature _ => none
  | .Table range => some range
  | .Instance range => some range

/-- The positions of one file move in order, as far as the identities of a set go, and distinct
    table literals of the file have distinct starts.  A position is a `u32`. -/
structure StartsInOrder (remap : IdentityRemap) (file : FileId) (I : Identity → Prop) : Prop where
  lt : ∀ i j, I i → I j → i.fileId = file → j.fileId = file → i.start < j.start →
    (remap.image i).start < (remap.image j).start
  eq : ∀ i j, I i → I j → i.fileId = file → j.fileId = file → i.start = j.start →
    (remap.image i).start = (remap.image j).start
  distinct : ∀ i j range range', I i → I j → i.tableRange = some range →
    j.tableRange = some range' → range.fileId = file → range'.fileId = file →
    range.value.start = range'.value.start → range = range'
  small : ∀ i, I i → i.start < 2 ^ 32 ∧ (remap.image i).start < 2 ^ 32

/-- Moreover nothing leaves its file, and what is of another file stays. -/
structure MovesInOrder (remap : IdentityRemap) (file : FileId) (I : Identity → Prop) : Prop
    extends StartsInOrder remap file I where
  other : ∀ i, I i → i.fileId ≠ file → remap.image i = i
  fileId_image : ∀ i, I i → i.fileId = file → (remap.image i).fileId = file

/-- The types that name identities of a set only. -/
def NamesOnly (I : Identity → Prop) (t : LuaType) : Prop := ∀ i, Names i t → I i

theorem NamesOnly.child {I : Identity → Prop} {s t : LuaType} (ht : NamesOnly I t)
    (hs : s ∈ t.children) : NamesOnly I s :=
  fun i hi => ht i (hi.of_child hs)

theorem NamesOnly.within {I : Identity → Prop} {s t : LuaType} (ht : NamesOnly I t)
    (hs : Within s t) : NamesOnly I s := by
  rintro i ⟨u, hu, hi⟩
  exact ht i ⟨u, hu.trans hs, hi⟩

theorem namesOnly_iff (I : Identity → Prop) (t : LuaType) :
    NamesOnly I t ↔ (∀ i, ownIdentity t = some i → I i) ∧ ∀ s ∈ t.children, NamesOnly I s := by
  constructor
  · intro ht
    exact ⟨fun i hi => ht i ((names_iff i t).2 (.inl hi)), fun s hs => ht.child hs⟩
  · rintro ⟨hown, hchildren⟩ i hi
    rcases (names_iff i t).1 hi with hi | ⟨s, hs, hi⟩
    · exact hown i hi
    · exact hchildren s hs i hi

section

variable {remap : IdentityRemap} {file : FileId} {I : Identity → Prop}
variable (hm : MovesInOrder remap file I)

include hm in
theorem MovesInOrder.fileId_eq {i : Identity} (hi : I i) : (remap.image i).fileId = i.fileId := by
  by_cases hfile : i.fileId = file
  · rw [hm.fileId_image i hi hfile, hfile]
  · rw [hm.other i hi hfile]

include hm in
theorem MovesInOrder.start_lt_iff {i j : Identity} (hi : I i) (hj : I j)
    (hij : i.fileId = j.fileId) :
    (remap.image i).start < (remap.image j).start ↔ i.start < j.start := by
  by_cases hfile : i.fileId = file
  · have hfile' : j.fileId = file := hij ▸ hfile
    constructor
    · intro hlt
      rcases Nat.lt_trichotomy i.start j.start with h | h | h
      · exact h
      · have heq := hm.eq i j hi hj hfile hfile' h
        omega
      · have hgt := hm.lt j i hj hi hfile' hfile h
        omega
    · exact hm.lt i j hi hj hfile hfile'
  · have hfile' : j.fileId ≠ file := hij ▸ hfile
    rw [hm.other i hi hfile, hm.other j hj hfile']

include hm in
theorem MovesInOrder.start_eq_iff {i j : Identity} (hi : I i) (hj : I j)
    (hij : i.fileId = j.fileId) :
    (remap.image i).start = (remap.image j).start ↔ i.start = j.start := by
  have hlt := hm.start_lt_iff hi hj hij
  have hgt := hm.start_lt_iff hj hi hij.symm
  omega

/-- The range a range moves to. -/
def IdentityRemap.rangeImage (remap : IdentityRemap) (range : InFiled TextRange) :
    InFiled TextRange :=
  (remap.tableRange range).orOld range

def IdentityRemap.signatureImage (remap : IdentityRemap) (id : LuaSignatureId) : LuaSignatureId :=
  (remap.signatureId id).orOld id

theorem image_signature (remap : IdentityRemap) (id : LuaSignatureId) :
    remap.image (.Signature id) = .Signature (remap.signatureImage id) :=
  Remap.orOld_mapInto Identity.Signature _ id

theorem image_table (remap : IdentityRemap) (range : InFiled TextRange) :
    remap.image (.Table range) = .Table (remap.rangeImage range) :=
  Remap.orOld_mapInto Identity.Table _ range

theorem image_instance (remap : IdentityRemap) (range : InFiled TextRange) :
    remap.image (.Instance range) = .Instance (remap.rangeImage range) :=
  Remap.orOld_mapInto Identity.Instance _ range

/-- The range is one of a table literal or an instance of the set. -/
def RangeIn (I : Identity → Prop) (range : InFiled TextRange) : Prop :=
  ∃ i, I i ∧ i.tableRange = some range

theorem rangeIn_iff (I : Identity → Prop) (range : InFiled TextRange) :
    RangeIn I range ↔ I (.Table range) ∨ I (.Instance range) := by
  constructor
  · rintro ⟨i, hi, hrange⟩
    cases i with
    | Signature id => cases hrange
    | Table range' => cases hrange; exact .inl hi
    | Instance range' => cases hrange; exact .inr hi
  · rintro (hi | hi)
    · exact ⟨_, hi, rfl⟩
    · exact ⟨_, hi, rfl⟩

/-- What a range says as an identity. -/
theorem RangeIn.image {range : InFiled TextRange} (hrange : RangeIn I range)
    (remap : IdentityRemap) :
    ∃ i, I i ∧ i.tableRange = some range ∧ i.fileId = range.fileId ∧ i.start = range.value.start
      ∧ (remap.image i).fileId = (remap.rangeImage range).fileId
      ∧ (remap.image i).start = (remap.rangeImage range).value.start
      ∧ (remap.image i = i ↔ remap.rangeImage range = range) := by
  rcases (rangeIn_iff I range).1 hrange with hi | hi
  · refine ⟨_, hi, rfl, rfl, rfl, ?_⟩
    rw [image_table]
    exact ⟨rfl, rfl, by rw [Identity.Table.injEq]⟩
  · refine ⟨_, hi, rfl, rfl, rfl, ?_⟩
    rw [image_instance]
    exact ⟨rfl, rfl, by rw [Identity.Instance.injEq]⟩

include hm in
/-- No two ranges move to one. -/
theorem MovesInOrder.rangeImage_inj {range range' : InFiled TextRange} (hrange : RangeIn I range)
    (hrange' : RangeIn I range') (heq : remap.rangeImage range = remap.rangeImage range') :
    range = range' := by
  obtain ⟨i, hi, htable, hfile, hstart, hifile, histart, hself⟩ := hrange.image remap
  obtain ⟨j, hj, htable', hfile', hstart', hjfile, hjstart, hself'⟩ := hrange'.image remap
  have hij : i.fileId = j.fileId := by
    rw [← hm.fileId_eq hi, ← hm.fileId_eq hj, hifile, hjfile, heq]
  by_cases hedited : i.fileId = file
  · have hstarts : i.start = j.start := by
      rw [← hm.start_eq_iff hi hj hij, histart, hjstart, heq]
    exact hm.distinct i j range range' hi hj htable htable' (hfile ▸ hedited)
      (hfile' ▸ hij ▸ hedited) (by rw [← hstart, ← hstart', hstarts])
  · have hedited' : j.fileId ≠ file := hij ▸ hedited
    rw [← hself.1 (hm.other i hi hedited), ← hself'.1 (hm.other j hj hedited'), heq]

include hm in
/-- No two signatures move to one. -/
theorem MovesInOrder.signatureImage_inj {id id' : LuaSignatureId} (hid : I (.Signature id))
    (hid' : I (.Signature id')) (heq : remap.signatureImage id = remap.signatureImage id') :
    id = id' := by
  have himage : remap.image (.Signature id) = remap.image (.Signature id') := by
    rw [image_signature, image_signature, heq]
  have hfiles : id.fileId = id'.fileId := by
    have hi := hm.fileId_eq hid
    have hj := hm.fileId_eq hid'
    rw [himage] at hi
    exact hi.symm.trans hj
  have hstarts : id.position = id'.position :=
    (hm.start_eq_iff hid hid' hfiles).1 (by rw [himage])
  cases id
  cases id'
  cases hfiles
  cases hstarts
  rfl

open Classical in
/-- A remap that takes the images of a set of identities back. -/
noncomputable def backRemap (remap : IdentityRemap) (I : Identity → Prop) : IdentityRemap where
  signatureId id :=
    if h : ∃ old, I (.Signature old) ∧ remap.signatureImage old = id then .Moved h.choose
    else .Unrelated
  tableRange range :=
    if h : ∃ old, RangeIn I old ∧ remap.rangeImage old = range then .Moved h.choose
    else .Unrelated

include hm in
theorem backRemap_rangeImage {range : InFiled TextRange} (hrange : RangeIn I range) :
    (backRemap remap I).rangeImage (remap.rangeImage range) = range := by
  have hex : ∃ old, RangeIn I old ∧ remap.rangeImage old = remap.rangeImage range :=
    ⟨range, hrange, rfl⟩
  have hback : (backRemap remap I).tableRange (remap.rangeImage range) = .Moved hex.choose := by
    simp only [backRemap]
    exact dif_pos hex
  rw [rangeImage, hback]
  exact hm.rangeImage_inj hex.choose_spec.1 hrange hex.choose_spec.2

include hm in
theorem backRemap_signatureImage {id : LuaSignatureId} (hid : I (.Signature id)) :
    (backRemap remap I).signatureImage (remap.signatureImage id) = id := by
  have hex : ∃ old, I (.Signature old) ∧ remap.signatureImage old = remap.signatureImage id :=
    ⟨id, hid, rfl⟩
  have hback : (backRemap remap I).signatureId (remap.signatureImage id) = .Moved hex.choose := by
    simp only [backRemap]
    exact dif_pos hex
  rw [signatureImage, hback]
  exact hm.signatureImage_inj hex.choose_spec.1 hid hex.choose_spec.2

include hm in
/-- **Replaced and taken back, a type is what it was.** -/
theorem backRemap_replace (t : LuaType) (ht : NamesOnly I t) :
    (backRemap remap I).replace (remap.replace t) = t := by
  show transform (backRemap remap I).own (transform remap.own t) = t
  rw [transform_transform _ _ remap.onOwn]
  apply transform_eq_self
  intro s hs
  have hown : ∀ i, ownIdentity s = some i → I i := ((namesOnly_iff I s).1 (ht.within hs)).1
  show (backRemap remap I).own (remap.own s) = s
  cases s with
  | Signature id =>
    exact congrArg Signature (backRemap_signatureImage hm (hown _ rfl))
  | TableConst range =>
    exact congrArg TableConst
      (backRemap_rangeImage hm ((rangeIn_iff I range).2 (.inl (hown _ rfl))))
  | Instance base range kind =>
    exact congrArg (fun range => Instance base range kind)
      (backRemap_rangeImage hm ((rangeIn_iff I range).2 (.inr (hown _ rfl))))
  | _ => rfl

include hm in
/-- **Equality of types is kept.** -/
theorem eq_replace (a b : LuaType) (ha : NamesOnly I a) (hb : NamesOnly I b) :
    (remap.replace a).eq (remap.replace b) = a.eq b := by
  rw [Bool.eq_iff_iff]
  constructor
  · intro heq
    have hback := eq_replace_of_eq (backRemap remap I) _ _ heq
    rwa [backRemap_replace hm a ha, backRemap_replace hm b hb] at hback
  · exact eq_replace_of_eq remap a b

end

/-! ## §3. Content apart from positions -/

/-- Every position set to the start of its file: what is left of a type when the positions it
    names are set aside.  The file of a position is content. -/
def blankRemap : IdentityRemap where
  signatureId id := .Moved ⟨id.fileId, 0⟩
  tableRange range := .Moved ⟨range.fileId, ⟨0, 0⟩⟩

/-- The children whose content is hashed: the summary of a string template is its id. -/
def hashedChildren : LuaType → List LuaType
  | .StrTplRef .. => []
  | t => t.children

theorem hashedChildren_subset (t : LuaType) : hashedChildren t ⊆ t.children := by
  intro s hs
  cases t with
  | StrTplRef => cases hs
  | _ => exact hs

/-- The positions a type names, in the order they are hashed. -/
def positions (t : LuaType) : List Identity :=
  ((hashedChildren t).attach.flatMap fun s => positions s.1) ++ (ownIdentity t).toList
termination_by sizeOf t
decreasing_by exact sizeOf_lt_of_mem_children _ _ (hashedChildren_subset _ s.2)

theorem positions_eq (t : LuaType) :
    positions t = (hashedChildren t).flatMap positions ++ (ownIdentity t).toList := by
  rw [positions]
  simp [List.flatMap]

/-- A position as one word, the file first. -/
def packed (i : Identity) : Nat := i.fileId.id.toNat <<< 32 ||| i.start

/-- The hashes a union depends on, `content_detail` as it is computed: `hash` stands for the
    hasher that is given the content.  (The arguments of attributes are literals: they are
    content as they stand.) -/
def contentHashing (set : FxHashSet) (hashStrContent : SmolStr → Nat) (hash : List Word → Nat) :
    Hashing where
  set := set
  hashStrContent := hashStrContent
  contentDetail t :=
    (hash (blankRemap.replace t).hashContent,
      if (positions t).isEmpty then none else some ((positions t).map packed))

theorem names_of_mem_positions (i : Identity) (t : LuaType) (hi : i ∈ positions t) : Names i t := by
  induction t using induction_children with
  | step t ih =>
    rw [positions_eq] at hi
    rcases List.mem_append.1 hi with hi | hi
    · obtain ⟨s, hs, hi⟩ := List.mem_flatMap.1 hi
      exact (ih s (hashedChildren_subset t hs) hi).of_child (hashedChildren_subset t hs)
    · exact (names_iff i t).2 (.inl (Option.mem_toList.1 hi))

theorem hashedChildren_mapChildren (σ : LuaType → LuaType) (t : LuaType) :
    hashedChildren (t.mapChildren σ) = (hashedChildren t).map σ := by
  cases t with
  | StrTplRef => rfl
  | Union union =>
    cases union with
    | Nullable type => exact children_mapChildren σ (.Union (.Nullable type))
    | Multi types => exact children_mapChildren σ (.Union (.Multi types))
  | Variadic variadic =>
    cases variadic with
    | Base type => exact children_mapChildren σ (.Variadic (.Base type))
    | Multi types => exact children_mapChildren σ (.Variadic (.Multi types))
  | DocFunction a c v params o r ret =>
    exact children_mapChildren σ (.DocFunction a c v params o r ret)
  | Object fields access => exact children_mapChildren σ (.Object fields access)
  | Conditional c a b params new => exact children_mapChildren σ (.Conditional c a b params new)
  | Mapped id param value r o => exact children_mapChildren σ (.Mapped id param value r o)
  | TplRef id name c => exact children_mapChildren σ (.TplRef id name c)
  | ConstTplRef id name c => exact children_mapChildren σ (.ConstTplRef id name c)
  | MultiLineUnion unions => exact children_mapChildren σ (.MultiLineUnion unions)
  | DocAttribute params => exact children_mapChildren σ (.DocAttribute params)
  | _ => rfl

section

variable (remap : IdentityRemap) (t : LuaType)

theorem hashedChildren_own : hashedChildren (remap.own t) = hashedChildren t := by
  cases t <;> rfl

theorem hashedChildren_replace :
    hashedChildren (remap.replace t) = (hashedChildren t).map remap.replace := by
  rw [replace_eq, hashedChildren_own, hashedChildren_mapChildren]

/-- The positions of a replaced type are the images of its positions, in their order. -/
theorem positions_replace : positions (remap.replace t) = (positions t).map remap.image := by
  induction t using induction_children with
  | step t ih =>
    have hchildren : (hashedChildren t).flatMap (fun s => positions (remap.replace s))
        = (hashedChildren t).flatMap fun s => (positions s).map remap.image :=
      List.flatMap_congr fun s hs => ih s (hashedChildren_subset t hs)
    have hown : (ownIdentity (remap.replace t)).toList
        = (ownIdentity t).toList.map remap.image := by
      rw [ownIdentity_replace]
      cases ownIdentity t <;> rfl
    rw [positions_eq, positions_eq t, hashedChildren_replace, List.flatMap_map, hchildren, hown,
      List.map_append, List.map_flatMap]

/-- Blanked, an identity is its file. -/
theorem blankRemap_own (hfile : ∀ i, ownIdentity t = some i → (remap.image i).fileId = i.fileId) :
    blankRemap.own (remap.own t) = blankRemap.own t := by
  cases t with
  | Signature id =>
    have hid := hfile _ rfl
    rw [image_signature] at hid
    exact congrArg (fun file => Signature ⟨file, 0⟩) hid
  | TableConst range =>
    have hid := hfile _ rfl
    rw [image_table] at hid
    exact congrArg (fun file => TableConst ⟨file, ⟨0, 0⟩⟩) hid
  | Instance base range kind =>
    have hid := hfile _ rfl
    rw [image_instance] at hid
    exact congrArg (fun file => Instance base ⟨file, ⟨0, 0⟩⟩ kind) hid
  | _ => rfl

/-- Blanked, a replaced type is what it was: its identities have kept their files. -/
theorem blankRemap_replace (hfile : ∀ i, Names i t → (remap.image i).fileId = i.fileId) :
    blankRemap.replace (remap.replace t) = blankRemap.replace t := by
  induction t using induction_children with
  | step t ih =>
    have hchildren : (t.mapChildren remap.replace).mapChildren blankRemap.replace
        = t.mapChildren blankRemap.replace := by
      rw [mapChildren_mapChildren]
      exact mapChildren_congr _ _ t fun s hs => ih s hs fun i hi => hfile i (hi.of_child hs)
    rw [replace_eq blankRemap, replace_eq remap,
      ← remap.onOwn.mapChildren_comm, hchildren, replace_eq blankRemap t,
      blankRemap_own]
    intro i hi
    rw [ownIdentity_mapChildren] at hi
    exact hfile i ((names_iff i t).2 (.inl hi))

end

/-! ## §4. Sort keys -/

theorem packed_eq (i : Identity) (hi : i.start < 2 ^ 32) :
    packed i = i.fileId.id.toNat * 2 ^ 32 + i.start := by
  rw [packed, ← Nat.shiftLeft_add_eq_or_of_lt hi, Nat.shiftLeft_eq]

/-- The words of the positions set aside, as far as there are any. -/
def wordsOf (positions : List Identity) : WithBot (List Nat) :=
  if positions.isEmpty then none else some (positions.map packed)

/-- No positions sort before some, like the empty list. -/
theorem wordsOf_lt_iff (ps qs : List Identity) :
    wordsOf ps < wordsOf qs ↔ ps.map packed < qs.map packed := by
  cases ps with
  | nil =>
    cases qs with
    | nil => exact iff_of_false (lt_irrefl _) (lt_irrefl _)
    | cons q qs => exact iff_of_true (WithBot.bot_lt_coe _) (List.nil_lt_cons _ _)
  | cons p ps =>
    cases qs with
    | nil => exact iff_of_false (not_lt_bot) (List.not_lt_nil _)
    | cons q qs => exact WithBot.coe_lt_coe

section

variable {remap : IdentityRemap} {file : FileId} {I : Identity → Prop}
variable (hm : MovesInOrder remap file I)

include hm in
/-- **Packed positions keep their order**, those of different files too. -/
theorem packed_image_lt_iff {i j : Identity} (hi : I i) (hj : I j) :
    packed (remap.image i) < packed (remap.image j) ↔ packed i < packed j := by
  obtain ⟨hismall, hismall'⟩ := hm.small i hi
  obtain ⟨hjsmall, hjsmall'⟩ := hm.small j hj
  rw [packed_eq i hismall, packed_eq j hjsmall, packed_eq _ hismall', packed_eq _ hjsmall',
    hm.fileId_eq hi, hm.fileId_eq hj]
  by_cases hij : i.fileId = j.fileId
  · have hstarts := hm.start_lt_iff hi hj hij
    rw [hij]
    omega
  · have hne : i.fileId.id.toNat ≠ j.fileId.id.toNat := by
      intro heq
      have hid := UInt32.toNat_inj.1 heq
      exact hij (congrArg FileId.mk hid)
    omega

include hm in
theorem packed_image_eq_iff {i j : Identity} (hi : I i) (hj : I j) :
    packed (remap.image i) = packed (remap.image j) ↔ packed i = packed j := by
  have hlt := packed_image_lt_iff hm hi hj
  have hgt := packed_image_lt_iff hm hj hi
  omega

include hm in
/-- **Lists of positions keep their order.** -/
theorem map_packed_image_lt_iff (ps : List Identity) :
    ∀ qs : List Identity, (∀ i ∈ ps, I i) → (∀ i ∈ qs, I i) →
      ((ps.map remap.image).map packed < (qs.map remap.image).map packed
        ↔ ps.map packed < qs.map packed) := by
  induction ps with
  | nil =>
    intro qs _ _
    cases qs with
    | nil => exact .rfl
    | cons q qs => exact iff_of_true (List.nil_lt_cons _ _) (List.nil_lt_cons _ _)
  | cons p ps ih =>
    intro qs hps hqs
    cases qs with
    | nil => exact iff_of_false (List.not_lt_nil _) (List.not_lt_nil _)
    | cons q qs =>
      have hp : I p := hps p (.head _)
      have hq : I q := hqs q (.head _)
      have hrest := ih qs (List.forall_mem_cons.1 hps).2
        (List.forall_mem_cons.1 hqs).2
      simp only [List.map_cons, List.cons_lt_cons_iff]
      rw [packed_image_lt_iff hm hp hq, packed_image_eq_iff hm hp hq, hrest]

variable (set : FxHashSet) (hashStrContent : SmolStr → Nat) (hash : List Word → Nat)

/-- What a sort key says of a type: a position, or a detail without positions and the list of
    those named. -/
theorem sortDetail_cases (t : LuaType) (ht : NamesOnly I t) :
    (t.sortOrdinal ∈ [13, 38] ∧ ∃ i, I i ∧ ∀ remap' : IdentityRemap,
        (remap'.replace t).sortDetail (contentHashing set hashStrContent hash)
          = (packed (remap'.image i), none)) ∨
    (t.sortOrdinal ∉ [13, 38] ∧ ∃ (detail : Nat) (ps : List Identity), (∀ i ∈ ps, I i) ∧
      ∀ remap' : IdentityRemap, (∀ i, I i → (remap'.image i).fileId = i.fileId) →
        (remap'.replace t).sortDetail (contentHashing set hashStrContent hash)
          = (detail, wordsOf (ps.map remap'.image))) := by
  have hcomposite : (∀ remap' : IdentityRemap,
      (remap'.replace t).sortDetail (contentHashing set hashStrContent hash)
        = (contentHashing set hashStrContent hash).contentDetail (remap'.replace t)) →
      ∃ (detail : Nat) (ps : List Identity), (∀ i ∈ ps, I i) ∧ ∀ remap' : IdentityRemap,
        (∀ i, I i → (remap'.image i).fileId = i.fileId) →
        (remap'.replace t).sortDetail (contentHashing set hashStrContent hash)
          = (detail, wordsOf (ps.map remap'.image)) := by
    intro hdetail
    refine ⟨hash (blankRemap.replace t).hashContent, positions t,
      fun i hi => ht i (names_of_mem_positions i t hi), fun remap' hfile => ?_⟩
    rw [hdetail]
    show (hash _, _) = _
    rw [blankRemap_replace remap' t fun i hi => hfile i (ht i hi), positions_replace]
    rfl
  cases t with
  | Signature id =>
    refine .inl ⟨by simp [sortOrdinal], .Signature id,
      ((namesOnly_iff I _).1 ht).1 _ rfl, fun remap' => ?_⟩
    rw [image_signature]
    rfl
  | TableConst range =>
    refine .inl ⟨by simp [sortOrdinal], .Table range,
      ((namesOnly_iff I _).1 ht).1 _ rfl, fun remap' => ?_⟩
    rw [image_table]
    rfl
  | Union inner | Variadic inner =>
    exact .inr ⟨by simp [sortOrdinal], hcomposite fun remap' => by cases inner <;> rfl⟩
  | Array | TableOf | DocFunction | Tuple | Object | Intersection | MergedTable | Generic
  | TableGeneric | TplRef | StrTplRef | Instance | Call | MultiLineUnion | TypeGuard
  | ConstTplRef | DocAttribute | Conditional | Mapped =>
    exact .inr ⟨by simp [sortOrdinal], hcomposite fun _ => rfl⟩
  | _ =>
    exact .inr ⟨by simp [sortOrdinal], _, [],
      nofun, fun _ _ => rfl⟩

/-- Nothing moves. -/
def stay : IdentityRemap := ⟨fun _ => .Unrelated, fun _ => .Unrelated⟩

theorem image_stay (i : Identity) : stay.image i = i := by cases i <;> rfl

theorem replace_stay (t : LuaType) : stay.replace t = t :=
  (replace_eq_self_iff stay t).2 fun i _ => image_stay i

theorem sortOrdinal_replace (remap : IdentityRemap) (t : LuaType) :
    (remap.replace t).sortOrdinal = t.sortOrdinal := by
  cases t with
  | Union union => cases union <;> rfl
  | Variadic variadic => cases variadic <;> rfl
  | _ => rfl

include hm in
/-- **The order of sort keys is kept.** -/
theorem sortKey_replace_lt_iff (a b : LuaType) (ha : NamesOnly I a) (hb : NamesOnly I b) :
    (remap.replace a).sortKey (contentHashing set hashStrContent hash)
        < (remap.replace b).sortKey (contentHashing set hashStrContent hash)
      ↔ a.sortKey (contentHashing set hashStrContent hash)
        < b.sortKey (contentHashing set hashStrContent hash) := by
  have hkept : ∀ i, I i → (remap.image i).fileId = i.fileId := fun i hi => hm.fileId_eq hi
  have hstay : ∀ i, I i → (stay.image i).fileId = i.fileId := fun i _ => by rw [image_stay]
  simp only [sortKey, Prod.Lex.toLex_lt_toLex, sortOrdinal_replace]
  by_cases hord : a.sortOrdinal = b.sortOrdinal
  · rcases sortDetail_cases set hashStrContent hash a ha with
      ⟨haord, i, hi, hakey⟩ | ⟨haord, detail, ps, hps, hakey⟩
    · rcases sortDetail_cases set hashStrContent hash b hb with
        ⟨hbord, j, hj, hbkey⟩ | ⟨hbord, _⟩
      · have haold := hakey stay
        have hbold := hbkey stay
        rw [replace_stay, image_stay] at haold hbold
        rw [hakey, hbkey, haold, hbold]
        simp only [packed_image_lt_iff hm hi hj, packed_image_eq_iff hm hi hj]
      · exact absurd (hord ▸ haord) hbord
    · rcases sortDetail_cases set hashStrContent hash b hb with
        ⟨hbord, _⟩ | ⟨hbord, detail', qs, hqs, hbkey⟩
      · exact absurd (hord ▸ hbord) haord
      · have haold := hakey stay hstay
        have hbold := hbkey stay hstay
        rw [replace_stay, List.map_congr_left fun i _ => image_stay i, List.map_id'] at haold hbold
        rw [hakey remap hkept, hbkey remap hkept, haold, hbold]
        simp only [wordsOf_lt_iff, map_packed_image_lt_iff hm ps qs hps hqs]
  · simp only [hord, false_and, or_false]

include hm in
theorem sortKey_replace_le_iff (a b : LuaType) (ha : NamesOnly I a) (hb : NamesOnly I b) :
    (remap.replace a).sortKey (contentHashing set hashStrContent hash)
        ≤ (remap.replace b).sortKey (contentHashing set hashStrContent hash)
      ↔ a.sortKey (contentHashing set hashStrContent hash)
        ≤ b.sortKey (contentHashing set hashStrContent hash) := by
  rw [← not_lt, ← not_lt, sortKey_replace_lt_iff hm set hashStrContent hash b a hb ha]

end

end GluaLs.Edit
