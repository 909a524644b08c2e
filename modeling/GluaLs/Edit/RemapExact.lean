/-
  GluaLs.Edit.RemapExact — rewriting a stored type moves every identity it names
  (`remap_identities_in_type` of `db_index/type/mod.rs`).

  Main results:

    • a type is lost exactly if an identity in it is (`lost_iff`);
    • otherwise what it becomes is the type with every identity replaced by its image
      (`remappedBy_eq_replace`), where the images of a merged table's members and of an
      object's fields are still in their order;
    • it is reported as changed exactly if an identity moved or a NaN is compared
      (`changedBy_iff`);
    • one remap after the other is their composition (`remappedBy_andThen`).

  The order is a condition because a merged table and a field map are put in order when they
  are built (`rebuilt`): a remap that swaps the members of a merged table gives the old table.
-/
import GluaLs.Edit.RemapStep
import GluaLs.Types.Equality

namespace GluaLs.Edit

open GluaLs.Lib GluaLs.Types IdentityRemap Remap
open GluaLs.Types.LuaType
open TypeRemapResult

/-! ## §1. Identities of other files -/

section

open FileRemap

theorem resolve_unrelated (remap : FileRemap) {T : Type} (beforeTheHunk : Bool)
    (occupied : FileFacts → Bool) (exist : FileFacts → T → Bool) :
    remap.resolve .Unrelated beforeTheHunk occupied exist = .Unrelated := by
  unfold resolve
  cases remap.facts <;> rfl

theorem pos_unrelated (remap : FileRemap) (file : FileId) (position : Nat)
    (hfile : file ≠ remap.fileId) : remap.pos file position = .Unrelated := if_neg hfile

theorem range_unrelated (remap : FileRemap) (file : FileId) (range : TextRange)
    (hfile : file ≠ remap.fileId) : remap.range file range = .Unrelated := if_neg hfile

theorem remapped_of_other_file (remap : FileRemap) (i : Identity)
    (hfile : i.fileId ≠ remap.fileId) : remap.identities.remapped i = .Unrelated := by
  have htable : ∀ range : InFiled TextRange, range.fileId ≠ remap.fileId →
      remap.tableRange range = .Unrelated := by
    intro range hrange
    rw [FileRemap.tableRange, range_unrelated remap _ _ hrange]
    exact resolve_unrelated remap _ _ _
  cases i with
  | Signature id =>
    have hid : remap.signatureId id = .Unrelated := by
      rw [FileRemap.signatureId, pos_unrelated remap id.fileId _ hfile]
      exact resolve_unrelated remap _ _ _
    exact congrArg (Remap.mapInto Identity.Signature) hid
  | Table range => exact congrArg (Remap.mapInto Identity.Table) (htable range hfile)
  | Instance range => exact congrArg (Remap.mapInto Identity.Instance) (htable range hfile)

end

/-! ## §2. Lost -/

section

variable (h : Hashing) (remap : IdentityRemap)

theorem ofParts_lost (lost changed : Bool) (t : LuaType) :
    (ofParts lost changed t).lost = lost := by
  cases lost <;> cases changed <;> rfl

theorem lostBy_step (t : LuaType) :
    lostBy h remap t = (remap.ownLost t || t.children.any (lostBy h remap)) := by
  show (remapIdentitiesInType h remap t).lost = _
  rw [remap_step, stepped, ofParts_lost]

/-- **A type is lost exactly if an identity in it is.** -/
theorem lost_iff (t : LuaType) :
    lostBy h remap t = true ↔ ∃ i, Names i t ∧ remap.loses i = true := by
  induction t using induction_children with
  | step t ih =>
    rw [lostBy_step, Bool.or_eq_true, List.any_eq_true, ownLost, Option.any_eq_true]
    constructor
    · rintro (⟨i, hi, hlost⟩ | ⟨s, hs, hlost⟩)
      · exact ⟨i, (names_iff i t).2 (.inl hi), hlost⟩
      · obtain ⟨i, hi, hlost⟩ := (ih s hs).1 hlost
        exact ⟨i, hi.of_child hs, hlost⟩
    · rintro ⟨i, hi, hlost⟩
      rcases (names_iff i t).1 hi with hi | ⟨s, hs, hi⟩
      · exact .inl ⟨i, hi, hlost⟩
      · exact .inr ⟨s, hs, (ih s hs).2 ⟨i, hi, hlost⟩⟩

theorem lostBy_child {s t : LuaType} (hs : s ∈ t.children) (hlost : lostBy h remap t = false) :
    lostBy h remap s = false := by
  rw [lostBy_step, Bool.or_eq_false_iff] at hlost
  exact Bool.not_eq_true _ ▸ List.any_eq_false.1 hlost.2 s hs

/-! ## §3. Replaced -/

/-- Built by its constructors: every merged table, field map and list of flags in it is the
    one they make of what is inside. -/
def WellBuilt (t : LuaType) : Prop := ∀ s, Within s t → rebuilt h s = s

variable {h} in
theorem WellBuilt.child {s t : LuaType} (ht : WellBuilt h t) (hs : s ∈ t.children) :
    WellBuilt h s :=
  fun u hu => ht u (.child hs hu)

theorem ownIdentity_mapChildren (σ : LuaType → LuaType) (t : LuaType) :
    ownIdentity (t.mapChildren σ) = ownIdentity t := by
  cases t with
  | Union union => cases union <;> rfl
  | Variadic variadic => cases variadic <;> rfl
  | _ => rfl

theorem children_replace (t : LuaType) :
    (remap.replace t).children = t.children.map remap.replace := by
  rw [replace_eq, remap.onOwn.children_eq, children_mapChildren]

theorem ownIdentity_replace (t : LuaType) :
    ownIdentity (remap.replace t) = (ownIdentity t).map remap.image := by
  rw [replace_eq, ownIdentity_own, ownIdentity_mapChildren]

/-- **Replacing leaves a type as it is exactly if none of its identities moves.** -/
theorem replace_eq_self_iff (t : LuaType) :
    remap.replace t = t ↔ ∀ i, Names i t → remap.image i = i := by
  constructor
  · intro heq
    induction t using induction_children with
    | step t ih =>
      intro i hi
      rcases (names_iff i t).1 hi with hi | ⟨s, hs, hi⟩
      · have hown := ownIdentity_replace remap t
        rw [heq, hi] at hown
        exact (Option.some.inj hown).symm
      · -- the children of the type are its replaced children, in the same order
        have hchildren := children_replace remap t
        rw [heq] at hchildren
        exact ih s hs
          (List.map_inj_left.1 (hchildren.symm.trans (List.map_id _).symm) s hs) i hi
  · intro himage
    apply transform_eq_self
    intro s hs
    exact (remap.own_eq_self_iff s).2 fun i hi => himage i ⟨s, hs, hi⟩

/-! ## §4. Compared with what it was

A child that equals what it became has not moved: everything but its identities is literally
the same. -/

theorem ownIdentity_of_eq (a b : LuaType) (heq : a.eq b = true) :
    ownIdentity a = ownIdentity b := by
  unfold LuaType.eq at heq
  split at heq
  all_goals try rfl
  all_goals try cases heq
  · next range range' => exact congrArg (fun range => some (Identity.Table range)) (eq_of_beq heq)
  · next id id' => exact congrArg (fun id => some (Identity.Signature id)) (eq_of_beq heq)
  · next base range kind base' range' kind' =>
      simp only [Bool.and_eq_true] at heq
      exact congrArg (fun range => some (Identity.Instance range)) (eq_of_beq heq.1.2)

/-- A rewritten type that equals the old one has the old identity and equal children. -/
theorem eq_step (σ : LuaType → LuaType) (t : LuaType)
    (heq : (remap.own (t.mapChildren σ)).eq t = true) :
    (∀ i, ownIdentity t = some i → remap.image i = i) ∧ ∀ s ∈ t.children, (σ s).eq s = true := by
  constructor
  · intro i hi
    have hown := ownIdentity_of_eq _ _ heq
    rw [ownIdentity_own, ownIdentity_mapChildren, hi] at hown
    exact Option.some.inj hown
  · rw [(splits _).eq_eq, Bool.and_eq_true, remap.onOwn.children_eq, children_mapChildren] at heq
    exact listEq_map_self t.children heq.2

/-- **A type that equals what it was has not moved.** -/
theorem replace_eq_self_of_eq (t : LuaType) (heq : (remap.replace t).eq t = true) :
    remap.replace t = t := by
  rw [replace_eq_self_iff]
  induction t using induction_children with
  | step t ih =>
    rw [replace_eq] at heq
    obtain ⟨hown, hchildren⟩ := eq_step remap remap.replace t heq
    intro i hi
    rcases (names_iff i t).1 hi with hi | ⟨s, hs, hi⟩
    · exact hown i hi
    · exact ih s hs (hchildren s hs) i hi

theorem typ_step (t : LuaType) (hlost : lostBy h remap t = false) :
    (remapIdentitiesInType h remap t).typ
      = if remap.ownChanges t || (tracked t).any (changedBy h remap)
            || (compared t).any (differsBy h remap) then
          some (rebuilt h (remap.own (t.mapChildren (remappedBy h remap))))
        else none := by
  rw [lostBy_step] at hlost
  rw [remap_step, stepped, hlost]
  cases (remap.ownChanges t || (tracked t).any (changedBy h remap)
    || (compared t).any (differsBy h remap)) <;> rfl

theorem changedBy_step (t : LuaType) (hlost : lostBy h remap t = false) :
    changedBy h remap t = (remap.ownChanges t || (tracked t).any (changedBy h remap)
      || (compared t).any (differsBy h remap)) := by
  show (remapIdentitiesInType h remap t).typ.isSome = _
  rw [typ_step h remap t hlost]
  cases (remap.ownChanges t || (tracked t).any (changedBy h remap)
    || (compared t).any (differsBy h remap)) <;> rfl

/-- A compared child that does not differ is what it was. -/
theorem remappedBy_of_not_differs (t : LuaType)
    (hreplace : remappedBy h remap t = remap.replace t) (hdiffers : differsBy h remap t = false) :
    remappedBy h remap t = t := by
  have hnow : remappedBy h remap t = (remapIdentitiesInType h remap t).typ.getD t := rfl
  have hcompared : TypeRemapResult.differs (remapIdentitiesInType h remap t) t = false := hdiffers
  rw [TypeRemapResult.differs] at hcompared
  cases htyp : (remapIdentitiesInType h remap t).typ with
  | none => rw [hnow, htyp]; rfl
  | some new =>
    rw [htyp] at hcompared hnow
    have hnew : new = remap.replace t := hnow.symm.trans hreplace
    have heq : (remap.replace t).eq t = true := by
      rw [← hnew]
      simpa using hcompared
    rw [hreplace]
    exact replace_eq_self_of_eq remap t heq

/-- **What a type becomes is the type with every identity replaced**, where merged tables and
    field maps are still in order. -/
theorem remappedBy_eq_replace (t : LuaType) (hlost : lostBy h remap t = false)
    (hold : WellBuilt h t) (hnew : WellBuilt h (remap.replace t)) :
    remappedBy h remap t = remap.replace t := by
  induction t using induction_children with
  | step t ih =>
    have hchild : ∀ s ∈ t.children, remappedBy h remap s = remap.replace s := by
      intro s hs
      refine ih s hs (lostBy_child h remap hs hlost) (hold.child hs) (hnew.child ?_)
      rw [children_replace]
      exact List.mem_map_of_mem hs
    have hbuilt : rebuilt h (remap.own (t.mapChildren (remappedBy h remap)))
        = remap.replace t := by
      rw [mapChildren_congr _ _ t hchild, ← replace_eq]
      exact hnew _ .here
    show (remapIdentitiesInType h remap t).typ.getD t = _
    rw [typ_step h remap t hlost, hbuilt]
    cases hchanged : (remap.ownChanges t || (tracked t).any (changedBy h remap)
      || (compared t).any (differsBy h remap)) with
    | true => rfl
    | false =>
      -- nothing was noticed: then no child moved, and neither did the type itself
      rw [Bool.or_eq_false_iff, Bool.or_eq_false_iff] at hchanged
      obtain ⟨⟨hown, htracked⟩, hcompared⟩ := hchanged
      have hkeep : ∀ s ∈ t.children, remap.replace s = s := by
        intro s hs
        rw [← hchild s hs]
        rcases (mem_children_iff s t).1 hs with hmem | hmem
        · exact orOld_of_typ_none s (Bool.not_eq_true _ ▸ List.any_eq_false.1 htracked s hmem)
        · exact remappedBy_of_not_differs h remap s (hchild s hs)
            (Bool.not_eq_true _ ▸ List.any_eq_false.1 hcompared s hmem)
      show t = remap.replace t
      rw [replace_eq, mapChildren_eq_self _ t hkeep, eq_comm, own_eq_self_iff]
      intro i hi
      rw [ownChanges, hi] at hown
      simpa [changes] using hown

/-! ## §5. Changed -/

/-- Somewhere in the type a literal NaN is compared with itself. -/
def ComparesNaN (t : LuaType) : Prop :=
  ∃ s, Within s t ∧ ∃ u ∈ compared s, differsFromClone u = true

theorem holds_nan_of_differsFromClone (t : LuaType) (hdiffers : differsFromClone t = true) :
    Holds (fun s => s.isNaN = true) t := by
  induction t using induction_children with
  | step t ih =>
    cases t with
    | FloatConst f => exact .here hdiffers
    | TableOf type =>
      exact .part (.head _) (ih type (.head _) hdiffers)
    | _ => cases hdiffers

theorem holds_of_within {p : LuaType → Prop} {s t : LuaType} (hs : Within s t)
    (hholds : Holds p s) : Holds p t := by
  induction hs with
  | here => exact hholds
  | child hu _ ih => exact .part (children_subset_parts _ hu) ih

theorem ComparesNaN.not_eq_self {t : LuaType} (hnan : ComparesNaN t) : t.eq t = false := by
  obtain ⟨s, hs, u, hu, hdiffers⟩ := hnan
  cases heq : t.eq t with
  | false => rfl
  | true =>
    have hchild : u ∈ s.children := (mem_children_iff u s).2 (.inr hu)
    exact absurd (holds_of_within ((within_of_mem_children hchild).trans hs)
      (holds_nan_of_differsFromClone u hdiffers)) ((eq_self_iff t).1 heq)

theorem comparesNaN_iff (t : LuaType) :
    ComparesNaN t ↔ (∃ u ∈ compared t, differsFromClone u = true)
      ∨ ∃ s ∈ t.children, ComparesNaN s :=
  exists_within_iff (fun s => ∃ u ∈ compared s, differsFromClone u = true) t

/-- A compared child that is what its identities make it differs from its clone if an identity
    moved, or a NaN is compared: in it, or where it is compared itself. -/
theorem differsBy_iff (s : LuaType) (hreplace : remappedBy h remap s = remap.replace s)
    (hchanged : changedBy h remap s = true ↔
      (∃ i, Names i s ∧ remap.image i ≠ i) ∨ ComparesNaN s) :
    differsBy h remap s = true ↔
      ((∃ i, Names i s ∧ remap.image i ≠ i) ∨ ComparesNaN s) ∨ differsFromClone s = true := by
  rw [← hchanged]
  show TypeRemapResult.differs (remapIdentitiesInType h remap s) s = true ↔
    (remapIdentitiesInType h remap s).typ.isSome = true ∨ _
  cases htyp : (remapIdentitiesInType h remap s).typ with
  | none =>
    rw [TypeRemapResult.differs, htyp]
    simp
  | some new =>
    have hnew : (remapIdentitiesInType h remap s).typ.getD s = remap.replace s := hreplace
    rw [htyp, Option.getD_some] at hnew
    have hne : new.eq s = false := by
      cases heq : new.eq s with
      | false => rfl
      | true =>
        have hself := replace_eq_self_of_eq remap s (hnew ▸ heq)
        have hsome : changedBy h remap s = true := Option.isSome_iff_exists.2 ⟨new, htyp⟩
        rcases hchanged.1 hsome with ⟨i, hi, hmoved⟩ | hnan
        · exact absurd ((replace_eq_self_iff remap s).1 hself i hi) hmoved
        · rw [hnew, hself, hnan.not_eq_self] at heq
          cases heq
    rw [TypeRemapResult.differs, htyp]
    simp [hne]

/-- **A type is reported as changed exactly if an identity in it moved or it compares a
    NaN.** -/
theorem changedBy_iff (t : LuaType) (hlost : lostBy h remap t = false) (hold : WellBuilt h t)
    (hnew : WellBuilt h (remap.replace t)) :
    changedBy h remap t = true ↔ (∃ i, Names i t ∧ remap.image i ≠ i) ∨ ComparesNaN t := by
  induction t using induction_children with
  | step t ih =>
    have hnew' : ∀ s ∈ t.children, WellBuilt h (remap.replace s) := by
      intro s hs
      apply hnew.child
      rw [children_replace]
      exact List.mem_map_of_mem hs
    have hchild : ∀ s ∈ t.children, changedBy h remap s = true ↔
        (∃ i, Names i s ∧ remap.image i ≠ i) ∨ ComparesNaN s := fun s hs =>
      ih s hs (lostBy_child h remap hs hlost) (hold.child hs) (hnew' s hs)
    have hcompared : ∀ s ∈ compared t, s ∈ t.children ∧ (differsBy h remap s = true ↔
        ((∃ i, Names i s ∧ remap.image i ≠ i) ∨ ComparesNaN s) ∨ differsFromClone s = true) := by
      intro s hs
      have hmem : s ∈ t.children := (mem_children_iff s t).2 (.inr hs)
      exact ⟨hmem, differsBy_iff h remap s (remappedBy_eq_replace h remap s
        (lostBy_child h remap hmem hlost) (hold.child hmem) (hnew' s hmem)) (hchild s hmem)⟩
    -- what moved in a child moved in the type, and so for a NaN that is compared
    have hup : ∀ s ∈ t.children, ((∃ i, Names i s ∧ remap.image i ≠ i) ∨ ComparesNaN s) →
        (∃ i, Names i t ∧ remap.image i ≠ i) ∨ ComparesNaN t := by
      rintro s hs (⟨i, hi, hmoved⟩ | hnan)
      · exact .inl ⟨i, hi.of_child hs, hmoved⟩
      · exact .inr ((comparesNaN_iff t).2 (.inr ⟨s, hs, hnan⟩))
    rw [changedBy_step h remap t hlost, Bool.or_eq_true, Bool.or_eq_true, List.any_eq_true,
      List.any_eq_true, ownChanges, Option.any_eq_true]
    constructor
    · rintro ((⟨i, hi, hmoved⟩ | ⟨s, hs, hmoved⟩) | ⟨s, hs, hmoved⟩)
      · exact .inl ⟨i, (names_iff i t).2 (.inl hi), by simpa [changes] using hmoved⟩
      · have hmem : s ∈ t.children := (mem_children_iff s t).2 (.inl hs)
        exact hup s hmem ((hchild s hmem).1 hmoved)
      · rcases (hcompared s hs).2.1 hmoved with hmoved | hclone
        · exact hup s (hcompared s hs).1 hmoved
        · exact .inr ((comparesNaN_iff t).2 (.inl ⟨s, hs, hclone⟩))
    · have hdown : ∀ s ∈ t.children, changedBy h remap s = true →
          ((∃ i ∈ ownIdentity t, remap.changes i = true) ∨
            ∃ s ∈ tracked t, changedBy h remap s = true) ∨
            ∃ s ∈ compared t, differsBy h remap s = true := by
        intro s hs hmoved
        rcases (mem_children_iff s t).1 hs with hmem | hmem
        · exact .inl (.inr ⟨s, hmem, hmoved⟩)
        · exact .inr ⟨s, hmem, (hcompared s hmem).2.2 (.inl ((hchild s hs).1 hmoved))⟩
      rintro (⟨i, hi, hne⟩ | hnan)
      · rcases (names_iff i t).1 hi with hi | ⟨s, hs, hi⟩
        · exact .inl (.inl ⟨i, hi, by simpa [changes] using hne⟩)
        · exact hdown s hs ((hchild s hs).2 (.inl ⟨i, hi, hne⟩))
      · rcases (comparesNaN_iff t).1 hnan with ⟨s, hs, hclone⟩ | ⟨s, hs, hnan⟩
        · exact .inr ⟨s, hs, (hcompared s hs).2.2 (.inr hclone)⟩
        · exact hdown s hs ((hchild s hs).2 (.inr hnan))

end

/-! ## §6. One remap after the other -/

/-- One step of a journey after another, the second asked about where the first ended. -/
def Remap.andThen {T : Type} (first : Remap T) (second : T → Remap T) (old : T) : Remap T :=
  match first with
  | .Lost => .Lost
  | .Unrelated => second old
  | .Moved new =>
    match second new with
    | .Unrelated => .Moved new
    | remapped => remapped

theorem Remap.andThen_eq_lost_iff {T : Type} (first : Remap T) (second : T → Remap T) (old : T) :
    first.andThen second old = .Lost ↔ first = .Lost ∨ second (first.orOld old) = .Lost := by
  cases first with
  | Lost => simp [andThen]
  | Unrelated => simp [andThen, orOld]
  | Moved new =>
    simp only [andThen, orOld, reduceCtorEq, false_or]
    cases second new <;> simp

theorem Remap.orOld_andThen {T : Type} (first : Remap T) (second : T → Remap T) (old : T)
    (hkept : first.andThen second old ≠ .Lost) :
    (first.andThen second old).orOld old = (second (first.orOld old)).orOld (first.orOld old) := by
  cases first with
  | Lost => exact absurd rfl hkept
  | Unrelated => rfl
  | Moved new =>
    simp only [andThen, orOld] at hkept ⊢
    cases hsecond : second new with
    | Lost => rw [hsecond] at hkept; exact absurd rfl hkept
    | _ => rfl

theorem Remap.mapInto_eq_lost_iff {T U : Type} (build : T → U) (remapped : Remap T) :
    remapped.mapInto build = .Lost ↔ remapped = .Lost := by
  cases remapped <;> simp [mapInto]

namespace IdentityRemap

/-- The composition of two remaps. -/
def andThen (first second : IdentityRemap) : IdentityRemap where
  signatureId id := (first.signatureId id).andThen second.signatureId id
  tableRange range := (first.tableRange range).andThen second.tableRange range

variable (first second : IdentityRemap)

theorem loses_andThen (i : Identity) :
    (first.andThen second).loses i = (first.loses i || second.loses (first.image i)) := by
  rw [Bool.eq_iff_iff]
  simp only [loses, Bool.or_eq_true, decide_eq_true_eq]
  cases i <;>
    simp only [remapped, image, andThen, mapInto_eq_lost_iff, andThen_eq_lost_iff, orOld_mapInto]

theorem own_andThen (t : LuaType) (hlost : (first.andThen second).ownLost t = false) :
    (first.andThen second).own t = second.own (first.own t) := by
  have hkept : ∀ i, ownIdentity t = some i → (first.andThen second).remapped i ≠ .Lost := by
    intro i hi
    rw [ownLost, hi] at hlost
    simpa [loses] using hlost
  cases t with
  | Signature id =>
    have hid : (first.andThen second).signatureId id ≠ .Lost := fun h =>
      hkept _ rfl ((mapInto_eq_lost_iff _ _).2 h)
    exact congrArg LuaType.Signature (orOld_andThen _ _ id hid)
  | TableConst range =>
    have hrange : (first.andThen second).tableRange range ≠ .Lost := fun h =>
      hkept _ rfl ((mapInto_eq_lost_iff _ _).2 h)
    exact congrArg LuaType.TableConst (orOld_andThen _ _ range hrange)
  | Instance base range kind =>
    have hrange : (first.andThen second).tableRange range ≠ .Lost := fun h =>
      hkept _ rfl ((mapInto_eq_lost_iff _ _).2 h)
    exact congrArg (fun range => LuaType.Instance base range kind)
      (orOld_andThen _ _ range hrange)
  | _ => rfl

/-- **Replacing twice is replacing by the composition**, where nothing is lost. -/
theorem replace_andThen (t : LuaType)
    (hlost : ∀ i, Names i t → (first.andThen second).loses i = false) :
    second.replace (first.replace t) = (first.andThen second).replace t := by
  show transform second.own (transform first.own t) = _
  rw [transform_transform _ _ first.onOwn]
  induction t using induction_children with
  | step t ih =>
    have hchildren : t.mapChildren (transform (second.own ∘ first.own))
        = t.mapChildren (first.andThen second).replace :=
      mapChildren_congr _ _ t fun s hs => ih s hs fun i hi => hlost i (hi.of_child hs)
    rw [transform_eq, hchildren, replace_eq]
    refine (own_andThen first second _ ?_).symm
    rw [ownLost, ownIdentity_mapChildren]
    cases hi : ownIdentity t with
    | none => rfl
    | some i => exact hlost i ((names_iff i t).2 (.inl hi))

end IdentityRemap

/-- The identities of a replaced type are the images of its identities. -/
theorem names_replace_iff (remap : IdentityRemap) (i : Identity) (t : LuaType) :
    Names i (remap.replace t) ↔ ∃ j, Names j t ∧ i = remap.image j := by
  constructor
  · rintro ⟨s, hs, hi⟩
    obtain ⟨u, hu, rfl⟩ := (within_transform_iff _ remap.onOwn s t).1 hs
    have hown := ownIdentity_replace remap u
    cases hj : ownIdentity u with
    | none =>
      rw [hj, show ownIdentity (remap.replace u) = some i from hi] at hown
      cases hown
    | some j =>
      rw [hj, show ownIdentity (remap.replace u) = some i from hi] at hown
      exact ⟨j, ⟨u, hu, hj⟩, Option.some.inj hown⟩
  · rintro ⟨j, ⟨u, hu, hj⟩, rfl⟩
    refine ⟨remap.replace u, (within_transform_iff _ remap.onOwn _ t).2 ⟨u, hu, rfl⟩, ?_⟩
    rw [ownIdentity_replace, hj]
    rfl

section

variable (h : Hashing) (first second : IdentityRemap)

/-- **The composition loses what one of the two loses.** -/
theorem lostBy_andThen (t : LuaType) (hlost : lostBy h first t = false) :
    lostBy h (first.andThen second) t = lostBy h second (first.replace t) := by
  have hkept : ∀ i, Names i t → first.loses i = false := by
    intro i hi
    cases hi' : first.loses i with
    | false => rfl
    | true => rw [(lost_iff h first t).2 ⟨i, hi, hi'⟩] at hlost; cases hlost
  rw [Bool.eq_iff_iff, lost_iff, lost_iff]
  constructor
  · rintro ⟨i, hi, hlose⟩
    rw [loses_andThen, hkept i hi, Bool.false_or] at hlose
    exact ⟨first.image i, (names_replace_iff first _ t).2 ⟨i, hi, rfl⟩, hlose⟩
  · rintro ⟨i, hi, hlose⟩
    obtain ⟨j, hj, rfl⟩ := (names_replace_iff first i t).1 hi
    exact ⟨j, hj, by rw [loses_andThen, hlose, Bool.or_true]⟩

theorem lostBy_andThen_of_lost (t : LuaType) (hlost : lostBy h first t = true) :
    lostBy h (first.andThen second) t = true := by
  obtain ⟨i, hi, hlose⟩ := (lost_iff h first t).1 hlost
  exact (lost_iff h _ t).2 ⟨i, hi, by rw [loses_andThen, hlose, Bool.true_or]⟩

/-- **One remap after the other is their composition.** -/
theorem remappedBy_andThen (t : LuaType) (hlost : lostBy h (first.andThen second) t = false)
    (hold : WellBuilt h t) (hmid : WellBuilt h (first.replace t))
    (hnew : WellBuilt h ((first.andThen second).replace t)) :
    remappedBy h second (remappedBy h first t) = remappedBy h (first.andThen second) t := by
  have hkept : ∀ i, Names i t → (first.andThen second).loses i = false := by
    intro i hi
    cases hi' : (first.andThen second).loses i with
    | false => rfl
    | true => rw [(lost_iff h _ t).2 ⟨i, hi, hi'⟩] at hlost; cases hlost
  have hfirst : lostBy h first t = false := by
    cases hfirst : lostBy h first t with
    | false => rfl
    | true => rw [lostBy_andThen_of_lost h first second t hfirst] at hlost; cases hlost
  have hsecond : lostBy h second (first.replace t) = false := by
    rw [← lostBy_andThen h first second t hfirst, hlost]
  have htwice := replace_andThen first second t hkept
  rw [remappedBy_eq_replace h first t hfirst hold hmid,
    remappedBy_eq_replace h second _ hsecond hmid (htwice ▸ hnew),
    remappedBy_eq_replace h _ t hlost hold hnew, htwice]

end

/-! ## §7. The rewriter as a whole -/

/-- **Remapping a stored type moves every identity it names**: lost, replaced, changed and
    composed. -/
theorem remap_moves_identities (h : Hashing) (remap second : IdentityRemap) (t : LuaType)
    (hold : WellBuilt h t) :
    ((remapIdentitiesInType h remap t).lost = true ↔ ∃ i, Names i t ∧ remap.loses i = true) ∧
    ((remapIdentitiesInType h remap t).lost = false → WellBuilt h (remap.replace t) →
      (remapIdentitiesInType h remap t).orOld t = remap.replace t ∧
      ((remapIdentitiesInType h remap t).typ.isSome = true
        ↔ (∃ i, Names i t ∧ remap.image i ≠ i) ∨ ComparesNaN t) ∧
      (remapIdentitiesInType h (remap.andThen second) t).lost
        = (remapIdentitiesInType h second ((remapIdentitiesInType h remap t).orOld t)).lost ∧
      ((remapIdentitiesInType h (remap.andThen second) t).lost = false →
        WellBuilt h ((remap.andThen second).replace t) →
        (remapIdentitiesInType h second ((remapIdentitiesInType h remap t).orOld t)).orOld
            ((remapIdentitiesInType h remap t).orOld t)
          = (remapIdentitiesInType h (remap.andThen second) t).orOld t)) := by
  refine ⟨lost_iff h remap t, fun hlost hnew => ?_⟩
  have hreplace : (remapIdentitiesInType h remap t).orOld t = remap.replace t :=
    remappedBy_eq_replace h remap t hlost hold hnew
  refine ⟨hreplace, changedBy_iff h remap t hlost hold hnew, ?_, ?_⟩
  · rw [hreplace]
    exact lostBy_andThen h remap second t hlost
  · intro hlost' hnew'
    exact remappedBy_andThen h remap second t hlost' hold hnew hnew'

/-! Two table literals of a file, a remap that swaps them, and an edit that deletes the text
from 9 to 11. -/

def tableLiteral (start : Nat) : InFiled TextRange := ⟨⟨1⟩, ⟨start, start + 2⟩⟩

def swapLiterals : IdentityRemap where
  signatureId _ := .Unrelated
  tableRange range :=
    if range = tableLiteral 10 then .Moved (tableLiteral 20)
    else if range = tableLiteral 20 then .Moved (tableLiteral 10)
    else .Unrelated

def deletion : FileRemap := ⟨⟨1⟩, ⟨[⟨9, 11, 9, 9⟩]⟩, none⟩

/-- A quiet NaN. -/
def nan : F64 := ⟨0x7FF8000000000000⟩

/-- `fun(): nan` -/
def nanReturning : LuaType := .DocFunction .None false false [] [] [] (.FloatConst nan)

theorem within_leaf {s t : LuaType} (ht : t.children = []) : Within s t ↔ s = t := by
  rw [within_iff, ht]
  simp

/-- `[table, fun]` -/
def literalAndFunction (start : Nat) : LuaType :=
  .Tuple [.TableConst (tableLiteral start), .Signature ⟨⟨1⟩, 4⟩] .InferResolve

theorem within_literalAndFunction {s : LuaType} {start : Nat}
    (hs : Within s (literalAndFunction start)) :
    s = literalAndFunction start ∨ s = .TableConst (tableLiteral start)
      ∨ s = .Signature ⟨⟨1⟩, 4⟩ := by
  rcases (within_iff s _).1 hs with rfl | ⟨u, hu, hs⟩
  · exact .inl rfl
  · simp only [literalAndFunction, children, List.mem_cons, List.not_mem_nil, or_false] at hu
    rcases hu with rfl | rfl
    · exact .inr (.inl ((within_leaf rfl).1 hs))
    · exact .inr (.inr ((within_leaf rfl).1 hs))

theorem wellBuilt_literalAndFunction (start : Nat) :
    WellBuilt plainHashing (literalAndFunction start) := by
  intro s hs
  rcases within_literalAndFunction hs with rfl | rfl | rfl <;> rfl

theorem remap_moves_identities_tuple :
    (remapIdentitiesInType plainHashing swapLiterals (literalAndFunction 10)).orOld
        (literalAndFunction 10) = literalAndFunction 20 ∧
    ((remapIdentitiesInType plainHashing swapLiterals (literalAndFunction 10)).typ.isSome = true
      ↔ (∃ i, Names i (literalAndFunction 10) ∧ swapLiterals.image i ≠ i)
        ∨ ComparesNaN (literalAndFunction 10)) := by
  have hmoved := (remap_moves_identities plainHashing swapLiterals swapLiterals
    (literalAndFunction 10) (wellBuilt_literalAndFunction 10)).2 rfl
    (wellBuilt_literalAndFunction 20)
  exact ⟨hmoved.1, hmoved.2.1⟩

/-- `T` with an attribute that takes the literal at 10 -/
def literalInAttribute : LuaType :=
  .Mapped (.Type 0) (.mk "T" none (some [.mk (.Global "a")
    [("x", some (.TableConst (tableLiteral 10)))]])) .Nil false false

/-- **A type without identities is reported as changed, and a lost literal in the argument of
    an attribute as kept.** -/
theorem nan_changes_and_attribute_stays :
    (∀ i, ¬ Names i nanReturning) ∧
    (remapIdentitiesInType plainHashing (FileRemap.identities ⟨⟨1⟩, ⟨[]⟩, none⟩)
        nanReturning).typ = some nanReturning ∧
    Holds (fun s => s = .TableConst (tableLiteral 10)) literalInAttribute ∧
    deletion.identities.loses (.Table (tableLiteral 10)) = true ∧
    (remapIdentitiesInType plainHashing deletion.identities literalInAttribute).lost = false := by
  refine ⟨?_, rfl, .part ?_ (.here rfl), by decide, rfl⟩
  · rintro i ⟨s, hs, hi⟩
    rcases (within_iff s _).1 hs with rfl | ⟨u, hu, hs⟩
    · cases hi
    · rw [List.mem_singleton.1 hu, within_leaf rfl] at hs
      subst hs
      cases hi
  · exact .head _

end GluaLs.Edit
