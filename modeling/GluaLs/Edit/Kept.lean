/-
  GluaLs.Edit.Kept — the stretches two texts share, and the map between hunks and stretches.

  `kept` lists the stretches between the hunks of a map, `fromKept` rebuilds hunks from the
  gaps between stretches.  Both are read through images here:

    • `keptImage_kept` — the kept stretches of a well-formed map have its images,
    • `wellFormed_fromKept`, `image_fromKept` — the map rebuilt from stretches in order is
      well-formed and has the images of the stretches.
-/
import GluaLs.Edit.Image

namespace GluaLs.Edit

open PositionMap

/-! ## §1. Lists of shared stretches -/

/-- The stretches come after `(o, n)`, in order on both sides, none empty; the last one
    starts equally far before the ends `a` and `b` of the texts. -/
def Shared (a b : Nat) : Nat → Nat → List Stretch → Prop
  | _, _, [] => False
  | o, n, [s] => o ≤ s.old ∧ n ≤ s.new ∧ s.old ≤ a ∧ s.new ≤ b ∧ a - s.old = b - s.new
  | o, n, s :: t :: rest =>
    o ≤ s.old ∧ n ≤ s.new ∧ 0 < s.len ∧ Shared a b (s.old + s.len) (s.new + s.len) (t :: rest)

/-- The last stretch runs to the end of the text. -/
def OpenEnded : List Stretch → Prop
  | [] => True
  | [s] => s.len = OPEN
  | _ :: t :: rest => OpenEnded (t :: rest)

/-- Where the stretches take offset `p`; the last one has no end. -/
def keptImage : List Stretch → Nat → Option Nat
  | [], _ => none
  | [s], p => if p < s.old then none else some (p - s.old + s.new)
  | s :: t :: rest, p =>
    if p < s.old then none
    else if p < s.old + s.len then some (p - s.old + s.new)
    else keptImage (t :: rest) p

theorem Shared.mono (a b o n o' n' : Nat) (ks : List Stretch) (h : Shared a b o n ks)
    (ho : o' ≤ o) (hn : n' ≤ n) : Shared a b o' n' ks := by
  match ks, h with
  | [s], h => exact ⟨by have := h.1; omega, by have := h.2.1; omega, h.2.2⟩
  | s :: t :: rest, h => exact ⟨by have := h.1; omega, by have := h.2.1; omega, h.2.2⟩

theorem Shared.head (a b o n : Nat) (s : Stretch) (rest : List Stretch)
    (h : Shared a b o n (s :: rest)) : o ≤ s.old ∧ n ≤ s.new := by
  cases rest with
  | nil => exact ⟨h.1, h.2.1⟩
  | cons t rest => exact ⟨h.1, h.2.1⟩

theorem Shared.head_le (a b : Nat) (rest : List Stretch) :
    ∀ (o n : Nat) (s : Stretch), Shared a b o n (s :: rest) → s.old ≤ a ∧ s.new ≤ b := by
  induction rest with
  | nil => intro o n s h; exact ⟨h.2.2.1, h.2.2.2.1⟩
  | cons t rest ih =>
    intro o n s h
    obtain ⟨_, _, _, hrest⟩ := h
    have hle := ih (s.old + s.len) (s.new + s.len) t hrest
    have hge := Shared.head a b (s.old + s.len) (s.new + s.len) t rest hrest
    omega

theorem keptImage_before (s : Stretch) (rest : List Stretch) (p : Nat) (hp : p < s.old) :
    keptImage (s :: rest) p = none := by
  cases rest with
  | nil => exact if_pos hp
  | cons t rest => exact if_pos hp

theorem keptImage_inside (s : Stretch) (rest : List Stretch) (p : Nat) (h1 : s.old ≤ p)
    (h2 : p < s.old + s.len) : keptImage (s :: rest) p = some (p - s.old + s.new) := by
  cases rest with
  | nil => exact if_neg (by omega)
  | cons t rest =>
    unfold keptImage
    rw [if_neg (by omega), if_pos h2]

theorem keptImage_behind (s t : Stretch) (rest : List Stretch) (p : Nat)
    (hp : s.old + s.len ≤ p) : keptImage (s :: t :: rest) p = keptImage (t :: rest) p := by
  show (if p < s.old then none else if p < s.old + s.len then some (p - s.old + s.new)
    else keptImage (t :: rest) p) = _
  rw [if_neg (by omega), if_neg (by omega)]

theorem keptImage_last (s : Stretch) (p : Nat) (hp : s.old ≤ p) :
    keptImage [s] p = some (p - s.old + s.new) := if_neg (by omega)

/-- Stretches that come after `o` keep nothing before it. -/
theorem keptImage_lt (a b o n p : Nat) (ks : List Stretch) (h : Shared a b o n ks) (hp : p < o) :
    keptImage ks p = none := by
  cases ks with
  | nil => rfl
  | cons s rest =>
    have hge := Shared.head a b o n s rest h
    exact keptImage_before s rest p (by omega)

/-! ## §2. From hunks to stretches -/

theorem keptFrom_ne_nil (hs : List Hunk) : ∀ (o n : Nat), keptFrom o n hs ≠ [] := by
  induction hs with
  | nil => intro o n h; cases h
  | cons h rest ih =>
    intro o n hnil
    exact ih h.oldEnd h.newEnd (List.append_eq_nil_iff.1 hnil).2

/-- Put a stretch before a non-empty list of stretches. -/
theorem Shared.cons (a b o n : Nat) (s : Stretch) (ks : List Stretch) (hne : ks ≠ [])
    (ho : o ≤ s.old) (hn : n ≤ s.new) (hlen : 0 < s.len)
    (h : Shared a b (s.old + s.len) (s.new + s.len) ks) : Shared a b o n (s :: ks) := by
  cases ks with
  | nil => exact absurd rfl hne
  | cons t rest => exact ⟨ho, hn, hlen, h⟩

theorem OpenEnded.cons (s : Stretch) (ks : List Stretch) (hne : ks ≠ []) (h : OpenEnded ks) :
    OpenEnded (s :: ks) := by
  cases ks with
  | nil => exact absurd rfl hne
  | cons t rest => exact h

/-- The kept stretches of hunks that come after `(o, n)` are in order, end openly, and keep
    exactly what the hunks do. -/
theorem kept_spec (a b : Nat) (hs : List Hunk) :
    ∀ (o n : Nat), From a b o n hs →
      Shared a b o n (keptFrom o n hs) ∧ OpenEnded (keptFrom o n hs)
        ∧ ∀ p, o ≤ p → keptImage (keptFrom o n hs) p = imageFrom o n hs p := by
  induction hs with
  | nil =>
    intro o n hw
    obtain ⟨ho, hn, hgap⟩ := hw
    refine ⟨⟨le_rfl, le_rfl, ho, hn, hgap⟩, rfl, ?_⟩
    intro p hp
    exact keptImage_last ⟨o, n, OPEN⟩ p hp
  | cons h rest ih =>
    intro o n hw
    obtain ⟨ho, hn, hgap, hv, hrest⟩ := hw
    obtain ⟨hsh, hop, himg⟩ := ih h.oldEnd h.newEnd hrest.toFrom
    have hold := hv.old_le
    have hnew := hv.new_le
    have hne := keptFrom_ne_nil rest h.oldEnd h.newEnd
    -- inside the hunk the later stretches keep nothing
    have hinside : ∀ p, h.oldStart ≤ p →
        keptImage (keptFrom h.oldEnd h.newEnd rest) p
          = imageFrom o n (h :: rest) p := by
      intro p hp
      by_cases hend : p < h.oldEnd
      · rw [imageFrom_inside o n p h rest hp hend]
        exact keptImage_lt a b h.oldEnd h.newEnd p _ hsh hend
      · rw [imageFrom_behind o n p h rest hv (by omega)]
        exact himg p (by omega)
    unfold keptFrom
    by_cases hgt : h.oldStart > o
    · rw [if_pos hgt]
      obtain ⟨t, ks, hks⟩ := List.exists_cons_of_ne_nil hne
      refine ⟨?_, OpenEnded.cons _ _ hne hop, ?_⟩
      · apply Shared.cons a b o n _ _ hne le_rfl le_rfl
        · show 0 < h.oldStart - o
          omega
        · apply Shared.mono a b h.oldEnd h.newEnd _ _ _ hsh
          · show o + (h.oldStart - o) ≤ h.oldEnd
            omega
          · show n + (h.oldStart - o) ≤ h.newEnd
            omega
      · intro p hp
        show keptImage (⟨o, n, h.oldStart - o⟩ :: keptFrom h.oldEnd h.newEnd rest) p
          = _
        by_cases hbefore : p < h.oldStart
        · rw [imageFrom_before o n p h rest hbefore]
          apply keptImage_inside _ _ p hp
          show p < o + (h.oldStart - o)
          omega
        · rw [← hinside p (by omega), hks]
          apply keptImage_behind
          show o + (h.oldStart - o) ≤ p
          omega
    · rw [if_neg hgt]
      refine ⟨?_, hop, ?_⟩
      · apply Shared.mono a b h.oldEnd h.newEnd _ _ _ hsh
        · omega
        · omega
      · intro p hp
        exact hinside p (by omega)

section

variable (f : PositionMap) (a b : Nat) (hw : f.WellFormed a b)
include hw

/-- **The kept stretches of a map have the map's images.** -/
theorem keptImage_kept (p : Nat) : keptImage f.kept p = f.image p :=
  (kept_spec a b f.hunks 0 0 hw).2.2 p (Nat.zero_le p)

theorem shared_kept :
    Shared a b 0 0 f.kept := (kept_spec a b f.hunks 0 0 hw).1

theorem openEnded_kept :
    OpenEnded f.kept := (kept_spec a b f.hunks 0 0 hw).2.1

end

/-! ## §3. From stretches to hunks -/

/-- The gaps between stretches, without the empty ones and without saturation. -/
def gapHunks (o n : Nat) : List Stretch → List Hunk
  | [] => []
  | s :: rest =>
    (if o = s.old ∧ n = s.new then [] else [⟨o, s.old, n, s.new⟩])
      ++ gapHunks (s.old + s.len) (s.new + s.len) rest

/-- Hunks apart from the last one pushed are pushed as they are. -/
theorem pushHunk_apart (acc : List Hunk) (h : Hunk)
    (hne : ¬ (h.oldStart = h.oldEnd ∧ h.newStart = h.newEnd))
    (hlast : ∀ last ∈ acc.getLast?, last.oldEnd < h.oldStart ∧ last.newEnd < h.newStart) :
    pushHunk acc h = acc ++ [h] := by
  unfold pushHunk
  rw [if_neg hne]
  cases hl : acc.getLast? with
  | none => rfl
  | some last =>
    have hlt := hlast last (by rw [hl]; rfl)
    show (if last.oldEnd ≥ h.oldStart ∨ last.newEnd ≥ h.newStart then _ else _) = _
    rw [if_neg (by omega)]

/-- Stretches are never empty, so the gaps between them are apart: `from_hunks` only drops
    the empty ones. -/
theorem foldl_gapsFrom (a b : Nat) (ha : a ≤ OPEN) (hb : b ≤ OPEN) (ks : List Stretch) :
    ∀ (o n : Nat) (acc : List Hunk), Shared a b o n ks →
      (∀ last ∈ acc.getLast?, last.oldEnd < o ∧ last.newEnd < n) →
      (gapsFrom o n ks).foldl pushHunk acc = acc ++ gapHunks o n ks := by
  induction ks with
  | nil => intro o n acc h _; exact h.elim
  | cons s rest ih =>
    intro o n acc hsh hacc
    have hpush : pushHunk acc ⟨o, s.old, n, s.new⟩
        = acc ++ (if o = s.old ∧ n = s.new then [] else [⟨o, s.old, n, s.new⟩]) := by
      split_ifs with he
      · show (if o = s.old ∧ n = s.new then acc else _) = _
        rw [if_pos he, List.append_nil]
      · exact pushHunk_apart acc ⟨o, s.old, n, s.new⟩ he hacc
    show (gapsFrom (saturatingAdd s.old s.len) (saturatingAdd s.new s.len) rest).foldl
      pushHunk (pushHunk acc ⟨o, s.old, n, s.new⟩) = _
    rw [hpush]
    cases rest with
    | nil =>
      show _ = acc ++ (_ ++ [])
      rw [List.append_nil]
      rfl
    | cons t rest =>
      obtain ⟨_, _, hlen, hrest⟩ := hsh
      have hle := Shared.head_le a b rest (s.old + s.len) (s.new + s.len) t hrest
      have hge := Shared.head a b (s.old + s.len) (s.new + s.len) t rest hrest
      rw [saturatingAdd_of_lt _ _ (by omega), saturatingAdd_of_lt _ _ (by omega),
        ih _ _ _ hrest, List.append_assoc]
      · rfl
      · -- whichever hunk was pushed last, the stretch `s` parts it from the next gap
        intro last hlast
        split_ifs at hlast with he
        · rw [List.append_nil] at hlast
          have := hacc last hlast
          omega
        · rw [List.getLast?_append_of_ne_nil _ (List.cons_ne_nil _ _)] at hlast
          have hl : (⟨o, s.old, n, s.new⟩ : Hunk) = last := Option.some.inj hlast
          subst hl
          show s.old < s.old + s.len ∧ s.new < s.new + s.len
          omega

theorem gapHunks_cons_of_empty (o n : Nat) (s : Stretch) (rest : List Stretch)
    (h : o = s.old ∧ n = s.new) :
    gapHunks o n (s :: rest) = gapHunks (s.old + s.len) (s.new + s.len) rest := by
  show (if o = s.old ∧ n = s.new then _ else _) ++ _ = _
  rw [if_pos h]
  rfl

theorem gapHunks_cons_of_ne (o n : Nat) (s : Stretch) (rest : List Stretch)
    (h : ¬ (o = s.old ∧ n = s.new)) :
    gapHunks o n (s :: rest)
      = ⟨o, s.old, n, s.new⟩ :: gapHunks (s.old + s.len) (s.new + s.len) rest := by
  show (if o = s.old ∧ n = s.new then _ else _) ++ _ = _
  rw [if_neg h]
  rfl

/-- The gap hunks behind a stretch that runs from `(o', n')` to `(o, n)`: well-formed, with
    the images of the stretches from `o` on. -/
theorem gapHunks_spec (a b : Nat) (ks : List Stretch) :
    ∀ (o n o' n' : Nat), Shared a b o n ks → o' < o → n' < n → o - o' = n - n' →
      After a b o' n' (gapHunks o n ks)
        ∧ (∀ p, o' ≤ p → p < o → imageFrom o' n' (gapHunks o n ks) p = some (p - o' + n'))
        ∧ ∀ p, o ≤ p → imageFrom o' n' (gapHunks o n ks) p = keptImage ks p := by
  induction ks with
  | nil => intro o n o' n' h; exact h.elim
  | cons s rest ih =>
    intro o n o' n' hsh ho hn hgap
    have hhead := Shared.head a b o n s rest hsh
    by_cases he : o = s.old ∧ n = s.new
    · -- no gap: the stretches run together, and the hunks go on from `(o', n')`
      rw [gapHunks_cons_of_empty o n s rest he]
      cases rest with
      | nil =>
        obtain ⟨_, _, hoa, hnb, htail⟩ := hsh
        refine ⟨⟨by omega, by omega, by omega⟩, fun p _ _ => rfl, ?_⟩
        intro p hp
        rw [keptImage_last s p (by omega)]
        show some (p - o' + n') = some (p - s.old + s.new)
        congr 1
        omega
      | cons t rest =>
        obtain ⟨_, _, hlen, hrest⟩ := hsh
        obtain ⟨hafter, hbefore, hon⟩ :=
          ih (s.old + s.len) (s.new + s.len) o' n' hrest (by omega) (by omega) (by omega)
        refine ⟨hafter, fun p h1 h2 => hbefore p h1 (by omega), ?_⟩
        intro p hp
        by_cases hin : p < s.old + s.len
        · rw [hbefore p (by omega) hin, keptImage_inside s _ p (by omega) hin]
          congr 1
          omega
        · rw [hon p (by omega), keptImage_behind s t rest p (by omega)]
    · rw [gapHunks_cons_of_ne o n s rest he]
      have hv : Hunk.Valid ⟨o, s.old, n, s.new⟩ := by
        refine ⟨hhead.1, hhead.2, ?_⟩
        show o < s.old ∨ n < s.new
        omega
      have hgapOpen : ∀ p, o' ≤ p → p < o →
          imageFrom o' n'
            (⟨o, s.old, n, s.new⟩ :: gapHunks (s.old + s.len) (s.new + s.len) rest) p
            = some (p - o' + n') := fun p _ h2 => imageFrom_before o' n' p _ _ h2
      cases rest with
      | nil =>
        obtain ⟨_, _, hoa, hnb, htail⟩ := hsh
        refine ⟨⟨ho, hn, hgap, hv, hoa, hnb, htail⟩, hgapOpen, ?_⟩
        intro p hp
        by_cases hin : p < s.old
        · rw [imageFrom_inside o' n' p _ _ hp hin, keptImage_before s _ p hin]
        · rw [imageFrom_behind o' n' p _ _ hv (by show s.old ≤ p; omega),
            keptImage_last s p (by omega)]
          rfl
      | cons t rest =>
        obtain ⟨_, _, hlen, hrest⟩ := hsh
        obtain ⟨hafter, hbefore, hon⟩ :=
          ih (s.old + s.len) (s.new + s.len) s.old s.new hrest (by omega) (by omega) (by omega)
        refine ⟨⟨ho, hn, hgap, hv, hafter⟩, hgapOpen, ?_⟩
        intro p hp
        by_cases hin : p < s.old
        · rw [imageFrom_inside o' n' p _ _ hp hin, keptImage_before s _ p hin]
        · rw [imageFrom_behind o' n' p _ _ hv (by show s.old ≤ p; omega)]
          show imageFrom s.old s.new (gapHunks (s.old + s.len) (s.new + s.len) (t :: rest)) p
            = _
          by_cases hlt : p < s.old + s.len
          · rw [hbefore p (by omega) hlt, keptImage_inside s _ p (by omega) hlt]
          · rw [hon p (by omega), keptImage_behind s t rest p (by omega)]

/-- The hunks behind a first stretch `s`, which start after it. -/
theorem gapHunks_behind (a b o n : Nat) (s : Stretch) (rest : List Stretch)
    (hsh : Shared a b o n (s :: rest)) :
    After a b s.old s.new (gapHunks (s.old + s.len) (s.new + s.len) rest) ∧ ∀ p, s.old ≤ p →
        imageFrom s.old s.new (gapHunks (s.old + s.len) (s.new + s.len) rest) p
          = keptImage (s :: rest) p := by
  cases rest with
  | nil =>
    obtain ⟨_, _, hoa, hnb, htail⟩ := hsh
    refine ⟨⟨hoa, hnb, htail⟩, ?_⟩
    intro p hp
    rw [keptImage_last s p hp]
    rfl
  | cons t rest =>
    obtain ⟨_, _, hlen, hrest⟩ := hsh
    obtain ⟨hafter, hbefore, hon⟩ := gapHunks_spec a b (t :: rest) (s.old + s.len)
      (s.new + s.len) s.old s.new hrest (by omega) (by omega) (by omega)
    refine ⟨hafter, ?_⟩
    intro p hp
    by_cases hlt : p < s.old + s.len
    · rw [hbefore p hp hlt, keptImage_inside s _ p hp hlt]
    · rw [hon p (by omega), keptImage_behind s t rest p (by omega)]

/-- The gap hunks from the start of the texts are well-formed and keep what the stretches
    do. -/
theorem gapHunks_start (a b : Nat) (ks : List Stretch) (hsh : Shared a b 0 0 ks) :
    From a b 0 0 (gapHunks 0 0 ks) ∧ ∀ p, imageFrom 0 0 (gapHunks 0 0 ks) p = keptImage ks p := by
  cases ks with
  | nil => exact hsh.elim
  | cons s rest =>
    have hhead := Shared.head a b 0 0 s rest hsh
    obtain ⟨hafter, himg⟩ := gapHunks_behind a b 0 0 s rest hsh
    by_cases he : 0 = s.old ∧ 0 = s.new
    · rw [gapHunks_cons_of_empty 0 0 s rest he]
      rw [← he.1, ← he.2] at hafter himg ⊢
      exact ⟨hafter.toFrom, fun p => himg p (Nat.zero_le p)⟩
    · rw [gapHunks_cons_of_ne 0 0 s rest he]
      have hv : Hunk.Valid ⟨0, s.old, 0, s.new⟩ := by
        refine ⟨hhead.1, hhead.2, ?_⟩
        show 0 < s.old ∨ 0 < s.new
        omega
      refine ⟨⟨le_rfl, le_rfl, rfl, hv, hafter⟩, ?_⟩
      intro p
      by_cases hin : p < s.old
      · rw [imageFrom_inside 0 0 p _ _ (Nat.zero_le p) hin, keptImage_before s _ p hin]
      · rw [imageFrom_behind 0 0 p _ _ hv (by show s.old ≤ p; omega)]
        exact himg p (by omega)

section

variable (a b : Nat) (ha : a ≤ OPEN) (hb : b ≤ OPEN) (ks : List Stretch) (hsh : Shared a b 0 0 ks)
include ha hb hsh

theorem hunks_fromKept : (fromKept ks).hunks = gapHunks 0 0 ks := by
  show (gapsFrom 0 0 ks).foldl pushHunk [] = _
  rw [foldl_gapsFrom a b ha hb ks 0 0 [] hsh nofun]
  rfl

/-- **Rebuilding hunks from stretches in order gives a well-formed map** ... -/
theorem wellFormed_fromKept : (fromKept ks).WellFormed a b := by
  show From a b 0 0 (fromKept ks).hunks
  rw [hunks_fromKept a b ha hb ks hsh]
  exact (gapHunks_start a b ks hsh).1

/-- ... with the images of the stretches. -/
theorem image_fromKept (p : Nat) : (fromKept ks).image p = keptImage ks p := by
  show imageFrom 0 0 (fromKept ks).hunks p = _
  rw [hunks_fromKept a b ha hb ks hsh]
  exact (gapHunks_start a b ks hsh).2 p

end

end GluaLs.Edit
