/-
  GluaLs.Edit.DiffSound — the diff of two texts is sound.

  Every part of the diff produces a script between the points it works on: the pairs of
  edited lines, the stretch between them, a matched line's whitespace.  Their composition is
  a script of the two whole texts, and `from_hunks` makes a well-formed map of it.  Main
  results:

    • `script_hunks` — the raw hunks are a script of the two texts,
    • `new_script` — `PositionMap::new` gives a well-formed map, which is such a script,
    • `new_sound` — **the hunks are in bounds, apart, on character boundaries, share
      everything outside them, and turn the old text into the new one; `map` is increasing
      where its sums are `u32`s and maps a byte to the same byte.**
-/
import GluaLs.Edit.Image
import GluaLs.Edit.MatchLines

namespace GluaLs.Edit

open GluaLs.Lib

open GluaLs.Edit.Diff

/-! ## §1. Scripts

  A SCRIPT from `(o, n)` to `(o', n')` is a list of hunks between these two points such that
  everything between the hunks is the same text on both sides, and every hunk starts and
  ends on a character boundary of both texts.  Scripts compose, so each part of a diff is
  proved to produce one between the points it works on.  Main results:

    • `script_narrowed` — narrowing a mismatch gives a script of it: the bytes cut off at
      either end are shared, and backing off to a boundary stays inside the mismatch,
    • `fromHunks_script` — **`from_hunks` turns any script into a well-formed map** that
      still is one: hunks that touch are merged, and only those.
-/

/-- `o` and `n` are character boundaries of the two texts. -/
def OnBoundary (old new : Bytes) (o n : Nat) : Prop :=
  isCharBoundary old o = true ∧ isCharBoundary new n = true

/-- The hunks lead from `(o, n)` to `(o', n')`, with shared text between them. -/
def Script (old new : Bytes) (o' n' : Nat) : Nat → Nat → List Hunk → Prop
  | o, n, [] => Agree old new o n o' n'
  | o, n, h :: rest =>
    Agree old new o n h.oldStart h.newStart ∧ h.Valid
      ∧ OnBoundary old new h.oldStart h.newStart ∧ OnBoundary old new h.oldEnd h.newEnd
      ∧ Script old new o' n' h.oldEnd h.newEnd rest

section

variable (old new : Bytes)

/-- Shared text before a script extends it. -/
theorem Script.extend (o n o₁ n₁ o' n' : Nat) (hs : List Hunk) (h : Agree old new o n o₁ n₁)
    (hscript : Script old new o' n' o₁ n₁ hs) : Script old new o' n' o n hs := by
  cases hs with
  | nil => exact h.trans old new o n o₁ n₁ o' n' hscript
  | cons hunk rest => exact ⟨h.trans old new o n o₁ n₁ _ _ hscript.1, hscript.2⟩

/-- **Scripts compose.** -/
theorem Script.append (o₁ n₁ o' n' : Nat) (hs hs' : List Hunk) :
    ∀ (o n : Nat), Script old new o₁ n₁ o n hs → Script old new o' n' o₁ n₁ hs' →
      Script old new o' n' o n (hs ++ hs') := by
  induction hs with
  | nil => intro o n h h'; exact h'.extend old new o n o₁ n₁ o' n' hs' h
  | cons hunk rest ih =>
    intro o n h h'
    obtain ⟨h1, h2, h3, h4, hrest⟩ := h
    exact ⟨h1, h2, h3, h4, ih hunk.oldEnd hunk.newEnd hrest h'⟩

theorem Script.le (o' n' : Nat) (hs : List Hunk) :
    ∀ (o n : Nat), Script old new o' n' o n hs → o ≤ o' ∧ n ≤ n' := by
  induction hs with
  | nil =>
    intro o n h
    obtain ⟨len, ho, hn, _⟩ := h
    omega
  | cons hunk rest ih =>
    intro o n h
    obtain ⟨⟨len, ho, hn, _⟩, hv, _, _, hrest⟩ := h
    have := ih hunk.oldEnd hunk.newEnd hrest
    have h1 := hv.old_le
    have h2 := hv.new_le
    omega

/-! ## §2. Narrowing -/

/-- Backing off from `d` bytes past a common boundary stops at a boundary, at the latest
    there. -/
theorem backOff_spec (d : Nat) :
    ∀ (o n : Nat), OnBoundary old new o n →
      ∃ d', d' ≤ d ∧ backOff old new (o + d) (n + d) = (o + d', n + d')
        ∧ OnBoundary old new (o + d') (n + d') := by
  induction d with
  | zero =>
    intro o n hb
    refine ⟨0, le_rfl, ?_, hb⟩
    cases o with
    | zero => rfl
    | succ o =>
      show (if isCharBoundary old (o + 1) && isCharBoundary new n then _ else _) = _
      rw [hb.1, hb.2]
      rfl
  | succ d ih =>
    intro o n hb
    by_cases hstop : isCharBoundary old (o + d + 1) && isCharBoundary new (n + d + 1)
    · refine ⟨d + 1, le_rfl, ?_, ?_⟩
      · show (if isCharBoundary old (o + d + 1) && isCharBoundary new (n + d + 1) then _
          else _) = _
        rw [if_pos hstop]
        rfl
      · rw [Bool.and_eq_true] at hstop
        exact hstop
    · obtain ⟨d', hd', heq, hb'⟩ := ih o n hb
      refine ⟨d', by omega, ?_, hb'⟩
      show (if isCharBoundary old (o + d + 1) && isCharBoundary new (n + d + 1) then _
        else backOff old new (o + d) (n + d + 1 - 1)) = _
      rw [if_neg hstop, Nat.add_sub_cancel]
      exact heq

/-- Going on to a common boundary `d` bytes away stops at a boundary, at the latest there. -/
theorem goOn_spec (left : Nat) :
    ∀ (o n d : Nat), OnBoundary old new (o + d) (n + d) → d ≤ left →
      ∃ d', d' ≤ d ∧ goOn old new left o n = (o + d', n + d')
        ∧ OnBoundary old new (o + d') (n + d') := by
  induction left with
  | zero =>
    intro o n d hb hd
    have hd0 : d = 0 := by omega
    subst hd0
    exact ⟨0, le_rfl, rfl, hb⟩
  | succ left ih =>
    intro o n d hb hd
    by_cases hstop : isCharBoundary old o && isCharBoundary new n
    · refine ⟨0, Nat.zero_le d, ?_, ?_⟩
      · show (if isCharBoundary old o && isCharBoundary new n then _ else _) = _
        rw [if_pos hstop]
        rfl
      · rw [Bool.and_eq_true] at hstop
        exact hstop
    · cases d with
      | zero =>
        exfalso
        apply hstop
        rw [Bool.and_eq_true]
        exact hb
      | succ d =>
        have hb' : OnBoundary old new (o + 1 + d) (n + 1 + d) := by
          rw [show o + 1 + d = o + (d + 1) by omega, show n + 1 + d = n + (d + 1) by omega]
          exact hb
        obtain ⟨d', hd', heq, hb''⟩ := ih (o + 1) (n + 1) d hb' (by omega)
        refine ⟨d' + 1, by omega, ?_, ?_⟩
        · show (if isCharBoundary old o && isCharBoundary new n then _
            else goOn old new left (o + 1) (n + 1)) = _
          rw [if_neg hstop, heq, show o + 1 + d' = o + (d' + 1) by omega,
            show n + 1 + d' = n + (d' + 1) by omega]
        · rw [show o + (d' + 1) = o + 1 + d' by omega, show n + (d' + 1) = n + 1 + d' by omega]
          exact hb''

/-- **Narrowing a mismatch gives a script of it.** -/
theorem script_narrowed (o n o' n' : Nat) (ho : o ≤ o') (hn : n ≤ n') (ho' : o' ≤ old.length)
    (hn' : n' ≤ new.length) (hold : old.length < U32_SIZE) (hnew : new.length < U32_SIZE)
    (hb : OnBoundary old new o n) (hb' : OnBoundary old new o' n') :
    Script old new o' n' o n (narrowed old new (o, o') (n, n')) := by
  unfold narrowed
  simp only
  have hstart := agree_sharedStart old new (min (o' - o) (n' - n)) o n
  have hstartle := sharedStart_le (sameAt old new) (min (o' - o) (n' - n)) o n
  generalize sharedStart (sameAt old new) (min (o' - o) (n' - n)) o n = shared at hstart hstartle
  obtain ⟨d, hd, hback, hbs⟩ := backOff_spec old new shared o n hb
  rw [hback]
  simp only
  have hagree : Agree old new o n (o + d) (n + d) :=
    hstart.take old new o n _ _ d (by omega)
  -- what is cut off at the end starts no earlier than what is cut off at the start stops
  have hend := agree_sharedEnd old new (min (o' - (o + d)) (n' - (n + d))) o' n' (by omega)
    (by omega)
  have hendle := sharedEnd_le (sameAt old new) (min (o' - (o + d)) (n' - (n + d))) o' n'
  generalize sharedEnd (sameAt old new) (min (o' - (o + d)) (n' - (n + d))) o' n' = tail
    at hend hendle
  have hbtail : OnBoundary old new (o' - tail + tail) (n' - tail + tail) := by
    rw [show o' - tail + tail = o' by omega, show n' - tail + tail = n' by omega]
    exact hb'
  obtain ⟨e, he, hgo, hbe⟩ := goOn_spec old new (old.length - (o' - tail)) (o' - tail)
    (n' - tail) tail hbtail (by omega)
  rw [hgo]
  simp only
  have hagree' : Agree old new (o' - tail + e) (n' - tail + e) o' n' :=
    hend.drop old new _ _ _ _ e (by omega)
  split_ifs with hempty
  · rw [← hempty.1, ← hempty.2] at hagree'
    exact hagree.trans old new _ _ _ _ _ _ hagree'
  · rw [u32_of_lt _ (by omega), u32_of_lt _ (by omega), u32_of_lt _ (by omega),
      u32_of_lt _ (by omega)]
    refine ⟨hagree, ⟨?_, ?_, ?_⟩, hbs, hbe, hagree'⟩
    · show o + d ≤ o' - tail + e
      omega
    · show n + d ≤ n' - tail + e
      omega
    · show o + d < o' - tail + e ∨ n + d < n' - tail + e
      omega

/-! ## §3. `from_hunks` -/

/-- What `from_hunks` makes of the hunks after `last`. -/
def mergeInto (last : Hunk) : List Hunk → List Hunk
  | [] => [last]
  | h :: rest =>
    if h.oldStart = h.oldEnd ∧ h.newStart = h.newEnd then mergeInto last rest
    else if last.oldEnd ≥ h.oldStart ∨ last.newEnd ≥ h.newStart then
      mergeInto { last with oldEnd := h.oldEnd, newEnd := h.newEnd } rest
    else last :: mergeInto h rest

theorem foldl_pushHunk (hs : List Hunk) :
    ∀ (done : List Hunk) (last : Hunk),
      hs.foldl PositionMap.pushHunk (done ++ [last]) = done ++ mergeInto last hs := by
  induction hs with
  | nil => intro done last; rfl
  | cons h rest ih =>
    intro done last
    have hpush : PositionMap.pushHunk (done ++ [last]) h
        = if h.oldStart = h.oldEnd ∧ h.newStart = h.newEnd then done ++ [last]
          else if last.oldEnd ≥ h.oldStart ∨ last.newEnd ≥ h.newStart then
            done ++ [{ last with oldEnd := h.oldEnd, newEnd := h.newEnd }]
          else (done ++ [last]) ++ [h] := by
      unfold PositionMap.pushHunk
      rw [List.getLast?_concat, List.dropLast_concat]
    show rest.foldl PositionMap.pushHunk (PositionMap.pushHunk (done ++ [last]) h) = _
    rw [hpush]
    unfold mergeInto
    split_ifs with h1 h2
    · exact ih done last
    · exact ih done _
    · rw [ih (done ++ [last]) h, List.append_assoc]
      rfl

/-- Merging into a hunk keeps its start, and leaves a script with the hunks apart. -/
theorem mergeInto_spec (a b : Nat) (hs : List Hunk) :
    ∀ (last : Hunk), last.Valid → OnBoundary old new last.oldStart last.newStart →
      OnBoundary old new last.oldEnd last.newEnd →
      Script old new a b last.oldEnd last.newEnd hs →
      ∃ head rest, mergeInto last hs = head :: rest ∧ head.oldStart = last.oldStart
        ∧ head.newStart = last.newStart ∧ head.Valid ∧ OnBoundary old new head.oldEnd head.newEnd
        ∧ After a b head.oldEnd head.newEnd rest
        ∧ Script old new a b head.oldEnd head.newEnd rest := by
  induction hs with
  | nil =>
    intro last hv _ hb' hscript
    refine ⟨last, [], rfl, rfl, rfl, hv, hb', ?_, hscript⟩
    obtain ⟨len, ho, hn, _⟩ := hscript
    exact ⟨by omega, by omega, by omega⟩
  | cons h rest ih =>
    intro last hv hb hb' hscript
    obtain ⟨hagree, hvh, hbh, hbh', hrest⟩ := hscript
    have hne := hvh.nonempty
    have hcond : ¬ (h.oldStart = h.oldEnd ∧ h.newStart = h.newEnd) := by omega
    unfold mergeInto
    rw [if_neg hcond]
    -- the gap before `h` is as wide on both sides, so the hunks touch on both or neither
    obtain ⟨gap, ho, hn, hsame⟩ := hagree
    have h1 := hv.old_le
    have h2 := hv.new_le
    have h3 := hvh.old_le
    have h4 := hvh.new_le
    split_ifs with htouch
    · have hv' : Hunk.Valid { last with oldEnd := h.oldEnd, newEnd := h.newEnd } := by
        refine ⟨?_, ?_, ?_⟩
        · show last.oldStart ≤ h.oldEnd
          omega
        · show last.newStart ≤ h.newEnd
          omega
        · show last.oldStart < h.oldEnd ∨ last.newStart < h.newEnd
          omega
      exact ih { last with oldEnd := h.oldEnd, newEnd := h.newEnd } hv' hb hbh' hrest
    · obtain ⟨head, tail, hmerge, hs1, hs2, hvhead, hbhead, hafter, hscript⟩ :=
        ih h hvh hbh hbh' hrest
      refine ⟨last, head :: tail, ?_, rfl, rfl, hv, hb', ?_, ?_⟩
      · rw [hmerge]
      · exact ⟨by omega, by omega, by omega, hvhead, hafter⟩
      · refine ⟨⟨gap, by omega, by omega, hsame⟩, hvhead, ?_, hbhead, hscript⟩
        rw [hs1, hs2]
        exact hbh

/-- **`from_hunks` turns a script of two whole texts into a well-formed map that is one.** -/
theorem fromHunks_script (a b : Nat) (hs : List Hunk) (hscript : Script old new a b 0 0 hs) :
    (PositionMap.fromHunks hs).WellFormed a b
      ∧ Script old new a b 0 0 (PositionMap.fromHunks hs).hunks := by
  cases hs with
  | nil =>
    refine ⟨?_, hscript⟩
    obtain ⟨len, ho, hn, _⟩ := hscript
    exact ⟨by omega, by omega, by omega⟩
  | cons h rest =>
    obtain ⟨hagree, hv, hb, hb', hrest⟩ := hscript
    have hne := hv.nonempty
    have hpush : PositionMap.pushHunk [] h = [h] := by
      show (if h.oldStart = h.oldEnd ∧ h.newStart = h.newEnd then _ else [h]) = _
      rw [if_neg (by omega)]
    have hfold : (PositionMap.fromHunks (h :: rest)).hunks = mergeInto h rest := by
      show rest.foldl PositionMap.pushHunk (PositionMap.pushHunk [] h) = _
      rw [hpush]
      exact foldl_pushHunk rest [] h
    obtain ⟨head, tail, hmerge, hs1, hs2, hvhead, hbhead, hafter, hscript⟩ :=
      mergeInto_spec old new a b rest h hv hb hb' hrest
    unfold PositionMap.WellFormed
    rw [hfold, hmerge]
    obtain ⟨gap, ho, hn, hsame⟩ := hagree
    refine ⟨⟨by omega, by omega, by omega, hvhead, hafter⟩,
      ⟨gap, by omega, by omega, hsame⟩, hvhead, ?_, hbhead, hscript⟩
    rw [hs1, hs2]
    exact hb

end

section

variable (old new : Bytes) (hao : AsciiEnds old) (han : AsciiEnds new)
  (hold : old.length < U32_SIZE) (hnew : new.length < U32_SIZE)

/-! ## §4. Lines edited in place -/

include hao han in
theorem onBoundary_lineStart (i j : Nat) (hi : i ≤ (lines old).length)
    (hj : j ≤ (lines new).length) : OnBoundary old new (lineStart old i) (lineStart new j) :=
  ⟨boundary_lineStart old hao i hi, boundary_lineStart new han j hj⟩

include hao han hold hnew in
/-- Narrowing the bytes between line starts gives a script between them. -/
theorem script_between (i i' j j' : Nat) (hi : i ≤ i') (hi' : i' ≤ (lines old).length)
    (hj : j ≤ j') (hj' : j' ≤ (lines new).length) :
    Script old new (lineStart old i') (lineStart new j') (lineStart old i) (lineStart new j)
      (narrowed old new (lineStart old i, lineStart old i')
        (lineStart new j, lineStart new j')) := by
  apply script_narrowed old new _ _ _ _ (lineStart_le old i i' hi hi')
    (lineStart_le new j j' hj hj') (lineStart_le_length old i' hi')
    (lineStart_le_length new j' hj') hold hnew
  · exact onBoundary_lineStart old new hao han i j (by omega) (by omega)
  · exact onBoundary_lineStart old new hao han i' j' hi' hj'

include hao han hold hnew in
theorem script_narrowedLines (k : Nat) :
    ∀ (i j : Nat), i + k ≤ (lines old).length → j + k ≤ (lines new).length →
      Script old new (lineStart old (i + k)) (lineStart new (j + k)) (lineStart old i)
        (lineStart new j) (narrowedLines old new (lines old) (lines new) (diagonal i j k)) := by
  induction k with
  | zero => intro i j _ _; exact .refl old new _ _
  | succ k ih =>
    intro i j hi hj
    show Script old new _ _ _ _
      (narrowed old new (lineAt (lines old) i) (lineAt (lines new) j)
        ++ narrowedLines old new (lines old) (lines new) (diagonal (i + 1) (j + 1) k))
    rw [lineAt_lines old i (by omega), lineAt_lines new j (by omega)]
    apply Script.append old new (lineStart old (i + 1)) (lineStart new (j + 1))
    · exact script_between old new hao han hold hnew i (i + 1) j (j + 1) (by omega) (by omega)
        (by omega) (by omega)
    · have hrest := ih (i + 1) (j + 1) (by omega) (by omega)
      rw [show i + 1 + k = i + (k + 1) by omega, show j + 1 + k = j + (k + 1) by omega] at hrest
      exact hrest

include hao han hold hnew in
/-- **Lines no line matched give a script of their stretch.** -/
theorem script_editedLines (i i' j j' : Nat) (hi : i ≤ i') (hi' : i' ≤ (lines old).length)
    (hj : j ≤ j') (hj' : j' ≤ (lines new).length) :
    Script old new (lineStart old i') (lineStart new j') (lineStart old i) (lineStart new j)
      (editedLines old new (lines old) (lines new) i i' j j') := by
  unfold editedLines
  simp only
  generalize (fun i j => similar (key old (lineAt (lines old) i)) (key new (lineAt (lines new) j)))
    = same
  have hhead := sharedStart_le same (min (i' - i) (j' - j)) i j
  generalize sharedStart same (min (i' - i) (j' - j)) i j = head at hhead
  have htail := sharedEnd_le same (min (i' - (i + head)) (j' - (j + head))) i' j'
  generalize sharedEnd same (min (i' - (i + head)) (j' - (j + head))) i' j' = tail at htail
  apply Script.append old new (lineStart old (i' - tail)) (lineStart new (j' - tail))
  · apply Script.append old new (lineStart old (i + head)) (lineStart new (j + head))
    · exact script_narrowedLines old new hao han hold hnew head i j (by omega) (by omega)
    · rw [span_lines old (i + head) (i' - tail) (by omega) (by omega),
        span_lines new (j + head) (j' - tail) (by omega) (by omega)]
      exact script_between old new hao han hold hnew _ _ _ _ (by omega) (by omega) (by omega)
        (by omega)
  · have hlast := script_narrowedLines old new hao han hold hnew tail (i' - tail) (j' - tail)
      (by omega) (by omega)
    rw [show i' - tail + tail = i' by omega, show j' - tail + tail = j' by omega] at hlast
    exact hlast

/-! ## §5. Matched lines -/

include hao han hold hnew in
/-- **Two lines of the same content give a script of themselves**: only their whitespace can
    differ. -/
theorem script_matchedLine (i j : Nat) (hi : i < (lines old).length)
    (hj : j < (lines new).length) (hkey : SameKey old new (lines old) (lines new) i j) :
    Script old new (lineStart old (i + 1)) (lineStart new (j + 1)) (lineStart old i)
      (lineStart new j) (matchedLine old new (lineAt (lines old) i) (lineAt (lines new) j)) := by
  unfold SameKey key at hkey
  unfold matchedLine
  rw [lineAt_lines old i hi, lineAt_lines new j hj] at hkey ⊢
  have hb := onBoundary_lineStart old new hao han i j hi.le hj.le
  have hb' := onBoundary_lineStart old new hao han (i + 1) (j + 1) hi hj
  have hlo := lineStart_le_length old (i + 1) hi
  have hln := lineStart_le_length new (j + 1) hj
  obtain ⟨o1, o2, o3, o4, o5⟩ := content_spec old hao (lineStart old i) (lineStart old (i + 1))
    (lineStart_lt old i hi).le hlo hb.1 hb'.1
  obtain ⟨n1, n2, n3, n4, n5⟩ := content_spec new han (lineStart new j) (lineStart new (j + 1))
    (lineStart_lt new j hj).le hln hb.2 hb'.2
  generalize content old (lineStart old i, lineStart old (i + 1)) = co at hkey o1 o2 o3 o4 o5
  generalize content new (lineStart new j, lineStart new (j + 1)) = cn at hkey n1 n2 n3 n4 n5
  have hagree := agree_of_slice old new _ _ _ _ o2 n2 (by omega) (by omega) hkey
  have hbefore := script_narrowed old new (lineStart old i) (lineStart new j) co.1 cn.1 o1 n1
    (by omega) (by omega) hold hnew hb ⟨o4, n4⟩
  have hbehind := script_narrowed old new co.2 cn.2 (lineStart old (i + 1))
    (lineStart new (j + 1)) o3 n3 hlo hln hold hnew ⟨o5, n5⟩ hb'
  apply Script.append old new co.1 cn.1 _ _ _ _ _ _ hbefore
  exact hbehind.extend old new co.1 cn.1 co.2 cn.2 _ _ _ hagree

/-! ## §6. The whole diff -/

include hao han hold hnew in
/-- The loop of `hunks`, by induction on the matched pairs it has not reached: what remains
    of the two texts is covered by a script. -/
theorem script_hunksFrom (ms : List (Nat × Nat)) :
    ∀ (i j : Nat),
      Ladder (SameKey old new (lines old) (lines new)) (lines old).length (lines new).length i j
        ms →
      Script old new old.length new.length (lineStart old i) (lineStart new j)
        (hunksFrom old new (lines old) (lines new)
          (ms ++ [((lines old).length, (lines new).length)]) i j) := by
  induction ms with
  | nil =>
    intro i j h
    have hedit := script_editedLines old new hao han hold hnew i (lines old).length j
      (lines new).length h.1 le_rfl h.2 le_rfl
    rw [lineStart_end, lineStart_end] at hedit
    show Script old new _ _ _ _ (editedLines old new (lines old) (lines new) i (lines old).length
      j (lines new).length ++ (if (lines old).length < (lines old).length then _ else [])
      ++ [])
    rw [if_neg (Nat.lt_irrefl _), List.append_nil, List.append_nil]
    exact hedit
  | cons p rest ih =>
    intro i j h
    obtain ⟨h1, h2, h3, hrest⟩ := h
    have hle := Ladder.le _ _ _ rest (p.1 + 1) (p.2 + 1) hrest
    have hedit := script_editedLines old new hao han hold hnew i p.1 j p.2 h1 (by omega) h2
      (by omega)
    have hmatch := script_matchedLine old new hao han hold hnew p.1 p.2 (by omega) (by omega) h3
    show Script old new _ _ _ _ (editedLines old new (lines old) (lines new) i p.1 j p.2
      ++ (if p.1 < (lines old).length then
            matchedLine old new (lineAt (lines old) p.1) (lineAt (lines new) p.2)
          else [])
      ++ hunksFrom old new (lines old) (lines new)
          (rest ++ [((lines old).length, (lines new).length)]) (p.1 + 1) (p.2 + 1))
    rw [if_pos (by omega)]
    apply Script.append old new (lineStart old (p.1 + 1)) (lineStart new (p.2 + 1))
    · exact Script.append old new _ _ _ _ _ _ _ _ hedit hmatch
    · exact ih (p.1 + 1) (p.2 + 1) hrest

include hao han hold hnew in
/-- **The raw hunks are a script of the two texts.** -/
theorem script_hunks : Script old new old.length new.length 0 0 (Diff.hunks old new) := by
  unfold Diff.hunks
  split_ifs with heq
  · subst heq
    exact ⟨old.length, by omega, by omega, fun i _ => rfl⟩
  · have hladder := ladder_matchLines old new (lines old) (lines new) 0 (lines old).length 0
      (lines new).length (Nat.zero_le _) (Nat.zero_le _)
    have hscript := script_hunksFrom old new hao han hold hnew _ 0 0 hladder
    rw [lineStart_zero, lineStart_zero] at hscript
    exact hscript

end

/-! ## §7. What a script means -/

/-- The stretches before, between and after the hunks, on both sides. -/
def gaps (oldLen newLen : Nat) : Nat → Nat → List Hunk → List ((Nat × Nat) × (Nat × Nat))
  | o, n, [] => [((o, oldLen), (n, newLen))]
  | o, n, h :: rest =>
    ((o, h.oldStart), (n, h.newStart)) :: gaps oldLen newLen h.oldEnd h.newEnd rest

/-- The old text from `o` on, with each hunk's old bytes replaced by its new bytes. -/
def replaceHunks (old new : Bytes) : Nat → List Hunk → Bytes
  | o, [] => slice old o old.length
  | o, h :: rest =>
    slice old o h.oldStart ++ slice new h.newStart h.newEnd
      ++ replaceHunks old new h.oldEnd rest

section

variable (old new : Bytes)

theorem gaps_agree (a b : Nat) (hs : List Hunk) :
    ∀ (o n : Nat), Script old new a b o n hs → ∀ g ∈ gaps a b o n hs,
      Agree old new g.1.1 g.2.1 g.1.2 g.2.2 := by
  induction hs with
  | nil =>
    intro o n h g hg
    rw [List.mem_singleton.1 hg]
    exact h
  | cons hunk rest ih =>
    intro o n h g hg
    obtain hg | hg := List.mem_cons.1 hg
    · rw [hg]
      exact h.1
    · exact ih hunk.oldEnd hunk.newEnd h.2.2.2.2 g hg

/-- **Replacing the hunks turns the old text into the new one.** -/
theorem replaceHunks_eq (hs : List Hunk) :
    ∀ (o n : Nat), Script old new old.length new.length o n hs →
      replaceHunks old new o hs = slice new n new.length := by
  induction hs with
  | nil => intro o n h; exact slice_of_agree old new o n old.length new.length h
  | cons hunk rest ih =>
    intro o n h
    obtain ⟨hagree, hv, _, _, hrest⟩ := h
    have hle := Script.le old new old.length new.length rest _ _ hrest
    have hn : n ≤ hunk.newStart := by
      obtain ⟨len, _, hn, _⟩ := hagree
      omega
    unfold replaceHunks
    rw [ih hunk.oldEnd hunk.newEnd hrest, slice_of_agree old new _ _ _ _ hagree,
      slice_append new n hunk.newStart hunk.newEnd hn hv.new_le,
      slice_append new n hunk.newEnd new.length (le_trans hn hv.new_le) hle.2]

/-- A byte the hunks keep is the same byte in both texts. -/
theorem imageFrom_same_byte (hs : List Hunk) :
    ∀ (o n p q : Nat), Script old new old.length new.length o n hs → o ≤ p → p < old.length →
      imageFrom o n hs p = some q → old[p]? = new[q]? := by
  induction hs with
  | nil =>
    intro o n p q h hp hlt hq
    obtain ⟨len, ho, hn, hsame⟩ := h
    have hq' : p - o + n = q := Option.some.inj hq
    have hbyte := hsame (p - o) (by omega)
    rw [show o + (p - o) = p by omega, show n + (p - o) = q by omega] at hbyte
    exact hbyte
  | cons hunk rest ih =>
    intro o n p q h hp hlt hq
    obtain ⟨⟨len, ho, hn, hsame⟩, hv, _, _, hrest⟩ := h
    obtain ⟨h1, hq'⟩ | ⟨h2, hq⟩ := imageFrom_some hv hq
    · have hbyte := hsame (p - o) (by omega)
      rw [show o + (p - o) = p by omega, show n + (p - o) = q by omega] at hbyte
      exact hbyte
    · exact ih hunk.oldEnd hunk.newEnd p q hrest h2 hlt hq

/-- The hunks of a script lie between its ends and on character boundaries. -/
theorem script_mem (a b : Nat) (hs : List Hunk) :
    ∀ (o n : Nat), Script old new a b o n hs → ∀ h ∈ hs,
      o ≤ h.oldStart ∧ h.oldEnd ≤ a ∧ n ≤ h.newStart ∧ h.newEnd ≤ b ∧ h.Valid
        ∧ OnBoundary old new h.oldStart h.newStart ∧ OnBoundary old new h.oldEnd h.newEnd := by
  induction hs with
  | nil => intro o n _ h hh; cases hh
  | cons hunk rest ih =>
    intro o n hscript h hh
    obtain ⟨⟨len, ho, hn, _⟩, hv, hb, hb', hrest⟩ := hscript
    have h1 := hv.old_le
    have h2 := hv.new_le
    obtain hh | hh := List.mem_cons.1 hh
    · have hle := Script.le old new a b rest _ _ hrest
      subst hh
      exact ⟨by omega, hle.1, by omega, hle.2, hv, hb, hb'⟩
    · obtain ⟨g1, g2, g3, g4, g5⟩ := ih hunk.oldEnd hunk.newEnd hrest h hh
      exact ⟨by omega, g2, by omega, g4, g5⟩

end

/-- Hunks that come after a point are apart from each other and start behind it. -/
theorem After.pairwise (a b : Nat) (hs : List Hunk) :
    ∀ (o n : Nat), After a b o n hs →
      (∀ h ∈ hs, o < h.oldStart ∧ n < h.newStart)
        ∧ hs.Pairwise (fun h h' => h.oldEnd < h'.oldStart ∧ h.newEnd < h'.newStart) := by
  induction hs with
  | nil => intro o n _; exact ⟨nofun, .nil⟩
  | cons hunk rest ih =>
    intro o n h
    obtain ⟨ho, hn, _, hv, hrest⟩ := h
    obtain ⟨hbehind, hpw⟩ := ih hunk.oldEnd hunk.newEnd hrest
    have h1 := hv.old_le
    have h2 := hv.new_le
    refine ⟨?_, List.pairwise_cons.2 ⟨hbehind, hpw⟩⟩
    intro h hh
    obtain hh | hh := List.mem_cons.1 hh
    · rw [hh]
      exact ⟨ho, hn⟩
    · have := hbehind h hh
      omega

theorem pairwise_of_wellFormed (f : PositionMap) (a b : Nat) (hw : f.WellFormed a b) :
    f.hunks.Pairwise (fun h h' => h.oldEnd < h'.oldStart ∧ h.newEnd < h'.newStart) := by
  unfold PositionMap.WellFormed at hw
  cases hhs : f.hunks with
  | nil => exact .nil
  | cons h rest =>
    rw [hhs] at hw
    obtain ⟨hbehind, hpw⟩ := hw.2.2.2.2.pairwise
    exact List.pairwise_cons.2 ⟨hbehind, hpw⟩

/-! ## §8. `PositionMap::new` -/

/-- What a position map says about the two texts it was made from. -/
structure SoundDiff (old new : String) (f : PositionMap) : Prop where
  in_bounds : ∀ h ∈ f.hunks, h.oldStart ≤ h.oldEnd ∧ h.oldEnd ≤ old.utf8ByteSize
    ∧ h.newStart ≤ h.newEnd ∧ h.newEnd ≤ new.utf8ByteSize
  apart : f.hunks.Pairwise (fun h h' => h.oldEnd < h'.oldStart ∧ h.newEnd < h'.newStart)
  nonempty : ∀ h ∈ f.hunks, h.oldStart < h.oldEnd ∨ h.newStart < h.newEnd
  boundaries : ∀ h ∈ f.hunks,
    (⟨h.oldStart⟩ : String.Pos.Raw).IsValid old ∧ (⟨h.oldEnd⟩ : String.Pos.Raw).IsValid old
      ∧ (⟨h.newStart⟩ : String.Pos.Raw).IsValid new ∧ (⟨h.newEnd⟩ : String.Pos.Raw).IsValid new
  shared : ∀ g ∈ gaps old.utf8ByteSize new.utf8ByteSize 0 0 f.hunks,
    g.1.1 ≤ g.1.2 ∧ g.2.1 ≤ g.2.2 ∧ g.1.2 - g.1.1 = g.2.2 - g.2.1
      ∧ slice (asBytes old) g.1.1 g.1.2 = slice (asBytes new) g.2.1 g.2.2
  replaces : replaceHunks (asBytes old) (asBytes new) 0 f.hunks = asBytes new
  increasing : ∀ p p' q q', p < p' → p' < U32_SIZE →
    p' - old.utf8ByteSize + new.utf8ByteSize < U32_SIZE →
    f.map p = some q → f.map p' = some q' → q < q'
  same_byte : ∀ p q, p < old.utf8ByteSize → f.map p = some q →
    q < new.utf8ByteSize ∧ (asBytes old)[p]? = (asBytes new)[q]?

section

variable (old new : String) (hold : old.utf8ByteSize < U32_SIZE)
  (hnew : new.utf8ByteSize < U32_SIZE)

include hold hnew in
theorem new_script :
    (PositionMap.new old new).WellFormed old.utf8ByteSize new.utf8ByteSize
      ∧ Script (asBytes old) (asBytes new) old.utf8ByteSize new.utf8ByteSize 0 0
          (PositionMap.new old new).hunks := by
  have hscript := script_hunks (asBytes old) (asBytes new) (asciiEnds_asBytes old)
    (asciiEnds_asBytes new) (by rw [length_asBytes]; exact hold)
    (by rw [length_asBytes]; exact hnew)
  rw [length_asBytes, length_asBytes] at hscript
  exact fromHunks_script (asBytes old) (asBytes new) _ _ _ hscript

end

/-- **The text diff is sound**, for any two texts of fewer than 2^32 bytes. -/
theorem new_sound (old new : String) (hold : old.utf8ByteSize < U32_SIZE)
    (hnew : new.utf8ByteSize < U32_SIZE) : SoundDiff old new (PositionMap.new old new) := by
  obtain ⟨hwf, hscript⟩ := new_script old new hold hnew
  have hmem := script_mem (asBytes old) (asBytes new) _ _ _ 0 0 hscript
  have hmap : ∀ p, p < U32_SIZE → p - old.utf8ByteSize + new.utf8ByteSize < U32_SIZE →
      (PositionMap.new old new).map p = (PositionMap.new old new).image p := by
    intro p hp hfit
    apply map_eq_image_of_fits _ _ _ hwf p hp
    intro q hq
    have := (image_le _ _ _ hwf p q hq).1
    omega
  constructor
  case in_bounds =>
    intro h hh
    obtain ⟨_, h2, _, h4, hv, _⟩ := hmem h hh
    exact ⟨hv.old_le, h2, hv.new_le, h4⟩
  case apart => exact pairwise_of_wellFormed _ _ _ hwf
  case nonempty =>
    intro h hh
    obtain ⟨_, _, _, _, hv, _⟩ := hmem h hh
    exact hv.nonempty
  case boundaries =>
    intro h hh
    obtain ⟨_, _, _, _, _, hb, hb'⟩ := hmem h hh
    exact ⟨(isCharBoundary_iff old _).1 hb.1, (isCharBoundary_iff old _).1 hb'.1,
      (isCharBoundary_iff new _).1 hb.2, (isCharBoundary_iff new _).1 hb'.2⟩
  case shared =>
    intro g hg
    have hagree := gaps_agree (asBytes old) (asBytes new) _ _ _ 0 0 hscript g hg
    refine ⟨?_, ?_, ?_, slice_of_agree _ _ _ _ _ _ hagree⟩
    · obtain ⟨len, ho, _, _⟩ := hagree
      omega
    · obtain ⟨len, _, hn, _⟩ := hagree
      omega
    · obtain ⟨len, ho, hn, _⟩ := hagree
      omega
  case replaces =>
    rw [← length_asBytes, ← length_asBytes] at hscript
    rw [replaceHunks_eq (asBytes old) (asBytes new) _ 0 0 hscript]
    unfold slice
    rw [List.drop_zero, Nat.sub_zero, List.take_length]
  case increasing =>
    intro p p' q q' hpp hp' hfit hq hq'
    rw [hmap p (by omega) (by omega)] at hq
    rw [hmap p' hp' hfit] at hq'
    exact image_strictMono _ _ _ hwf p p' q q' hpp hq hq'
  case same_byte =>
    intro p q hp hq
    rw [hmap p (by omega) (by omega)] at hq
    refine ⟨(image_le _ _ _ hwf p q hq).2 hp, ?_⟩
    rw [← length_asBytes, ← length_asBytes] at hscript
    apply imageFrom_same_byte (asBytes old) (asBytes new) _ 0 0 p q hscript (Nat.zero_le p) _ hq
    rw [length_asBytes]
    exact hp

/-- An accented letter replaced, a line moved and one added. -/
theorem new_sound_accent : SoundDiff "aé\nb\nc" "aè\nc\nb\nd"
    (PositionMap.new "aé\nb\nc" "aè\nc\nb\nd") :=
  new_sound "aé\nb\nc" "aè\nc\nb\nd" (by decide) (by decide)

/-- **Behind the text a shifted offset leaves u32**: ten bytes put into an empty text move 0
to 10, and 2^32 - 5 to 5. -/
theorem new_increasing_wraps :
    ¬ ∀ p p' q q', p < p' → p' < U32_SIZE →
      (PositionMap.new "" "0123456789").map p = some q →
      (PositionMap.new "" "0123456789").map p' = some q' → q < q' := by
  intro hincreasing
  have hstart : (PositionMap.new "" "0123456789").map 0 = some 10 := by decide +kernel
  have hbehind : (PositionMap.new "" "0123456789").map 4294967291 = some 5 := by decide +kernel
  have := hincreasing 0 4294967291 10 5 (by decide) (by decide) hstart hbehind
  omega

end GluaLs.Edit
