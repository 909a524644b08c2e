/-
  GluaLs.Members.FunctionScopes — a file's function scopes
  (`db_index/member/function_scopes.rs`).

  The ranges are kept in order of start, a longer one before those it nests that start with it.
  Each is linked to the innermost range enclosing it, and a lookup follows the links from the
  last range that starts at or before the position.  A link is a function of the ranges alone,
  the last of the earlier ones that enclose it (`linkAt`), so that a chain of links finds

      the last range that holds the position,

  which is the shortest, and the structure does not depend on the order of the insertions.
-/
import GluaLs.DeclTree.Tree
import Mathlib.Data.Nat.PSub

namespace GluaLs.Members

open GluaLs.DeclTree GluaLs.Lib.KeyOrder

/-! ## §1. The scopes -/

/-- A link is a `u32` in the source: the two agree below `2 ^ 32` ranges, those inserted twice
    counted twice. -/
structure FunctionScopes where
  ranges : List TextRange
  parents : List (Option Nat)
  deriving DecidableEq

/-- By start, and by end from the last to the first. -/
def order (range : TextRange) : TextSize ×ₗ TextSizeᵒᵈ :=
  toLex (range.start, OrderDual.toDual range.stop)

def containsRange (held range : TextRange) : Bool :=
  decide (held.start ≤ range.start) && decide (range.stop ≤ held.stop)

/-- The range at an index passes the test. -/
def holdsAt (ranges : List TextRange) (holds : TextRange → Bool) (index : Nat) : Bool :=
  (ranges[index]?).any holds

namespace FunctionScopes

/-- The loop of `enclosing`.  The links lead to earlier ranges, so a candidate takes no more
    rounds than its index and one. -/
def enclosingLoop (s : FunctionScopes) (holds : TextRange → Bool) : Nat → Option Nat → Option Nat
  | _, none => none
  | 0, some _ => none
  | fuel + 1, some index =>
    if holdsAt s.ranges holds index then some index
    else s.enclosingLoop holds fuel (s.parents[index]?).join

/-- `enclosing`: the first scope `holds` accepts among `from'` and the scopes enclosing it. -/
def enclosing (s : FunctionScopes) (from' : Option Nat) (holds : TextRange → Bool) : Option Nat :=
  s.enclosingLoop holds s.ranges.length from'

/-- Pushes the link of the range at an index. -/
def link (s : FunctionScopes) (range : TextRange) (index : Nat) : FunctionScopes :=
  { s with
    parents := s.parents ++ [s.enclosing (Nat.ppred index) fun held => containsRange held range] }

def insert (s : FunctionScopes) (range : TextRange) : FunctionScopes :=
  let at' := partitionPoint (fun held => decide (order held ≤ order range)) s.ranges
  let ranges := s.ranges.insertIdx at' range
  if at' + 1 = ranges.length then link ⟨ranges, s.parents⟩ range at'
  else ranges.zipIdx.foldl (fun s r => s.link r.1 r.2) ⟨ranges, []⟩

/-- `innermost`: the innermost scope holding `position`. -/
def innermost (s : FunctionScopes) (position : TextSize) : Option TextRange :=
  let after := partitionPoint (fun range => decide (range.start ≤ position)) s.ranges
  (s.enclosing (Nat.ppred after) fun held => held.contains position).bind (s.ranges[·]?)

/-- The scopes after insertions, from `default`. -/
def ofInsertions (ranges : List TextRange) : FunctionScopes := ranges.foldl insert ⟨[], []⟩

end FunctionScopes

/-! ## §2. Ranges in order -/

def InOrder (ranges : List TextRange) : Prop := ranges.Pairwise fun a b => order a ≤ order b

theorem order_le_iff (a b : TextRange) :
    order a ≤ order b ↔ a.start < b.start ∨ a.start = b.start ∧ b.stop ≤ a.stop := by
  show toLex _ ≤ toLex _ ↔ _
  rw [Prod.Lex.toLex_le_toLex]
  exact .rfl

section

variable {a b : TextRange} (h : order a ≤ order b)
include h

theorem start_le_of_order_le : a.start ≤ b.start := by
  obtain hlt | ⟨heq, -⟩ := (order_le_iff a b).1 h
  · exact hlt.le
  · exact heq.le

theorem stop_le_of_order_le (heq : a.start = b.start) : b.stop ≤ a.stop := by
  obtain hlt | ⟨-, hle⟩ := (order_le_iff a b).1 h
  · exact absurd heq hlt.ne
  · exact hle

theorem eq_of_order_le (h' : order b ≤ order a) : a = b := by
  have hstart := le_antisymm (start_le_of_order_le h) (start_le_of_order_le h')
  have hstop := le_antisymm (stop_le_of_order_le h' hstart.symm) (stop_le_of_order_le h hstart)
  cases a
  cases b
  cases hstart
  cases hstop
  rfl

end

theorem InOrder.getElem_le {ranges : List TextRange} (h : InOrder ranges) {i j : Nat}
    {a b : TextRange} (hlt : i < j) (ha : ranges[i]? = some a) (hb : ranges[j]? = some b) :
    order a ≤ order b := by
  obtain ⟨hi, rfl⟩ := List.getElem?_eq_some_iff.1 ha
  obtain ⟨hj, rfl⟩ := List.getElem?_eq_some_iff.1 hb
  exact List.pairwise_iff_getElem.1 h i j hi hj hlt

/-- The range is filed behind those before it in order. -/
theorem insertIdx_partitionPoint (ranges : List TextRange) (range : TextRange) :
    let p := fun held => decide (order held ≤ order range)
    ranges.insertIdx (partitionPoint p ranges) range =
      ranges.takeWhile p ++ range :: ranges.dropWhile p := by
  intro p
  have hfiled := GluaLs.Lib.insertIdx_length (ranges.takeWhile p) (ranges.dropWhile p) range
  rw [List.takeWhile_append_dropWhile] at hfiled
  exact hfiled

theorem inOrder_insertIdx {ranges : List TextRange} (h : InOrder ranges) (range : TextRange) :
    InOrder (ranges.insertIdx
      (partitionPoint (fun held => decide (order held ≤ order range)) ranges) range) := by
  rw [insertIdx_partitionPoint]
  have hbefore : ∀ a ∈ ranges.takeWhile fun held => decide (order held ≤ order range),
      order a ≤ order range := by
    intro a ha
    exact of_decide_eq_true (List.all_eq_true.1 List.all_takeWhile a ha)
  have hafter := not_of_mem_dropWhile (p := fun held => decide (order held ≤ order range)) h
    (fun a b hab hb => decide_eq_true (hab.trans (of_decide_eq_true hb)))
  have hlater : ∀ b ∈ ranges.dropWhile fun held => decide (order held ≤ order range),
      order range < order b := fun b hb => not_le.1 fun hle => hafter b hb (decide_eq_true hle)
  refine List.pairwise_append.2 ⟨h.sublist (List.takeWhile_sublist _), ?_, ?_⟩
  · exact List.pairwise_cons.2
      ⟨fun b hb => (hlater b hb).le, h.sublist (List.dropWhile_sublist _)⟩
  · intro a ha b hb
    obtain rfl | hb := List.mem_cons.1 hb
    · exact hbefore a ha
    · exact (hbefore a ha).trans (hlater b hb).le

theorem perm_insertIdx (ranges : List TextRange) (range : TextRange) :
    (ranges.insertIdx (partitionPoint (fun held => decide (order held ≤ order range)) ranges)
      range).Perm (range :: ranges) := by
  rw [insertIdx_partitionPoint]
  refine List.perm_middle.trans (.cons range ?_)
  rw [List.takeWhile_append_dropWhile]

/-- The ranges before the partition point are those that start at or before the position. -/
theorem lt_partitionPoint_start_iff {ranges : List TextRange} (hord : InOrder ranges)
    (position : TextSize) {i : Nat} {range : TextRange} (hat : ranges[i]? = some range) :
    i < partitionPoint (fun range => decide (range.start ≤ position)) ranges ↔
      range.start ≤ position := by
  rw [lt_partitionPoint_iff hord ?_ hat, decide_eq_true_iff]
  intro a b hab hb
  exact decide_eq_true ((start_le_of_order_le hab).trans (of_decide_eq_true hb))

/-! ## §3. Links -/

/-- The last index below a bound that passes the test. -/
def lastBelow (p : Nat → Bool) : Nat → Option Nat
  | 0 => none
  | n + 1 => if p n then some n else lastBelow p n

/-- What fails the test can be left out at the end. -/
theorem lastBelow_eq_of_fails {p : Nat → Bool} {m n : Nat} (hmn : m ≤ n)
    (hfails : ∀ i, m ≤ i → i < n → p i = false) : lastBelow p n = lastBelow p m := by
  induction n with
  | zero => rw [Nat.le_zero.1 hmn]
  | succ n ih =>
    obtain rfl | hlt := Nat.eq_or_lt_of_le hmn
    · rfl
    · have hle := Nat.le_of_lt_succ hlt
      rw [lastBelow, if_neg (by simp [hfails n hle n.lt_succ_self])]
      exact ih hle fun i hi hin => hfails i hi (Nat.lt_succ_of_lt hin)

theorem lastBelow_cases (p : Nat → Bool) (n : Nat) :
    (lastBelow p n = none ∧ ∀ i < n, p i = false) ∨
    ∃ k < n, lastBelow p n = some k ∧ p k = true ∧ ∀ i, k < i → i < n → p i = false := by
  induction n with
  | zero => exact .inl ⟨rfl, nofun⟩
  | succ n ih =>
    rw [lastBelow]
    by_cases hp : p n = true
    · rw [if_pos hp]
      exact .inr ⟨n, n.lt_succ_self, rfl, hp, fun i h1 h2 => absurd h2 (by omega)⟩
    · rw [if_neg hp]
      have hfalse := Bool.not_eq_true _ ▸ hp
      obtain ⟨hnone, hall⟩ | ⟨k, hk, hsome, hpk, hall⟩ := ih
      · refine .inl ⟨hnone, fun i hi => ?_⟩
        obtain rfl | hlt := Nat.eq_or_lt_of_le (Nat.le_of_lt_succ hi)
        · exact hfalse
        · exact hall i hlt
      · refine .inr ⟨k, Nat.lt_succ_of_lt hk, hsome, hpk, fun i h1 h2 => ?_⟩
        obtain rfl | hlt := Nat.eq_or_lt_of_le (Nat.le_of_lt_succ h2)
        · exact hfalse
        · exact hall i h1 hlt

/-- The innermost range enclosing the one at an index: the last of those before it that
    contain it. -/
def linkAt (ranges : List TextRange) (index : Nat) : Option Nat :=
  (ranges[index]?).bind fun range =>
    lastBelow (holdsAt ranges fun held => containsRange held range) index

def linksTo (ranges : List TextRange) (n : Nat) : List (Option Nat) :=
  (List.range n).map (linkAt ranges)

theorem getElem?_linksTo (ranges : List TextRange) {n index : Nat} (hlt : index < n) :
    (linksTo ranges n)[index]? = some (linkAt ranges index) := by
  rw [linksTo, List.getElem?_map, List.getElem?_range hlt]
  rfl

theorem holdsAt_iff {ranges : List TextRange} {holds : TextRange → Bool} {i : Nat} :
    holdsAt ranges holds i = true ↔ ∃ range, ranges[i]? = some range ∧ holds range = true := by
  unfold holdsAt
  cases ranges[i]? <;> simp

/-- Of two ranges up to `last`, an earlier one that passes the test contains a later one that
    does not. -/
def Encloses (ranges : List TextRange) (holds : TextRange → Bool) (last : Nat) : Prop :=
  ∀ i j a b, i < j → j ≤ last → ranges[i]? = some a → ranges[j]? = some b → holds a = true →
    holds b = false → containsRange a b = true

section

variable {ranges : List TextRange} {n : Nat} (hn : n ≤ ranges.length) {holds : TextRange → Bool}
include hn

/-- **The links lead to the last range that passes the test.** -/
theorem enclosingLoop_eq (fuel : Nat) : ∀ last < n, last < fuel → Encloses ranges holds last →
    FunctionScopes.enclosingLoop ⟨ranges, linksTo ranges n⟩ holds fuel (some last) =
      lastBelow (holdsAt ranges holds) (last + 1) := by
  induction fuel with
  | zero => exact fun last _ hlt => absurd hlt (Nat.not_lt_zero last)
  | succ fuel ih =>
    intro last hlast hfuel henc
    rw [FunctionScopes.enclosingLoop, lastBelow]
    by_cases hheld : holdsAt ranges holds last = true
    · rw [if_pos hheld, if_pos hheld]
    obtain ⟨range, hrange⟩ : ∃ range, ranges[last]? = some range :=
      ⟨_, List.getElem?_eq_getElem (lt_of_lt_of_le hlast hn)⟩
    have hfails : holds range = false := by
      by_contra hholds
      exact hheld (holdsAt_iff.2 ⟨range, hrange, by simpa using hholds⟩)
    have hlink : linkAt ranges last =
        lastBelow (holdsAt ranges fun held => containsRange held range) last := by
      rw [linkAt, hrange, Option.bind_some]
    -- What passes the test before `last` contains the range there, so nothing behind the link does.
    have houter : ∀ i < last, holdsAt ranges (fun held => containsRange held range) i = false →
        holdsAt ranges holds i = false := by
      intro i hi hnot
      by_contra hholds
      obtain ⟨a, ha, hpass⟩ := holdsAt_iff.1 (by simpa using hholds)
      have hcontains := henc i last a range hi le_rfl ha hrange hpass hfails
      rw [holdsAt_iff.2 ⟨a, ha, hcontains⟩] at hnot
      cases hnot
    rw [if_neg hheld, if_neg hheld, getElem?_linksTo ranges hlast, Option.join_some, hlink]
    obtain ⟨hnone, hall⟩ | ⟨k, hk, hsome, -, hall⟩ :=
      lastBelow_cases (holdsAt ranges fun held => containsRange held range) last
    · rw [hnone, lastBelow_eq_of_fails (Nat.zero_le last) fun i _ hi => houter i hi (hall i hi)]
      cases fuel <;> rfl
    · rw [hsome, lastBelow_eq_of_fails hk fun i hki hi => houter i hi (hall i hki hi)]
      exact ih k (hk.trans hlast) (by omega)
        fun i j a b hij hj => henc i j a b hij (hj.trans hk.le)

theorem enclosing_eq {m : Nat} (hm : m ≤ n) (henc : ∀ last < m, Encloses ranges holds last) :
    FunctionScopes.enclosing ⟨ranges, linksTo ranges n⟩ (Nat.ppred m) holds =
      lastBelow (holdsAt ranges holds) m := by
  unfold FunctionScopes.enclosing
  cases m with
  | zero => cases ranges <;> rfl
  | succ last =>
    exact enclosingLoop_eq hn ranges.length last hm (lt_of_lt_of_le hm hn)
      (henc last last.lt_succ_self)

end

/-! ## §4. Insertions -/

/-- One contains the other, or no position is in both. -/
def NestedOrDisjoint (a b : TextRange) : Prop :=
  containsRange a b = true ∨ containsRange b a = true ∨
    ∀ position, ¬ (a.contains position = true ∧ b.contains position = true)

def Nested (ranges : List TextRange) : Prop := ∀ a ∈ ranges, ∀ b ∈ ranges, NestedOrDisjoint a b

theorem containsRange_iff (a b : TextRange) :
    containsRange a b = true ↔ a.start ≤ b.start ∧ b.stop ≤ a.stop := by
  rw [containsRange, Bool.and_eq_true_iff, decide_eq_true_iff, decide_eq_true_iff]

theorem contains_iff (range : TextRange) (position : TextSize) :
    range.contains position = true ↔ range.start ≤ position ∧ position < range.stop := by
  rw [TextRange.contains, Bool.and_eq_true_iff, decide_eq_true_iff, decide_eq_true_iff]

/-- Of ranges that do not contain each other, the first ends before the second starts. -/
theorem NestedOrDisjoint.stop_le {a b : TextRange} (h : NestedOrDisjoint a b)
    (hstart : a.start ≤ b.start) (hab : ¬ containsRange a b = true)
    (hba : ¬ containsRange b a = true) : a.stop ≤ b.start := by
  obtain h | h | h := h
  · exact absurd h hab
  · exact absurd h hba
  · by_contra hlt
    rw [containsRange_iff] at hab
    have hb : b.start < b.stop := lt_of_not_ge fun hle =>
      hab ⟨hstart, hle.trans (not_le.1 hlt).le⟩
    exact h b.start ⟨(contains_iff a b.start).2 ⟨hstart, not_le.1 hlt⟩,
      (contains_iff b b.start).2 ⟨le_rfl, hb⟩⟩

theorem encloses_range {ranges : List TextRange} (hord : InOrder ranges) (hnest : Nested ranges)
    {index last : Nat} {range : TextRange} (hat : ranges[index]? = some range)
    (hlast : last < index) : Encloses ranges (fun held => containsRange held range) last := by
  intro i j a b hij hj ha hb hholds hfails
  by_contra hab
  have hstart := start_le_of_order_le (hord.getElem_le hij ha hb)
  have hle := start_le_of_order_le (hord.getElem_le (lt_of_le_of_lt hj hlast) hb hat)
  replace hfails : ¬ containsRange b range = true := by simpa using hfails
  have hba : ¬ containsRange b a = true := by
    intro hba
    rw [containsRange_iff] at hholds hba hfails
    exact hfails ⟨hba.1.trans hholds.1, hholds.2.trans hba.2⟩
  have hstop := (hnest a (List.mem_of_getElem? ha) b (List.mem_of_getElem? hb)).stop_le
    hstart hab hba
  -- The enclosed range would be empty and stand where `b` starts, in `b`.
  rw [containsRange_iff] at hholds hfails
  exact hfails ⟨hle, (hholds.2.trans hstop).trans b.ordered⟩

section

variable {ranges : List TextRange} (hord : InOrder ranges) (hnest : Nested ranges)
include hord hnest

theorem link_eq {n : Nat} {range : TextRange} (hat : ranges[n]? = some range) :
    FunctionScopes.link ⟨ranges, linksTo ranges n⟩ range n =
      ⟨ranges, linksTo ranges (n + 1)⟩ := by
  have hn : n < ranges.length := (List.getElem?_eq_some_iff.1 hat).1
  have hlink := enclosing_eq hn.le le_rfl fun last => encloses_range hord hnest hat
  have hlast : linkAt ranges n = FunctionScopes.enclosing ⟨ranges, linksTo ranges n⟩
      (Nat.ppred n) fun held => containsRange held range := by
    rw [hlink, linkAt, hat, Option.bind_some]
  have hlinks : linksTo ranges (n + 1) = linksTo ranges n ++ [linkAt ranges n] := by
    rw [linksTo, List.range_succ, List.map_append]
    rfl
  rw [hlinks, hlast]
  rfl

/-- Linking every range anew. -/
theorem foldl_link (rest : List TextRange) : ∀ n, n ≤ ranges.length → ranges.drop n = rest →
    (rest.zipIdx n).foldl (fun (s : FunctionScopes) r => s.link r.1 r.2)
      ⟨ranges, linksTo ranges n⟩ = ⟨ranges, linksTo ranges ranges.length⟩ := by
  induction rest with
  | nil =>
    intro n hn hdrop
    rw [le_antisymm hn (List.drop_eq_nil_iff.1 hdrop)]
    rfl
  | cons range rest ih =>
    intro n _ hdrop
    have hat : ranges[n]? = some range := by
      rw [← List.head?_drop, hdrop]
      rfl
    rw [List.zipIdx_cons, List.foldl_cons, link_eq hord hnest hat]
    refine ih (n + 1) (List.getElem?_eq_some_iff.1 hat).1 ?_
    rw [← List.drop_drop, hdrop]
    rfl

end

/-- An earlier range's link does not see the last range. -/
theorem linkAt_append (ranges : List TextRange) (range : TextRange) {index : Nat}
    (hlt : index < ranges.length) : linkAt (ranges ++ [range]) index = linkAt ranges index := by
  have hsame : ∀ (holds : TextRange → Bool) (n : Nat), n ≤ ranges.length →
      lastBelow (holdsAt (ranges ++ [range]) holds) n = lastBelow (holdsAt ranges holds) n := by
    intro holds n
    induction n with
    | zero => exact fun _ => rfl
    | succ n ih =>
      intro hn
      rw [lastBelow, lastBelow, ih (Nat.le_of_succ_le hn), holdsAt, holdsAt,
        List.getElem?_append_left hn]
  rw [linkAt, linkAt, List.getElem?_append_left hlt]
  congr 1
  funext held
  exact hsame _ index hlt.le

/-- **An insertion leaves the ranges in order and every link right.** -/
theorem insert_eq {ranges : List TextRange} (hord : InOrder ranges) (range : TextRange)
    (hnest : Nested (range :: ranges)) :
    let filed := ranges.insertIdx
      (partitionPoint (fun held => decide (order held ≤ order range)) ranges) range
    FunctionScopes.insert ⟨ranges, linksTo ranges ranges.length⟩ range =
      ⟨filed, linksTo filed filed.length⟩ := by
  intro filed
  have hfiled : InOrder filed := inOrder_insertIdx hord range
  have hperm : filed.Perm (range :: ranges) := perm_insertIdx ranges range
  have hnested : Nested filed := fun a ha b hb =>
    hnest a (hperm.mem_iff.1 ha) b (hperm.mem_iff.1 hb)
  unfold FunctionScopes.insert
  dsimp only
  split
  · case isTrue hlast =>
    -- The range is the last: the links so far stay.
    have hlength : filed.length = ranges.length + 1 := hperm.length_eq
    have hat' : partitionPoint (fun held => decide (order held ≤ order range)) ranges =
        ranges.length := by
      change _ + 1 = filed.length at hlast
      omega
    have hfiledEq : filed = ranges ++ [range] := by
      show ranges.insertIdx _ range = _
      rw [hat', List.insertIdx_length_self]
    have hlinks : linksTo filed ranges.length = linksTo ranges ranges.length := by
      rw [hfiledEq]
      refine List.map_congr_left fun index hindex => ?_
      exact linkAt_append ranges range (List.mem_range.1 hindex)
    have hat : filed[ranges.length]? = some range := by
      rw [hfiledEq, List.getElem?_concat_length]
    have hfiledAt : ranges.insertIdx ranges.length range = filed := by
      show _ = ranges.insertIdx _ range
      rw [hat']
    rw [hat', hlength, hfiledAt, ← hlinks]
    exact link_eq hfiled hnested hat
  · case isFalse =>
    exact foldl_link hfiled hnested filed 0 (Nat.zero_le _) rfl

theorem ofInsertions_eq (ranges : List TextRange) (hnest : Nested ranges) :
    ∃ filed, InOrder filed ∧ filed.Perm ranges ∧
      FunctionScopes.ofInsertions ranges = ⟨filed, linksTo filed filed.length⟩ := by
  induction ranges using List.reverseRecOn with
  | nil => exact ⟨[], .nil, .refl [], rfl⟩
  | append_singleton ranges range ih =>
    obtain ⟨filed, hord, hperm, heq⟩ := ih fun a ha b hb =>
      hnest a (List.mem_append_left _ ha) b (List.mem_append_left _ hb)
    have hsame : (range :: filed).Perm (ranges ++ [range]) :=
      (hperm.cons range).trans (List.perm_append_singleton range ranges).symm
    refine ⟨_, inOrder_insertIdx hord range, (perm_insertIdx filed range).trans hsame, ?_⟩
    unfold FunctionScopes.ofInsertions at heq ⊢
    rw [List.foldl_append, heq]
    exact insert_eq hord range fun a ha b hb =>
      hnest a (hsame.mem_iff.1 ha) b (hsame.mem_iff.1 hb)

/-! ## §5. Lookups -/

theorem encloses_position {ranges : List TextRange} (hord : InOrder ranges) (position : TextSize)
    {last : Nat}
    (hlast : last < partitionPoint (fun range => decide (range.start ≤ position)) ranges) :
    Encloses ranges (fun held => held.contains position) last := by
  intro i j a b hij hj ha hb hholds hfails
  have hb' := (lt_partitionPoint_start_iff hord position hb).1 (lt_of_le_of_lt hj hlast)
  have hstop : b.stop ≤ position := by
    by_contra hlt
    have hheld := (contains_iff b position).2 ⟨hb', not_le.1 hlt⟩
    exact Bool.noConfusion (hheld.symm.trans hfails)
  exact (containsRange_iff a b).2 ⟨start_le_of_order_le (hord.getElem_le hij ha hb),
    hstop.trans ((contains_iff a position).1 hholds).2.le⟩

theorem length_le_of_containsRange {a b : TextRange} (hstart : a.start ≤ b.start)
    (hstop : b.stop ≤ a.stop) : b.stop - b.start ≤ a.stop - a.start :=
  (Nat.sub_le_sub_right hstop b.start).trans (Nat.sub_le_sub_left hstart a.stop)

/-- The range found: one that holds the position and is no longer than any other that does. -/
def IsInnermost (ranges : List TextRange) (position : TextSize) : Option TextRange → Prop
  | some range => range ∈ ranges ∧ range.contains position = true ∧
      ∀ other ∈ ranges, other.contains position = true →
        range.stop - range.start ≤ other.stop - other.start
  | none => ∀ range ∈ ranges, range.contains position = false

theorem isInnermost_innermost {ranges : List TextRange} (hord : InOrder ranges)
    (hnest : Nested ranges) (position : TextSize) :
    IsInnermost ranges position
      (FunctionScopes.innermost ⟨ranges, linksTo ranges ranges.length⟩ position) := by
  let after := partitionPoint (fun range => decide (range.start ≤ position)) ranges
  have hafter : after ≤ ranges.length := (List.takeWhile_sublist _).length_le
  have hlookup := enclosing_eq le_rfl hafter fun last => encloses_position hord position
  have hbefore : ∀ i range, ranges[i]? = some range → range.contains position = true →
      i < after := by
    intro i range hat hholds
    rw [lt_partitionPoint_start_iff hord position hat]
    exact ((contains_iff range position).1 hholds).1
  unfold FunctionScopes.innermost
  dsimp only
  rw [hlookup]
  obtain ⟨hnone, hall⟩ | ⟨k, -, hsome, hpass, hall⟩ :=
    lastBelow_cases (holdsAt ranges fun held => held.contains position) after
  · rw [hnone]
    intro range hmem
    obtain ⟨i, hat⟩ := List.getElem?_of_mem hmem
    by_contra hholds
    rw [Bool.not_eq_false] at hholds
    have := hall i (hbefore i range hat hholds)
    rw [holdsAt_iff.2 ⟨range, hat, hholds⟩] at this
    cases this
  · obtain ⟨range, hat, hholds⟩ := holdsAt_iff.1 hpass
    rw [hsome, Option.bind_some, hat]
    refine ⟨List.mem_of_getElem? hat, hholds, fun other hother hheld => ?_⟩
    obtain ⟨i, hati⟩ := List.getElem?_of_mem hother
    have hle : i ≤ k := by
      by_contra hlt
      have := hall i (not_le.1 hlt) (hbefore i other hati hheld)
      rw [holdsAt_iff.2 ⟨other, hati, hheld⟩] at this
      cases this
    obtain rfl | hlt := Nat.eq_or_lt_of_le hle
    · rw [hat] at hati
      exact (Option.some.inj hati) ▸ le_rfl
    have hle := hord.getElem_le hlt hati hat
    obtain h | h | h := hnest other hother range (List.mem_of_getElem? hat)
    · rw [containsRange_iff] at h
      exact length_le_of_containsRange h.1 h.2
    · rw [containsRange_iff] at h
      have hstart := le_antisymm (start_le_of_order_le hle) h.1
      exact length_le_of_containsRange hstart.le (stop_le_of_order_le hle hstart)
    · exact absurd ⟨hheld, hholds⟩ (h position)

/-- **Innermost function scope.**  A lookup among nested or disjoint ranges finds a shortest of
those that hold the position; the scopes do not depend on the order of the insertions, and every
link leads to an earlier range. -/
theorem innermost_function_scope (ranges : List TextRange) (hnest : Nested ranges) :
    (∀ position, IsInnermost ranges position
      ((FunctionScopes.ofInsertions ranges).innermost position)) ∧
    (∀ ranges', ranges'.Perm ranges →
      FunctionScopes.ofInsertions ranges' = FunctionScopes.ofInsertions ranges) ∧
    ∀ index parent : Nat,
      (FunctionScopes.ofInsertions ranges).parents[index]? = some (some parent) →
      parent < index := by
  obtain ⟨filed, hord, hperm, heq⟩ := ofInsertions_eq ranges hnest
  have hnested : Nested filed := fun a ha b hb =>
    hnest a (hperm.mem_iff.1 ha) b (hperm.mem_iff.1 hb)
  refine ⟨?_, ?_, ?_⟩
  · intro position
    have hfound := isInnermost_innermost hord hnested position
    rw [heq]
    cases hget : FunctionScopes.innermost ⟨filed, linksTo filed filed.length⟩ position with
    | none =>
      rw [hget] at hfound
      exact fun range hmem => hfound range (hperm.mem_iff.2 hmem)
    | some range =>
      rw [hget] at hfound
      exact ⟨hperm.mem_iff.1 hfound.1, hfound.2.1, fun other hother =>
        hfound.2.2 other (hperm.mem_iff.2 hother)⟩
  · intro ranges' hperm'
    obtain ⟨filed', hord', hfiled', heq'⟩ := ofInsertions_eq ranges' fun a ha b hb =>
      hnest a (hperm'.mem_iff.1 ha) b (hperm'.mem_iff.1 hb)
    have hsame : filed' = filed :=
      List.Perm.eq_of_pairwise (fun _ _ _ _ => eq_of_order_le) hord' hord
        ((hfiled'.trans hperm').trans hperm.symm)
    rw [heq, heq', hsame]
  · intro index parent hat
    rw [heq] at hat
    have hlt : index < filed.length := by
      simpa [linksTo] using (List.getElem?_eq_some_iff.1 hat).1
    have hlink : linkAt filed index = some parent :=
      Option.some.inj ((getElem?_linksTo filed hlt).symm.trans hat)
    obtain ⟨range, -, hlast⟩ := Option.bind_eq_some_iff.1 hlink
    obtain ⟨hnone, -⟩ | ⟨k, hk, hsome, -⟩ :=
      lastBelow_cases (holdsAt filed fun held => containsRange held range) index
    · exact nomatch hnone.symm.trans hlast
    · exact (Option.some.inj (hsome.symm.trans hlast)) ▸ hk

/-- A range and one it encloses. -/
def outerInner : List TextRange := [⟨0, 100, by decide⟩, ⟨60, 70, by decide⟩]

theorem nested_outerInner : Nested outerInner := by
  intro a ha b hb
  simp only [outerInner, List.mem_cons, List.not_mem_nil, or_false] at ha hb
  obtain rfl | rfl := ha <;> obtain rfl | rfl := hb
  · exact .inl rfl
  · exact .inl rfl
  · exact .inr (.inl rfl)
  · exact .inl rfl

theorem innermost_function_scope_relinks : FunctionScopes.ofInsertions outerInner.reverse =
    FunctionScopes.ofInsertions outerInner ∧
    (FunctionScopes.ofInsertions outerInner).innermost 75 = some ⟨0, 100, by decide⟩ :=
  ⟨(innermost_function_scope outerInner nested_outerInner).2.1 outerInner.reverse
    (List.reverse_perm outerInner), by decide⟩

end GluaLs.Members
