/-
  GluaLs.Lib.KeyOrder — entries filed in key order.

  A sorted vector of keyed entries is searched by bisection and grows by inserting at the
  place the search names.  An `Ascending` list holds no key twice, so it is determined by what
  it holds (`Ascending.eq_of_mem_iff`), and everything about an insertion is said by

    • `ascending_fileEntry` — the list stays in order,
    • `mem_fileEntry` — it holds the new entry and what it held.
-/
import GluaLs.Lib.Related

namespace GluaLs.Lib.KeyOrder

variable {K A : Type} [LinearOrder K]

/-- The entries stand in key order, and no key stands twice. -/
def Ascending (entries : List (K × A)) : Prop := entries.Pairwise fun a b => a.1 < b.1

theorem ascending_nil : Ascending ([] : List (K × A)) := .nil

/-- **Entries in key order are determined by what they are.** -/
theorem Ascending.eq_of_mem_iff {l l' : List (K × A)} (h : Ascending l) (h' : Ascending l')
    (hmem : ∀ e, e ∈ l ↔ e ∈ l') : l = l' := by
  have : Std.Irrefl fun a b : K × A => a.1 < b.1 := ⟨fun a => lt_irrefl a.1⟩
  exact List.Pairwise.eq_of_mem_iff h h' hmem

theorem Ascending.filter {l : List (K × A)} (h : Ascending l) (p : K × A → Bool) :
    Ascending (l.filter p) :=
  List.Pairwise.filter p h

/-! ## §1. Searching -/

/-- `partition_point`: how many members come before the first that fails the test. -/
def partitionPoint {B : Type} (p : B → Bool) (l : List B) : Nat := (l.takeWhile p).length

theorem take_partitionPoint {B : Type} (p : B → Bool) (l : List B) :
    l.take (partitionPoint p l) = l.takeWhile p :=
  (List.prefix_iff_eq_take.1 (List.takeWhile_prefix p)).symm

theorem drop_partitionPoint {B : Type} (p : B → Bool) (l : List B) :
    l.drop (partitionPoint p l) = l.dropWhile p := by
  have hparts : l.takeWhile p ++ l.drop (partitionPoint p l) = l.takeWhile p ++ l.dropWhile p := by
    rw [← take_partitionPoint, List.take_append_drop, take_partitionPoint,
      List.takeWhile_append_dropWhile]
  exact List.append_cancel_left hparts

section

variable {B : Type} {R : B → B → Prop} {p : B → Bool} {l : List B}

/-- If members pass a test when later ones do, none passes it from the first that fails on. -/
theorem not_of_mem_dropWhile (h : l.Pairwise R) (hdown : ∀ a b, R a b → p b = true → p a = true) :
    ∀ b ∈ l.dropWhile p, ¬ p b = true := by
  induction l with
  | nil => exact nofun
  | cons a l ih =>
    obtain ⟨hfirst, hrest⟩ := List.pairwise_cons.1 h
    by_cases ha : p a = true
    · rw [List.dropWhile_cons_of_pos ha]
      exact ih hrest
    · rw [List.dropWhile_cons_of_neg ha]
      intro b hb
      obtain rfl | hb := List.mem_cons.1 hb
      · exact ha
      · exact fun hpb => ha (hdown a b (hfirst b hb) hpb)

/-- The members before the partition point are those that pass. -/
theorem lt_partitionPoint_iff (h : l.Pairwise R) (hdown : ∀ a b, R a b → p b = true → p a = true)
    {i : Nat} {b : B} (hat : l[i]? = some b) : i < partitionPoint p l ↔ p b = true := by
  constructor
  · intro hlt
    rw [← List.getElem?_take_of_lt hlt, take_partitionPoint] at hat
    exact List.all_eq_true.1 List.all_takeWhile b (List.mem_of_getElem? hat)
  · intro hpb
    by_contra hge
    refine not_of_mem_dropWhile h hdown b ?_ hpb
    rw [← Nat.add_sub_cancel' (not_lt.1 hge), ← List.getElem?_drop, drop_partitionPoint] at hat
    exact List.mem_of_getElem? hat

end

/-- In key order, the entries before the first that fails a test are those that pass it, if
    smaller keys pass when larger ones do. -/
theorem Ascending.takeWhile_eq_filter {l : List (K × A)} (h : Ascending l) {p : K × A → Bool}
    (hdown : ∀ e e' : K × A, e.1 < e'.1 → p e' = true → p e = true) :
    l.takeWhile p = l.filter p := by
  induction l with
  | nil => rfl
  | cons e l ih =>
    obtain ⟨hfirst, hrest⟩ := List.pairwise_cons.1 h
    cases hp : p e with
    | true =>
      rw [List.takeWhile_cons_of_pos hp, List.filter_cons_of_pos hp, ih hrest]
    | false =>
      have hnone : l.filter p = [] := by
        rw [List.filter_eq_nil_iff]
        intro e' he' hp'
        rw [hdown e e' (hfirst e' he') hp'] at hp
        cases hp
      have hneg : ¬ p e = true := by
        rw [hp]
        exact Bool.false_ne_true
      rw [List.takeWhile_cons_of_neg hneg, List.filter_cons_of_neg hneg, hnone]

/-- The entry's key is below `key`. -/
def below (key : K) (e : K × A) : Bool := decide (e.1 < key)

/-- `binary_search_by_key`: where the key stands, or where it would. -/
def binarySearchByKey (key : K) (entries : List (K × A)) : Except Nat Nat :=
  match entries[partitionPoint (below key) entries]? with
  | some e =>
    if e.1 = key then .ok (partitionPoint (below key) entries)
    else .error (partitionPoint (below key) entries)
  | none => .error (partitionPoint (below key) entries)

/-! ## §2. Filing -/

/-- Files an entry where the search says.  A key that is there already is left alone if its
    entries are filed `once`. -/
def fileEntry (once : Bool) (key : K) (a : A) (entries : List (K × A)) : List (K × A) :=
  match binarySearchByKey key entries with
  | .ok at' => if once then entries else entries.insertIdx at' (key, a)
  | .error at' => entries.insertIdx at' (key, a)

section

variable {entries : List (K × A)} {key : K}

/-- What the search finds of entries in key order. -/
theorem binarySearchByKey_cases (key : K) (h : Ascending entries) :
    (∃ at' a before after, binarySearchByKey key entries = .ok at' ∧
      entries = before ++ (key, a) :: after) ∨
    ∃ before after, binarySearchByKey key entries = .error before.length ∧
      entries = before ++ after ∧ (∀ e ∈ before, e.1 < key) ∧ ∀ e ∈ after, key < e.1 := by
  have hparts : entries = entries.takeWhile (below key) ++ entries.dropWhile (below key) :=
    List.takeWhile_append_dropWhile.symm
  have hbefore : ∀ e ∈ entries.takeWhile (below key), e.1 < key := by
    intro e he
    exact of_decide_eq_true (List.all_eq_true.1 List.all_takeWhile e he)
  have hget : entries[partitionPoint (below key) entries]? =
      (entries.dropWhile (below key)).head? := by
    rw [← drop_partitionPoint, List.head?_drop]
  cases hafter : entries.dropWhile (below key) with
  | nil =>
    refine .inr ⟨entries.takeWhile (below key), [], ?_, ?_, hbefore, nofun⟩
    · rw [hafter] at hget
      unfold binarySearchByKey
      rw [hget]
      rfl
    · rw [hafter] at hparts
      exact hparts
  | cons e after =>
    rw [hafter] at hget hparts
    have hge : key ≤ e.1 := by
      have hhead := List.head?_dropWhile_not (below key) entries
      rw [hafter] at hhead
      exact not_lt.1 (of_decide_eq_false hhead)
    by_cases heq : e.1 = key
    · refine .inl ⟨partitionPoint (below key) entries, e.2, entries.takeWhile (below key), after,
        ?_, ?_⟩
      · unfold binarySearchByKey
        rw [hget]
        exact if_pos heq
      · rw [show (key, e.2) = e from Prod.ext heq.symm rfl]
        exact hparts
    · refine .inr ⟨entries.takeWhile (below key), e :: after, ?_, hparts, hbefore, ?_⟩
      · unfold binarySearchByKey
        rw [hget]
        exact if_neg heq
      · have hlt : key < e.1 := lt_of_le_of_ne hge (Ne.symm heq)
        have hordered : (e :: after).Pairwise fun a b => a.1 < b.1 := by
          unfold Ascending at h
          rw [hparts] at h
          exact (List.pairwise_append.1 h).2.1
        intro e' he'
        rcases List.mem_cons.1 he' with rfl | hlater
        · exact hlt
        · exact lt_trans hlt ((List.pairwise_cons.1 hordered).1 e' hlater)

variable {once : Bool} {a : A}

section

variable (h : Ascending entries) (hfree : ∀ b, (key, b) ∈ entries → once = true ∧ b = a)
include h hfree

/-- Where its key is new, an entry is put between the smaller and the larger keys; where it is
    not, nothing changes. -/
theorem fileEntry_cases :
    ((key, a) ∈ entries ∧ fileEntry once key a entries = entries) ∨
    ∃ before after, entries = before ++ after ∧
      fileEntry once key a entries = before ++ (key, a) :: after ∧
      (∀ e ∈ before, e.1 < key) ∧ ∀ e ∈ after, key < e.1 := by
  rcases binarySearchByKey_cases key h with
    ⟨at', b, before, after, hfound, hparts⟩ | ⟨before, after, hfound, hparts, hlow, hhigh⟩
  · have hmem : (key, b) ∈ entries := by
      rw [hparts]
      exact List.mem_append_right _ (.head _)
    obtain ⟨honce, rfl⟩ := hfree b hmem
    refine .inl ⟨hmem, ?_⟩
    unfold fileEntry
    rw [hfound]
    exact if_pos honce
  · refine .inr ⟨before, after, hparts, ?_, hlow, hhigh⟩
    unfold fileEntry
    rw [hfound, hparts]
    exact insertIdx_length before after (key, a)

/-- **Filing keeps the entries in key order.** -/
theorem ascending_fileEntry : Ascending (fileEntry once key a entries) := by
  rcases fileEntry_cases h hfree with ⟨-, heq⟩ | ⟨before, after, rfl, heq, hlow, hhigh⟩
  · rw [heq]
    exact h
  · obtain ⟨hbefore, hafter, hacross⟩ := List.pairwise_append.1 h
    rw [heq]
    refine List.pairwise_append.2 ⟨hbefore, List.pairwise_cons.2 ⟨hhigh, hafter⟩, ?_⟩
    intro e he e' he'
    rcases List.mem_cons.1 he' with rfl | hlater
    · exact hlow e he
    · exact hacross e he e' hlater

/-- **What is held after filing.** -/
theorem mem_fileEntry (e : K × A) :
    e ∈ fileEntry once key a entries ↔ e = (key, a) ∨ e ∈ entries := by
  rcases fileEntry_cases h hfree with ⟨hmem, heq⟩ | ⟨before, after, rfl, heq, -, -⟩
  · rw [heq]
    constructor
    · exact .inr
    · rintro (rfl | he)
      · exact hmem
      · exact he
  · rw [heq]
    simp only [List.mem_append, List.mem_cons]
    tauto

end

end

end GluaLs.Lib.KeyOrder
