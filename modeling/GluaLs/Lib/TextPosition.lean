/-
  GluaLs.Lib.TextPosition — lines, UTF-16 columns and byte offsets of a text.

  A text is the list of its characters.  Two ways to point into it meet here:

    • an editor counts LINES and UTF-16 COLUMNS (`positionAt`), and means by a column past
      the end of a line that line's end (`Addresses`),
    • a program that holds the text in UTF-8 counts BYTES (`byteLen`), and may cut the text
      only between two characters (`splitBytes`).

  `Addresses.le` says that positions in order point at places in order.
-/
import Mathlib.Data.List.Induction

namespace GluaLs.Lib

abbrev Text : Type := List Char

/-- A line and a column, both from zero. -/
structure Position where
  line : Nat
  character : Nat
  deriving DecidableEq, Repr

/-- `(a.line, a.character) <= (b.line, b.character)`. -/
def Position.le (a b : Position) : Prop :=
  a.line < b.line ∨ (a.line = b.line ∧ a.character ≤ b.character)

instance (a b : Position) : Decidable (a.le b) := by
  unfold Position.le
  exact inferInstance

/-! ## §1. Widths -/

/-- The UTF-16 code units of a character. -/
def lenUtf16 (c : Char) : Nat := if c.val.toNat ≤ 0xFFFF then 1 else 2

theorem lenUtf16_pos (c : Char) : 0 < lenUtf16 c := by
  unfold lenUtf16
  split_ifs <;> decide

def utf16Len : Text → Nat
  | [] => 0
  | c :: t => lenUtf16 c + utf16Len t

@[simp] theorem utf16Len_nil : utf16Len [] = 0 := rfl

@[simp] theorem utf16Len_cons (c : Char) (t : Text) :
    utf16Len (c :: t) = lenUtf16 c + utf16Len t := rfl

@[simp] theorem utf16Len_append (a b : Text) : utf16Len (a ++ b) = utf16Len a + utf16Len b := by
  induction a with
  | nil => simp
  | cons c a ih =>
    show lenUtf16 c + utf16Len (a ++ b) = lenUtf16 c + utf16Len a + utf16Len b
    omega

/-- The UTF-8 bytes of a text. -/
def byteLen : Text → Nat
  | [] => 0
  | c :: t => c.utf8Size + byteLen t

@[simp] theorem byteLen_nil : byteLen [] = 0 := rfl

@[simp] theorem byteLen_cons (c : Char) (t : Text) :
    byteLen (c :: t) = c.utf8Size + byteLen t := rfl

@[simp] theorem byteLen_append (a b : Text) : byteLen (a ++ b) = byteLen a + byteLen b := by
  induction a with
  | nil => simp
  | cons c a ih =>
    show c.utf8Size + byteLen (a ++ b) = c.utf8Size + byteLen a + byteLen b
    omega

/-! ## §2. Cutting a text at a byte offset -/

/-- `line.strip_suffix(ch).unwrap_or(line)` -/
def stripSuffix (ch : Char) (line : Text) : Text :=
  if line.getLast? = some ch then line.dropLast else line

/-- The text before and behind a byte offset; nothing where the offset is inside a
    character or past the end. -/
def splitBytes : Text → Nat → Option (Text × Text)
  | t, 0 => some ([], t)
  | [], _ + 1 => none
  | c :: t, n + 1 =>
    if c.utf8Size ≤ n + 1 then
      (splitBytes t (n + 1 - c.utf8Size)).map fun cut => (c :: cut.1, cut.2)
    else none

/-- A cut behind whole characters succeeds. -/
theorem splitBytes_append (a b : Text) : splitBytes (a ++ b) (byteLen a) = some (a, b) := by
  induction a with
  | nil => cases b <;> rfl
  | cons c a ih =>
    have hpos := c.utf8Size_pos
    obtain ⟨n, hn⟩ : ∃ n, byteLen (c :: a) = n + 1 := ⟨byteLen (c :: a) - 1, by simp; omega⟩
    have hrest : n + 1 - c.utf8Size = byteLen a := by
      rw [← hn]
      simp
    have hle : c.utf8Size ≤ n + 1 := by
      rw [← hn]
      simp
    rw [hn]
    show (if c.utf8Size ≤ n + 1 then
        (splitBytes (a ++ b) (n + 1 - c.utf8Size)).map fun cut => (c :: cut.1, cut.2)
      else none) = _
    rw [if_pos hle, hrest, ih]
    rfl

/-- Of two cuts of one text, the later one cuts what is behind the earlier one. -/
theorem later_cut {a b c d : Text} (h : a ++ b = c ++ d) (hlen : a.length ≤ c.length) :
    ∃ m, c = a ++ m ∧ b = m ++ d := by
  obtain ⟨m, rfl⟩ := List.prefix_of_prefix_length_le (List.prefix_append a b)
    (by rw [h]; exact List.prefix_append c d : c <+: a ++ b) hlen
  rw [List.append_assoc] at h
  exact ⟨m, rfl, List.append_cancel_left h⟩

/-! ## §3. Where an editor sees a boundary -/

/-- The position behind one more character. -/
def advance (p : Position) (c : Char) : Position :=
  if c = '\n' then ⟨p.line + 1, 0⟩ else ⟨p.line, p.character + lenUtf16 c⟩

/-- The editor's position of the boundary behind a list of characters. -/
def positionAfter (before : Text) : Position := before.foldl advance ⟨0, 0⟩

/-- The editor's position of the boundary with `i` characters before it. -/
def positionAt (t : Text) (i : Nat) : Position := positionAfter (t.take i)

theorem positionAfter_snoc (a : Text) (c : Char) :
    positionAfter (a ++ [c]) = advance (positionAfter a) c := by
  unfold positionAfter
  rw [List.foldl_append]
  rfl

/-- Characters that break no line only move the column. -/
theorem positionAfter_append (a b : Text) (h : '\n' ∉ b) :
    positionAfter (a ++ b)
      = ⟨(positionAfter a).line, (positionAfter a).character + utf16Len b⟩ := by
  induction b using List.reverseRecOn with
  | nil => simp
  | append_singleton b c ih =>
    have hc : c ≠ '\n' := by
      intro hc
      exact h (by simp [hc])
    rw [← List.append_assoc, positionAfter_snoc, ih (fun hb => h (by simp [hb]))]
    unfold advance
    rw [if_neg hc]
    simp [Nat.add_assoc]

theorem line_le_append (a b : Text) : (positionAfter a).line ≤ (positionAfter (a ++ b)).line := by
  induction b using List.reverseRecOn with
  | nil => simp
  | append_singleton b c ih =>
    rw [← List.append_assoc, positionAfter_snoc]
    unfold advance
    split_ifs
    · show _ ≤ (positionAfter (a ++ b)).line + 1
      omega
    · exact ih

/-- On one line there is no line break between two boundaries. -/
theorem no_break_of_line_eq (a b : Text)
    (h : (positionAfter (a ++ b)).line = (positionAfter a).line) : '\n' ∉ b := by
  intro hmem
  obtain ⟨x, y, rfl⟩ := List.append_of_mem hmem
  have h1 : (positionAfter a).line ≤ (positionAfter (a ++ x)).line := line_le_append a x
  have h2 := line_le_append (a ++ x ++ ['\n']) y
  rw [positionAfter_snoc] at h2
  have h3 : (advance (positionAfter (a ++ x)) '\n').line = (positionAfter (a ++ x)).line + 1 := rfl
  have h4 : a ++ (x ++ '\n' :: y) = a ++ x ++ ['\n'] ++ y := by simp
  rw [h4] at h
  omega

/-! ## §4. What a position addresses -/

/-- The boundary between `before` and `after` is inside a CRLF pair. -/
def InsideBreak (before after : Text) : Prop :=
  before.getLast? = some '\r' ∧ after.head? = some '\n'

instance (before after : Text) : Decidable (InsideBreak before after) := by
  unfold InsideBreak
  exact inferInstance

/-- `after` starts where a line ends: at a line break, with the carriage return that
    belongs to it, or at the end of the text. -/
def AtLineEnd (after : Text) : Prop :=
  after = [] ∨ after.head? = some '\n' ∨ after.take 2 = ['\r', '\n']

/-- The place a position means, as the text before it and the text behind it: a boundary
    not inside a CRLF pair, with that line and column; a column past the end of the line
    means the line's end. -/
structure Addresses (t : Text) (p : Position) (before after : Text) : Prop where
  cut : t = before ++ after
  outside : ¬ InsideBreak before after
  line : (positionAfter before).line = p.line
  column : (positionAfter before).character = p.character ∨
    ((positionAfter before).character < p.character ∧ AtLineEnd after)

/-- From a line's end, the next boundary of the line that is not inside a break is the
    end itself. -/
theorem nil_of_atLineEnd (before mid after : Text) (hend : AtLineEnd (mid ++ after))
    (hbreak : '\n' ∉ mid) (hout : ¬ InsideBreak (before ++ mid) after) : mid = [] := by
  cases mid with
  | nil => rfl
  | cons c mid =>
    obtain h | h | h := hend
    · simp at h
    · simp only [List.cons_append, List.head?_cons, Option.some.injEq] at h
      exact absurd (List.mem_cons.2 (.inl h.symm)) hbreak
    · -- the line ends in a CRLF pair: one character further is inside it
      cases mid with
      | nil =>
        cases after with
        | nil => simp at h
        | cons d after =>
          simp only [List.cons_append, List.nil_append, List.take_succ_cons, List.take_zero,
            List.cons.injEq, and_true] at h
          refine absurd ⟨?_, ?_⟩ hout
          · simp [h.1]
          · simp [h.2]
      | cons d mid =>
        simp only [List.cons_append, List.take_succ_cons, List.take_zero, List.cons.injEq,
          and_true] at h
        exact absurd (by simp [h.2]) hbreak

theorem utf16Len_pos (t : Text) (h : t ≠ []) : 0 < utf16Len t := by
  cases t with
  | nil => exact absurd rfl h
  | cons c t =>
    have := lenUtf16_pos c
    simp only [utf16Len_cons]
    omega

/-- **Positions in order address places in order.** -/
theorem Addresses.le {t : Text} {p q : Position} {a b a' b' : Text} (hp : Addresses t p a b)
    (hq : Addresses t q a' b') (hle : p.le q) : a.length ≤ a'.length := by
  by_contra hlt
  have hcut : a' ++ b' = a ++ b := by rw [← hp.cut, ← hq.cut]
  obtain ⟨mid, rfl, rfl⟩ := later_cut hcut (by omega)
  have hmono := line_le_append a' mid
  have hpl := hp.line
  have hql := hq.line
  have hsame : (positionAfter (a' ++ mid)).line = (positionAfter a').line := by
    obtain h | h := hle <;> omega
  have hbreak := no_break_of_line_eq a' mid hsame
  have hne : mid ≠ [] := by
    intro h
    subst h
    simp at hlt
  have hcol := positionAfter_append a' mid hbreak
  have hpos := utf16Len_pos mid hne
  have hchar : p.character ≤ q.character := by
    obtain h | h := hle
    · omega
    · exact h.2
  -- the later place has the larger column, so the earlier one was clamped to a line end
  have hclamped : AtLineEnd (mid ++ b) := by
    have hpc := hp.column
    rw [hcol] at hpc
    obtain h | h := hq.column
    · exfalso
      obtain h' | h' := hpc
      · simp only at h'; omega
      · have := h'.1
        simp only at this
        omega
    · exact h.2
  exact hne (nil_of_atLineEnd a' mid b hclamped hbreak hp.outside)

end GluaLs.Lib
