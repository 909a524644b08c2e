/-
  GluaLs.Docs.RangedChange — a ranged change replaces what its positions address.

  `line_start` and `column_offset` scan bytes; an editor's position addresses a place
  between characters (`Addresses`).  The two agree:

    • `locate_of_addresses` — the scan finds the place a position addresses,
    • `addresses_of_locate` — what the scan finds is addressed, and the scan never slices
      off a character boundary,
    • `applyRangedChange_of` — a ranged change whose positions are in order and address a place
      replaces what is between the two,
    • `applyRangedChange_cases` — otherwise it fails, and never by a panic of `replace_range`.
-/
import GluaLs.Lib.FiniteMap
import GluaLs.Lib.TextPosition

namespace GluaLs.Docs

open GluaLs.Lib

/-! ## §1. Positions, ranges and errors

  `EditorDocuments` keeps, for each document, the text after every `textDocument/didChange`
  the client sent (`change`).  The text is UTF-8: offsets are BYTES, and a slice or
  `replace_range` off a character boundary, or with its start behind its end, PANICS
  (`Fault.panic`).  A change that cannot be applied takes the text out of the map half-way
  through a notification: the entry stays, with no text.

  | source | model |
  |---|---|
  | `String` / `&str` | `Text` (its characters) |
  | `text[k..]`, `text[..k]` | `sliceFrom`, `sliceTo` |
  | `str::find(char)` | `find` |
  | `HashMap<Uri, Option<String>>` | `HashMap U (Option Text)` |
  | `TextDocumentContentChangeEvent` | `ChangeEvent` (`range_length` unread) |
-/

structure Range where
  start : Position
  stop : Position
  deriving DecidableEq, Repr

/-- Why a didChange could not be applied to the editor text. -/
inductive SyncError where
  | NotOpen
  | OutOfSync
  | LineOutOfRange (position : Position)
  | InvertedRange (range : Range)
  | SplitsCharacter (position : Position)
  deriving DecidableEq, Repr

/-- What ends a change: an error it returns, or a panic. -/
inductive Fault where
  | sync (error : SyncError)
  | panic
  deriving DecidableEq, Repr

/-! ## §2. Strings, by bytes -/

/-- `&text[k..]` -/
def sliceFrom (text : Text) (k : Nat) : Except Fault Text :=
  match splitBytes text k with
  | some cut => .ok cut.2
  | none => .error .panic

/-- `&text[..k]` -/
def sliceTo (text : Text) (k : Nat) : Except Fault Text :=
  match splitBytes text k with
  | some cut => .ok cut.1
  | none => .error .panic

/-- `text.find(ch)`: the byte offset of the first such character. -/
def find (ch : Char) : Text → Option Nat
  | [] => none
  | c :: t => if c = ch then some 0 else (find ch t).map fun k => c.utf8Size + k

/-- `text.replace_range(start..stop, new_text)` -/
def replaceRange (text : Text) (start stop : Nat) (newText : Text) : Except Fault Text :=
  if stop < start then .error .panic
  else
    match splitBytes text start, splitBytes text stop with
    | some head, some tail => .ok (head.1 ++ newText ++ tail.2)
    | _, _ => .error .panic

/-! ## §3. One ranged change -/

/-- The loop of `line_start`: `turns` lines on from the line that starts at `start`. -/
def lineStartLoop (text : Text) (position : Position) : Nat → Nat → Except Fault Nat
  | 0, start => .ok start
  | turns + 1, start => do
      let rest ← sliceFrom text start
      match find '\n' rest with
      | none => .error (.sync (.LineOutOfRange position))
      | some newline => lineStartLoop text position turns (start + (newline + 1))

/-- Byte offset where `position`'s line starts, scanning on from `from_`, the start of line
    `fromLine` at or before it. -/
def lineStart (text : Text) (from_ fromLine : Nat) (position : Position) : Except Fault Nat :=
  lineStartLoop text position (position.line - fromLine) from_

/-- The line that starts `rest`, without its line break. -/
def lineOf (rest : Text) : Except Fault Text :=
  match find '\n' rest with
  | some stop => do
      let line ← sliceTo rest stop
      .ok (stripSuffix '\r' line)
  | none => .ok rest

/-- The loop over `line.char_indices()`, at byte `offset` behind `units` UTF-16 units. -/
def columnLoop (lineStart : Nat) (position : Position) :
    Text → (units offset : Nat) → Except Fault Nat
  | [], units, offset =>
    if units > position.character then .error (.sync (.SplitsCharacter position))
    else .ok (lineStart + offset)
  | ch :: line, units, offset =>
    if units ≥ position.character then
      if units = position.character then .ok (lineStart + offset)
      else .error (.sync (.SplitsCharacter position))
    else columnLoop lineStart position line (units + lenUtf16 ch) (offset + ch.utf8Size)

/-- Byte offset of `position`'s UTF-16 column on the line starting at `lineStart`; a column
    past the line end means the line end. -/
def columnOffset (text : Text) (lineStart : Nat) (position : Position) : Except Fault Nat := do
  let rest ← sliceFrom text lineStart
  let line ← lineOf rest
  columnLoop lineStart position line 0 0

def applyRangedChange (text : Text) (range : Range) (newText : Text) : Except Fault Text :=
  if range.start.le range.stop then do
    let startLine ← lineStart text 0 0 range.start
    let start ← columnOffset text startLine range.start
    let endLine ← lineStart text startLine range.start.line range.stop
    let stop ← columnOffset text endLine range.stop
    replaceRange text start stop newText
  else .error (.sync (.InvertedRange range))

/-! ## §4. Notifications -/

structure ChangeEvent where
  range : Option Range
  text : Text
  deriving DecidableEq, Repr

/-- The loop of `change` over one notification's changes; `missing` is the error where
    there is no text to change. -/
def applyChanges (missing : SyncError) : List ChangeEvent → Option Text → Except Fault (Option Text)
  | [], text => .ok text
  | change :: changes, text =>
    match change.range with
    | none => applyChanges missing changes (some change.text)
    | some range =>
      match text with
      | none => .error (.sync missing)
      | some text => do
          let text ← applyRangedChange text range change.text
          applyChanges missing changes (some text)

/-- The documents; `none` once a change could not be applied. -/
structure EditorDocuments (U : Type) where
  texts : HashMap U (Option Text)

section

variable {U : Type} [DecidableEq U]

namespace EditorDocuments

/-- `EditorDocuments::default()` -/
def empty : EditorDocuments U := ⟨∅⟩

/-- `open` -/
def openDocument (docs : EditorDocuments U) (uri : U) (text : Text) : EditorDocuments U :=
  ⟨docs.texts.insert uri (some text)⟩

def close (docs : EditorDocuments U) (uri : U) : EditorDocuments U := ⟨docs.texts.erase uri⟩

/-- The text held for a document, if there is one. -/
def text (docs : EditorDocuments U) (uri : U) : Option Text := (docs.texts.lookup uri).join

/-- Applies one notification's changes in order and returns the full text after them. -/
def change (docs : EditorDocuments U) (uri : U) (changes : List ChangeEvent) :
    Except Fault Text × EditorDocuments U :=
  let entry := docs.texts.lookup uri
  let missing := if entry.isSome then SyncError.OutOfSync else SyncError.NotOpen
  -- Option::take: an entry that exists stays, without its text
  let taken := if entry.isSome then docs.texts.insert uri none else docs.texts
  match applyChanges missing changes entry.join with
  | .error fault => (.error fault, ⟨taken⟩)
  | .ok none => (.error (.sync missing), ⟨taken⟩)
  | .ok (some text) => (.ok text, ⟨taken.insert uri (some text)⟩)

/-- The answers to a sequence of notifications for one document. -/
def changeAll (docs : EditorDocuments U) (uri : U) :
    List (List ChangeEvent) → List (Except Fault Text)
  | [] => []
  | changes :: rest => (docs.change uri changes).1 :: (docs.change uri changes).2.changeAll uri rest

end EditorDocuments

/-- What the client sends about documents. -/
inductive Event (U : Type) where
  | didOpen (uri : U) (text : Text)
  | didClose (uri : U)
  | didChange (uri : U) (changes : List ChangeEvent)

namespace EditorDocuments

def step (docs : EditorDocuments U) : Event U → EditorDocuments U
  | .didOpen uri text => docs.openDocument uri text
  | .didClose uri => docs.close uri
  | .didChange uri changes => (docs.change uri changes).2

def run (docs : EditorDocuments U) (events : List (Event U)) : EditorDocuments U :=
  events.foldl step docs

end EditorDocuments

end

/-! ## §5. Slices and searches -/

theorem sliceFrom_append (a b : Text) : sliceFrom (a ++ b) (byteLen a) = .ok b := by
  unfold sliceFrom
  rw [splitBytes_append]

theorem sliceTo_append (a b : Text) : sliceTo (a ++ b) (byteLen a) = .ok a := by
  unfold sliceTo
  rw [splitBytes_append]

theorem find_none (ch : Char) (t : Text) (h : ch ∉ t) : find ch t = none := by
  induction t with
  | nil => rfl
  | cons c t ih =>
    have hc : c ≠ ch := fun hc => h (by simp [hc])
    show (if c = ch then some 0 else (find ch t).map fun k => c.utf8Size + k) = none
    rw [if_neg hc, ih (fun ht => h (List.mem_cons_of_mem _ ht))]
    rfl

theorem find_append (ch : Char) (a b : Text) (h : ch ∉ a) :
    find ch (a ++ ch :: b) = some (byteLen a) := by
  induction a with
  | nil =>
    show (if ch = ch then some 0 else _) = _
    rw [if_pos rfl]
    rfl
  | cons c a ih =>
    have hc : c ≠ ch := fun hc => h (by simp [hc])
    show (if c = ch then some 0 else (find ch (a ++ ch :: b)).map fun k => c.utf8Size + k) = _
    rw [if_neg hc, ih (fun ha => h (List.mem_cons_of_mem _ ha))]
    rfl

/-! ## §6. Lines -/

/-- The text before a line: nothing, or a text that ends in a line break. -/
def LineStart (a : Text) : Prop := a = [] ∨ ∃ b, a = b ++ ['\n']

theorem positionAfter_line (a : Text) : (positionAfter a).line = a.count '\n' := by
  induction a using List.reverseRecOn with
  | nil => rfl
  | append_singleton a c ih =>
    rw [positionAfter_snoc, List.count_append]
    unfold advance
    split_ifs with hc
    · show (positionAfter a).line + 1 = _
      rw [ih, hc]
      rfl
    · show (positionAfter a).line = _
      rw [ih, List.count_singleton, if_neg (by simpa using hc)]
      rfl

theorem LineStart.character_zero {a : Text} (h : LineStart a) :
    (positionAfter a).character = 0 := by
  obtain rfl | ⟨b, rfl⟩ := h
  · rfl
  · rw [positionAfter_snoc]
    rfl

/-- Every text is whole lines and the start of one more. -/
theorem last_line (t : Text) : ∃ a pre, t = a ++ pre ∧ LineStart a ∧ '\n' ∉ pre := by
  induction t using List.reverseRecOn with
  | nil => exact ⟨[], [], rfl, .inl rfl, by simp⟩
  | append_singleton t c ih =>
    by_cases hc : c = '\n'
    · exact ⟨t ++ ['\n'], [], by simp [hc], .inr ⟨t, rfl⟩, by simp⟩
    · obtain ⟨a, pre, ht, ha, hpre⟩ := ih
      refine ⟨a, pre ++ [c], by simp [ht], ha, ?_⟩
      intro hmem
      obtain h | h := List.mem_append.1 hmem
      · exact hpre h
      · exact hc (List.mem_singleton.1 h).symm

theorem LineStart.tail {x y : Text} (h : LineStart (x ++ '\n' :: y)) : LineStart y := by
  by_cases hy : y = []
  · exact .inl hy
  · obtain h | ⟨b, h⟩ := h
    · simp at h
    · right
      have hlast : y.getLast? = some '\n' := by
        have := congrArg List.getLast? h
        rw [List.getLast?_concat, List.getLast?_append_of_ne_nil x (by simp),
          List.getLast?_cons_of_ne_nil hy] at this
        exact this
      exact ⟨y.dropLast, (List.dropLast_append_getLast? '\n' hlast).symm⟩

theorem LineStart.append {a b : Text} (ha : LineStart a) (hb : LineStart b) :
    LineStart (a ++ b) := by
  obtain hb | ⟨c, hb⟩ := hb
  · subst hb
    rw [List.append_nil]
    exact ha
  · exact .inr ⟨a ++ c, by rw [hb, List.append_assoc]⟩

/-- One turn of the loop. -/
theorem lineStartLoop_turn (p : Position) (turns : Nat) (a rest : Text) :
    lineStartLoop (a ++ rest) p (turns + 1) (byteLen a) =
      match find '\n' rest with
      | none => .error (.sync (.LineOutOfRange p))
      | some newline => lineStartLoop (a ++ rest) p turns (byteLen a + (newline + 1)) := by
  rw [lineStartLoop, sliceFrom_append]
  rfl

/-- One turn of the loop passes one line. -/
theorem lineStartLoop_succ (p : Position) (turns : Nat) (a x y : Text) (hx : '\n' ∉ x) :
    lineStartLoop (a ++ (x ++ '\n' :: y)) p (turns + 1) (byteLen a)
      = lineStartLoop (a ++ (x ++ '\n' :: y)) p turns (byteLen (a ++ x ++ ['\n'])) := by
  rw [lineStartLoop_turn, find_append '\n' x y hx]
  have hone : Char.utf8Size '\n' = 1 := by decide
  have hlen : byteLen (a ++ x ++ ['\n']) = byteLen a + (byteLen x + 1) := by
    simp [hone]
  rw [hlen]

/-- The loop passes whole lines. -/
theorem lineStartLoop_of (p : Position) (turns : Nat) :
    ∀ (a b c : Text), LineStart b → b.count '\n' = turns →
      lineStartLoop (a ++ (b ++ c)) p turns (byteLen a) = .ok (byteLen (a ++ b)) := by
  induction turns with
  | zero =>
    intro a b c hb hcount
    obtain rfl | ⟨b', rfl⟩ := hb
    · rw [List.append_nil]
      rfl
    · simp at hcount
  | succ turns ih =>
    intro a b c hb hcount
    have hmem : '\n' ∈ b := by
      rw [← List.count_pos_iff, hcount]
      omega
    obtain ⟨x, y, rfl, hx⟩ := List.eq_append_cons_of_mem hmem
    have hy : y.count '\n' = turns := by
      rw [List.count_append, List.count_cons_self, List.count_eq_zero.2 hx] at hcount
      omega
    have htext : a ++ (x ++ '\n' :: y ++ c) = a ++ (x ++ '\n' :: (y ++ c)) := by simp
    rw [htext, lineStartLoop_succ p turns a x (y ++ c) hx]
    have hstep := ih (a ++ x ++ ['\n']) y c hb.tail hy
    have htext' : a ++ x ++ ['\n'] ++ (y ++ c) = a ++ (x ++ '\n' :: (y ++ c)) := by simp
    rw [htext'] at hstep
    rw [hstep]
    congr 2
    simp

/-- Where the loop ends, it passed whole lines; else it runs out of them. -/
theorem lineStartLoop_cases (p : Position) (turns : Nat) :
    ∀ (a rest : Text),
      (∃ b c, rest = b ++ c ∧ LineStart b ∧ b.count '\n' = turns ∧
        lineStartLoop (a ++ rest) p turns (byteLen a) = .ok (byteLen (a ++ b))) ∨
      lineStartLoop (a ++ rest) p turns (byteLen a) = .error (.sync (.LineOutOfRange p)) := by
  induction turns with
  | zero =>
    intro a rest
    exact .inl ⟨[], rest, rfl, .inl rfl, rfl, by rw [List.append_nil]; rfl⟩
  | succ turns ih =>
    intro a rest
    by_cases hmem : '\n' ∈ rest
    · obtain ⟨x, y, rfl, hx⟩ := List.eq_append_cons_of_mem hmem
      rw [lineStartLoop_succ p turns a x y hx]
      have htext : a ++ (x ++ '\n' :: y) = a ++ x ++ ['\n'] ++ y := by simp
      rw [htext]
      obtain ⟨b, c, hy, hb, hcount, hrun⟩ | herr := ih (a ++ x ++ ['\n']) y
      · left
        refine ⟨x ++ '\n' :: b, c, by simp [hy], ?_, ?_, ?_⟩
        · have : x ++ '\n' :: b = (x ++ ['\n']) ++ b := by simp
          rw [this]
          exact LineStart.append (.inr ⟨x, rfl⟩) hb
        · rw [List.count_append, List.count_cons_self, List.count_eq_zero.2 hx, hcount]
          omega
        · rw [hrun]
          congr 2
          simp
      · exact .inr herr
    · right
      rw [lineStartLoop_turn, find_none '\n' rest hmem]

/-! ## §7. Columns -/

/-- What `column_offset` takes for the line: everything up to its end. -/
theorem lineOf_spec (rest : Text) : ∃ line tail, rest = line ++ tail ∧ lineOf rest = .ok line ∧
    '\n' ∉ line ∧ AtLineEnd tail ∧ ¬ InsideBreak line tail := by
  by_cases hmem : '\n' ∈ rest
  · obtain ⟨x, y, rfl, hx⟩ := List.eq_append_cons_of_mem hmem
    have hrun : lineOf (x ++ '\n' :: y) = .ok (stripSuffix '\r' x) := by
      unfold lineOf
      rw [find_append '\n' x y hx]
      show (sliceTo (x ++ '\n' :: y) (byteLen x) >>= fun line =>
        Except.ok (stripSuffix '\r' line)) = _
      rw [sliceTo_append]
      rfl
    rw [hrun]
    unfold stripSuffix
    split_ifs with hcr
    · -- the carriage return belongs to the break
      obtain ⟨x', rfl⟩ := List.getLast?_eq_some_iff.1 hcr
      refine ⟨x', '\r' :: '\n' :: y, by simp, by simp, ?_, .inr (.inr rfl), ?_⟩
      · exact fun h => hx (List.mem_append_left _ h)
      · intro h
        exact absurd h.2 (by simp)
    · exact ⟨x, '\n' :: y, rfl, rfl, hx, .inr (.inl rfl), fun h => hcr h.1⟩
  · refine ⟨rest, [], by simp, ?_, hmem, .inl rfl, fun h => absurd h.2 (by simp)⟩
    unfold lineOf
    rw [find_none '\n' rest hmem]

/-- A boundary of the line is where the column says, or the line's end before it. -/
def OnColumn (column : Nat) (pre post : Text) : Prop :=
  utf16Len pre = column ∨ (utf16Len pre < column ∧ post = [])

theorem columnLoop_of (start : Nat) (p : Position) (pre : Text) :
    ∀ (post : Text) (units offset : Nat),
      (units + utf16Len pre = p.character ∨ (units + utf16Len pre < p.character ∧ post = [])) →
      columnLoop start p (pre ++ post) units offset = .ok (start + (offset + byteLen pre)) := by
  induction pre with
  | nil =>
    intro post units offset hcol
    simp only [utf16Len_nil, Nat.add_zero] at hcol
    cases post with
    | nil =>
      show (if units > p.character then _ else Except.ok (start + offset)) = _
      rw [if_neg (by obtain h | h := hcol <;> omega)]
      rfl
    | cons ch post =>
      have hunits : units = p.character := by
        obtain h | h := hcol
        · exact h
        · exact absurd h.2 (by simp)
      show (if units ≥ p.character then
        if units = p.character then Except.ok (start + offset)
        else .error (Fault.sync (.SplitsCharacter p)) else _) = _
      rw [if_pos (by omega), if_pos hunits]
      rfl
  | cons ch pre ih =>
    intro post units offset hcol
    have hpos := lenUtf16_pos ch
    simp only [utf16Len_cons] at hcol
    show (if units ≥ p.character then
      if units = p.character then Except.ok (start + offset)
      else .error (.sync (.SplitsCharacter p))
      else columnLoop start p (pre ++ post) (units + lenUtf16 ch) (offset + ch.utf8Size)) = _
    rw [if_neg (by obtain h | h := hcol <;> omega), ih post _ _ (by
      obtain h | h := hcol
      · left; omega
      · exact .inr ⟨by omega, h.2⟩)]
    congr 2
    simp [Nat.add_assoc]

theorem columnLoop_cases (start : Nat) (p : Position) (line : Text) :
    ∀ (units offset : Nat),
      (∃ pre post, line = pre ++ post ∧
        (units + utf16Len pre = p.character ∨ (units + utf16Len pre < p.character ∧ post = []))) ∨
      columnLoop start p line units offset = .error (.sync (.SplitsCharacter p)) := by
  induction line with
  | nil =>
    intro units offset
    by_cases h : units > p.character
    · right
      show (if units > p.character then Except.error (Fault.sync (.SplitsCharacter p))
        else _) = _
      rw [if_pos h]
    · refine .inl ⟨[], [], rfl, ?_⟩
      simp only [utf16Len_nil, Nat.add_zero, and_true]
      omega
  | cons ch line ih =>
    intro units offset
    by_cases hge : units ≥ p.character
    · by_cases heq : units = p.character
      · exact .inl ⟨[], ch :: line, rfl, .inl heq⟩
      · right
        show (if units ≥ p.character then
          if units = p.character then Except.ok (start + offset)
          else .error (Fault.sync (.SplitsCharacter p)) else _) = _
        rw [if_pos hge, if_neg heq]
    · have hstep : columnLoop start p (ch :: line) units offset
          = columnLoop start p line (units + lenUtf16 ch) (offset + ch.utf8Size) := by
        show (if units ≥ p.character then _ else _) = _
        rw [if_neg hge]
      obtain ⟨pre, post, hline, hcol⟩ | herr :=
        ih (units + lenUtf16 ch) (offset + ch.utf8Size)
      · left
        refine ⟨ch :: pre, post, by simp [hline], ?_⟩
        simp only [utf16Len_cons]
        obtain h | h := hcol
        · left; omega
        · exact .inr ⟨by omega, h.2⟩
      · exact .inr (hstep.trans herr)

/-- `column_offset` on the line behind `a`, by cases: a boundary of the line, or a column
    inside a character. -/
theorem columnOffset_cases (p : Position) (a rest : Text) :
    ∃ line tail, rest = line ++ tail ∧ '\n' ∉ line ∧ AtLineEnd tail ∧ ¬ InsideBreak line tail ∧
      (∀ pre post, line = pre ++ post → OnColumn p.character pre post →
        columnOffset (a ++ rest) (byteLen a) p = .ok (byteLen (a ++ pre))) ∧
      ((∃ pre post, line = pre ++ post ∧ OnColumn p.character pre post) ∨
        columnOffset (a ++ rest) (byteLen a) p = .error (.sync (.SplitsCharacter p))) := by
  obtain ⟨line, tail, hrest, hline, hbreak, hend, hout⟩ := lineOf_spec rest
  have hrun : columnOffset (a ++ rest) (byteLen a) p = columnLoop (byteLen a) p line 0 0 := by
    unfold columnOffset
    rw [sliceFrom_append]
    show (lineOf rest >>= fun line => columnLoop (byteLen a) p line 0 0) = _
    rw [hline]
    rfl
  refine ⟨line, tail, hrest, hbreak, hend, hout, ?_, ?_⟩
  · intro pre post hcut hcol
    rw [hrun, hcut, columnLoop_of (byteLen a) p pre post 0 0 (by simpa [OnColumn] using hcol)]
    simp
  · obtain ⟨pre, post, hcut, hcol⟩ | herr := columnLoop_cases (byteLen a) p line 0 0
    · exact .inl ⟨pre, post, hcut, by simpa [OnColumn] using hcol⟩
    · exact .inr (hrun.trans herr)

/-! ## §8. The scan and the place a position addresses -/

theorem insideBreak_append (a b c : Text) (hb : b ≠ []) :
    InsideBreak (a ++ b) c ↔ InsideBreak b c := by
  unfold InsideBreak
  rw [List.getLast?_append_of_ne_nil a hb]

theorem not_insideBreak_lineStart (a c : Text) (ha : LineStart a) : ¬ InsideBreak a c := by
  intro h
  obtain rfl | ⟨b, rfl⟩ := ha
  · exact absurd h.1 (by simp)
  · have := h.1
    rw [List.getLast?_concat] at this
    exact absurd this (by decide)

/-- A boundary of a line that has the column is what the position addresses. -/
theorem addresses_of_onColumn (p : Position) (a pre post tail : Text) (ha : LineStart a)
    (hline : a.count '\n' = p.line) (hbreak : '\n' ∉ pre ++ post) (hend : AtLineEnd tail)
    (hout : ¬ InsideBreak (pre ++ post) tail) (hcol : OnColumn p.character pre post) :
    Addresses (a ++ (pre ++ post ++ tail)) p (a ++ pre) (post ++ tail) := by
  have hpre : '\n' ∉ pre := fun h => hbreak (List.mem_append_left _ h)
  have hpos := positionAfter_append a pre hpre
  rw [ha.character_zero, positionAfter_line, hline, Nat.zero_add] at hpos
  refine ⟨by simp, ?_, by rw [hpos], ?_⟩
  · intro h
    cases post with
    | nil =>
      rw [List.append_nil] at hout
      by_cases hnil : pre = []
      · subst hnil
        rw [List.append_nil] at h
        exact not_insideBreak_lineStart a _ ha h
      · exact hout ((insideBreak_append a pre _ hnil).1 h)
    | cons c post =>
      have hc := h.2
      simp only [List.cons_append, List.head?_cons, Option.some.injEq] at hc
      exact hbreak (by simp [hc])
  · rw [hpos]
    obtain h | ⟨h, rfl⟩ := hcol
    · exact .inl h
    · exact .inr ⟨h, hend⟩

/-- What a position addresses is a boundary of its line that has the column. -/
theorem onColumn_of_addresses (p : Position) (a pre after line tail : Text)
    (h : Addresses (a ++ (line ++ tail)) p (a ++ pre) after) (ha : LineStart a)
    (hpre : '\n' ∉ pre) (hend : AtLineEnd tail) (hbreak : '\n' ∉ line)
    (hout : ¬ InsideBreak line tail) :
    ∃ post, line = pre ++ post ∧ after = post ++ tail ∧ OnColumn p.character pre post := by
  have hcut : line ++ tail = pre ++ after := by
    have := h.cut
    rw [List.append_assoc] at this
    exact List.append_cancel_left this
  -- `pre` cannot reach past the line: behind the line's end is the inside of a break
  have hcases : ∃ post, line = pre ++ post ∧ after = post ++ tail := by
    by_cases hlen : pre.length ≤ line.length
    · exact later_cut hcut.symm hlen
    · obtain ⟨m, hm, htail⟩ := later_cut hcut (by omega)
      have hne : pre ≠ [] := by
        intro hnil
        simp [hnil] at hlen
      have hm' : m = [] := by
        apply nil_of_atLineEnd line m after (by rw [← htail]; exact hend)
        · exact fun hmem => hpre (by rw [hm]; exact List.mem_append_right _ hmem)
        · rw [← hm]
          exact fun hin => h.outside ((insideBreak_append a pre after hne).2 hin)
      subst hm'
      exact ⟨[], by rw [hm]; simp, by rw [htail]; simp⟩
  obtain ⟨post, hpost, hafter⟩ := hcases
  refine ⟨post, hpost, hafter, ?_⟩
  have hpos := positionAfter_append a pre hpre
  rw [ha.character_zero, Nat.zero_add] at hpos
  have hcol := h.column
  rw [hpos] at hcol
  obtain hc | ⟨hc, hat⟩ := hcol
  · exact .inl hc
  · right
    refine ⟨hc, nil_of_atLineEnd pre post tail (by rw [← hafter]; exact hat) ?_ ?_⟩
    · exact fun hmem => hbreak (by rw [hpost]; exact List.mem_append_right _ hmem)
    · rw [← hpost]
      exact hout

/-- **The scan finds the place a position addresses**, from any line start at or before the
    position's line. -/
theorem locate_of_addresses (t : Text) (p : Position) (before after from_ rest : Text)
    (h : Addresses t p before after) (hfrom : LineStart from_) (ht : t = from_ ++ rest)
    (hle : from_.count '\n' ≤ p.line) :
    ∃ a rest', t = a ++ rest' ∧ LineStart a ∧ a.count '\n' = p.line ∧
      lineStart t (byteLen from_) (from_.count '\n') p = .ok (byteLen a) ∧
      columnOffset t (byteLen a) p = .ok (byteLen before) := by
  obtain ⟨a, pre, rfl, ha, hpre⟩ := last_line before
  have hcut := h.cut
  have hline : a.count '\n' = p.line := by
    have := h.line
    rw [positionAfter_append a pre hpre, positionAfter_line] at this
    exact this
  -- the line the scan starts from is not behind the position's line
  have hprefix : ∃ b, a = from_ ++ b ∧ LineStart b := by
    have hpa : a <+: t := by
      rw [hcut, List.append_assoc]
      exact List.prefix_append _ _
    have hpf : from_ <+: t := by
      rw [ht]
      exact List.prefix_append _ _
    by_cases hlen : from_.length ≤ a.length
    · obtain ⟨b, hb⟩ := List.prefix_of_prefix_length_le hpf hpa hlen
      refine ⟨b, hb.symm, ?_⟩
      by_cases hnil : b = []
      · exact .inl hnil
      · obtain ha | ⟨c, ha⟩ := ha
        · rw [ha] at hb
          exact absurd (List.append_eq_nil_iff.1 hb).2 hnil
        · right
          refine ⟨b.dropLast, ?_⟩
          have hlast : b.getLast? = some '\n' := by
            rw [← List.getLast?_append_of_ne_nil from_ hnil, hb, ha, List.getLast?_concat]
          exact (List.dropLast_append_getLast? '\n' hlast).symm
    · -- then `from_` would end in a line break that `a` does not have
      exfalso
      obtain ⟨b, hb⟩ := List.prefix_of_prefix_length_le hpa hpf (by omega)
      have hne : b ≠ [] := by
        intro hnil
        rw [hnil, List.append_nil] at hb
        rw [hb] at hlen
        exact hlen le_rfl
      obtain hf | ⟨c, hf⟩ := hfrom
      · rw [hf] at hb
        exact hne (List.append_eq_nil_iff.1 hb).2
      · have hlast : b.getLast? = some '\n' := by
          rw [← List.getLast?_append_of_ne_nil a hne, hb, hf, List.getLast?_concat]
        have hmem : '\n' ∈ b := List.mem_of_getLast? hlast
        have hpos : 0 < b.count '\n' := List.count_pos_iff.2 hmem
        have hcount : from_.count '\n' = a.count '\n' + b.count '\n' := by
          rw [← hb, List.count_append]
        omega
  obtain ⟨b, hab, hb⟩ := hprefix
  have hcount : b.count '\n' = p.line - from_.count '\n' := by
    rw [← hline, hab, List.count_append]
    omega
  refine ⟨a, pre ++ after, by rw [hcut, List.append_assoc], ha, hline, ?_, ?_⟩
  · unfold lineStart
    have hrun := lineStartLoop_of p (p.line - from_.count '\n') from_ b (pre ++ after) hb hcount
    have htext : from_ ++ (b ++ (pre ++ after)) = t := by
      rw [hcut, hab]
      simp
    rw [htext] at hrun
    rw [hrun, hab]
  · obtain ⟨line, tail, hrest, hbreak, hend, hout, hrun, -⟩ := columnOffset_cases p a (pre ++ after)
    have haddr : Addresses (a ++ (line ++ tail)) p (a ++ pre) after := by
      have : a ++ (line ++ tail) = t := by
        rw [← hrest, hcut, List.append_assoc]
      rw [this]
      exact h
    obtain ⟨post, hpost, -, hcol⟩ :=
      onColumn_of_addresses p a pre after line tail haddr ha hpre hend hbreak hout
    have hres := hrun pre post hpost hcol
    rw [← List.append_assoc, ← hcut] at hres
    exact hres

/-- **What the scan finds is addressed**, and the scan does not panic. -/
theorem addresses_of_locate (t : Text) (p : Position) (from_ rest : Text)
    (hfrom : LineStart from_) (ht : t = from_ ++ rest) (hle : from_.count '\n' ≤ p.line) :
    (∃ a before after, LineStart a ∧ (∃ rest', t = a ++ rest') ∧ a.count '\n' = p.line ∧
      Addresses t p before after ∧
      lineStart t (byteLen from_) (from_.count '\n') p = .ok (byteLen a) ∧
      columnOffset t (byteLen a) p = .ok (byteLen before)) ∨
    (∃ e, (lineStart t (byteLen from_) (from_.count '\n') p >>= fun s => columnOffset t s p)
      = .error (.sync e)) := by
  subst ht
  obtain ⟨b, c, rfl, hb, hcount, hrun⟩ | herr :=
    lineStartLoop_cases p (p.line - from_.count '\n') from_ rest
  · have ha := hfrom.append hb
    have hline : (from_ ++ b).count '\n' = p.line := by
      rw [List.count_append, hcount]
      omega
    have htext : from_ ++ (b ++ c) = (from_ ++ b) ++ c := by simp
    obtain ⟨line, tail, hc, hbreak, hend, hout, hcols, hcase⟩ :=
      columnOffset_cases p (from_ ++ b) c
    obtain ⟨pre, post, hpost, hcol⟩ | herr := hcase
    · left
      refine ⟨from_ ++ b, from_ ++ b ++ pre, post ++ tail, ha, ⟨c, htext⟩, hline, ?_, hrun, ?_⟩
      · rw [htext, hc, hpost]
        apply addresses_of_onColumn p (from_ ++ b) pre post tail ha hline _ hend _ hcol
        · rw [← hpost]; exact hbreak
        · rw [← hpost]; exact hout
      · rw [htext]
        exact hcols pre post hpost hcol
    · right
      refine ⟨.SplitsCharacter p, ?_⟩
      unfold lineStart
      rw [hrun]
      show columnOffset (from_ ++ (b ++ c)) (byteLen (from_ ++ b)) p = _
      rw [htext]
      exact herr
  · right
    refine ⟨.LineOutOfRange p, ?_⟩
    unfold lineStart
    rw [herr]
    rfl

/-! ## §9. A ranged change -/

/-- `replace_range` between two boundaries in order. -/
theorem replaceRange_of (t a b c d newText : Text) (hab : t = a ++ b) (hcd : t = c ++ d)
    (hlen : a.length ≤ c.length) :
    replaceRange t (byteLen a) (byteLen c) newText = .ok (a ++ newText ++ d) := by
  obtain ⟨m, hm, -⟩ := later_cut (hab.symm.trans hcd) hlen
  have hle : byteLen a ≤ byteLen c := by
    rw [hm, byteLen_append]
    omega
  unfold replaceRange
  have ha : splitBytes t (byteLen a) = some (a, b) := by
    rw [hab]
    exact splitBytes_append a b
  have hc : splitBytes t (byteLen c) = some (c, d) := by
    rw [hcd]
    exact splitBytes_append c d
  rw [if_neg (by omega), ha, hc]

/-- Once the start is located, the end is looked up from its line on. -/
theorem applyRangedChange_located (t : Text) (r : Range) (newText l a : Text)
    (hle : r.start.le r.stop) (hcount : l.count '\n' = r.start.line)
    (hline : lineStart t 0 0 r.start = .ok (byteLen l))
    (hcol : columnOffset t (byteLen l) r.start = .ok (byteLen a)) :
    applyRangedChange t r newText =
      (lineStart t (byteLen l) (l.count '\n') r.stop >>= fun endLine =>
      columnOffset t endLine r.stop) >>= fun stop => replaceRange t (byteLen a) stop newText := by
  unfold applyRangedChange
  rw [if_pos hle, hline, hcount, bind_assoc]
  show (columnOffset t (byteLen l) r.start >>= fun start =>
    lineStart t (byteLen l) r.start.line r.stop >>= fun endLine =>
    columnOffset t endLine r.stop >>= fun stop => replaceRange t start stop newText) = _
  rw [hcol]
  rfl

/-- **A ranged change replaces what is between the places its positions address.** -/
theorem applyRangedChange_of (t : Text) (r : Range) (newText a b c d : Text)
    (hle : r.start.le r.stop) (hstart : Addresses t r.start a b) (hstop : Addresses t r.stop c d) :
    applyRangedChange t r newText = .ok (a ++ newText ++ d) := by
  obtain ⟨l, rest, htl, hl, hcount, hline, hcol⟩ :=
    locate_of_addresses t r.start a b [] t hstart (.inl rfl) rfl (Nat.zero_le _)
  have hlines : l.count '\n' ≤ r.stop.line := by
    rw [hcount]
    obtain h | h := hle <;> omega
  obtain ⟨l', -, -, -, -, hline', hcol'⟩ :=
    locate_of_addresses t r.stop c d l rest hstop hl htl hlines
  rw [applyRangedChange_located t r newText l a hle hcount hline hcol, hline']
  show (columnOffset t (byteLen l') r.stop >>= fun stop =>
    replaceRange t (byteLen a) stop newText) = _
  rw [hcol']
  exact replaceRange_of t a b c d newText hstart.cut hstop.cut (hstart.le hstop hle)

/-- **A ranged change succeeds on addressed places or returns an error**: it does not
    panic. -/
theorem applyRangedChange_cases (t : Text) (r : Range) (newText : Text) :
    (r.start.le r.stop ∧ ∃ a b c d, Addresses t r.start a b ∧ Addresses t r.stop c d ∧
      applyRangedChange t r newText = .ok (a ++ newText ++ d)) ∨
    ∃ e, applyRangedChange t r newText = .error (.sync e) := by
  by_cases hle : r.start.le r.stop
  · obtain ⟨l, a, b, hl, ⟨rest, htl⟩, hcount, haddr, hline, hcol⟩ | ⟨e, he⟩ :=
      addresses_of_locate t r.start [] t (.inl rfl) rfl (Nat.zero_le _)
    · have hlines : l.count '\n' ≤ r.stop.line := by
        rw [hcount]
        obtain h | h := hle <;> omega
      obtain ⟨l', c, d, -, -, -, haddr', -, -⟩ | ⟨e, he⟩ :=
        addresses_of_locate t r.stop l rest hl htl hlines
      · exact .inl ⟨hle, a, b, c, d, haddr, haddr',
          applyRangedChange_of t r newText a b c d hle haddr haddr'⟩
      · right
        refine ⟨e, ?_⟩
        rw [applyRangedChange_located t r newText l a hle hcount hline hcol, he]
        rfl
    · right
      refine ⟨e, ?_⟩
      have he' : (lineStart t 0 0 r.start >>= fun s => columnOffset t s r.start)
          = .error (.sync e) := he
      unfold applyRangedChange
      rw [if_pos hle]
      show (lineStart t 0 0 r.start >>= fun s => columnOffset t s r.start >>= fun start =>
        lineStart t s r.start.line r.stop >>= fun endLine =>
        columnOffset t endLine r.stop >>= fun stop => replaceRange t start stop newText) = _
      cases hs : lineStart t 0 0 r.start with
      | error f =>
        rw [hs] at he'
        rw [Except.error.inj he']
        rfl
      | ok s =>
        rw [hs] at he'
        have hc : columnOffset t s r.start = .error (.sync e) := he'
        show (columnOffset t s r.start >>= fun start =>
          lineStart t s r.start.line r.stop >>= fun endLine =>
          columnOffset t endLine r.stop >>= fun stop => replaceRange t start stop newText) = _
        rw [hc]
        rfl
  · right
    refine ⟨.InvertedRange r, ?_⟩
    unfold applyRangedChange
    rw [if_neg hle]

end GluaLs.Docs
