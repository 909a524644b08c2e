/-
  GluaLs.Edit.Lines — where the lines of a text start and where their content lies.

  `lineStart text k` is the offset line `k` starts at, the end of the text for the number of
  lines.  Lines run from one start to the next (`lineAt_lines`), so a stretch of lines spans
  the bytes between two starts (`span_lines`).  Every cut the diff makes, at a line start or
  beside a line's content, is a character boundary.
-/
import Mathlib.Data.List.GetD
import Mathlib.Data.List.TakeWhile
import GluaLs.Edit.Diff

namespace GluaLs.Edit

open GluaLs.Edit.Diff

/-! ## §1. The bytes of an encoded character

  `isCharBoundary` looks at one byte.  On the bytes of a string it finds exactly the
  positions where a character starts or the text ends (`isCharBoundary_iff`), and the
  position behind an ASCII byte is one of them (`boundary_behind_ascii`): this is all the
  diff relies on when it cuts lines at line breaks and whitespace.
-/

/-- A byte that continues a character. -/
def Continues (byte : UInt8) : Prop := 0x80 ≤ byte ∧ byte < 0xC0

instance (byte : UInt8) : Decidable (Continues byte) := by
  unfold Continues
  exact inferInstance

theorem forall_uint8 (p : UInt8 → Prop) (h : ∀ n, n < 256 → p (UInt8.ofNat n)) (x : UInt8) :
    p x := by
  have hx := h x.toNat x.toNat_lt
  rw [UInt8.ofNat_toNat] at hx
  exact hx

theorem continues_or (x : UInt8) : Continues (x &&& 0x3f ||| 0x80) := by
  apply forall_uint8 (fun x => Continues (x &&& 0x3f ||| 0x80))
  decide +kernel

/-- Every byte of an encoded character but the first continues it. -/
theorem byte_of_char (c : Char) (byte : UInt8) (h : byte ∈ String.utf8EncodeChar c) :
    byte.IsUTF8FirstByte ∨ Continues byte := by
  have hpos := c.utf8Size_pos
  have hle := c.utf8Size_le_four
  have hfirst : ∀ b rest, String.utf8EncodeChar c = b :: rest → b.IsUTF8FirstByte := by
    intro b rest heq
    have h0 := UInt8.isUTF8FirstByte_getElem_zero_utf8EncodeChar (c := c)
    simp only [heq, List.getElem_cons_zero] at h0
    exact h0
  have hcases : c.utf8Size = 1 ∨ c.utf8Size = 2 ∨ c.utf8Size = 3 ∨ c.utf8Size = 4 := by omega
  obtain hs | hs | hs | hs := hcases
  · have heq := String.utf8EncodeChar_eq_singleton hs
    rw [heq, List.mem_singleton] at h
    exact .inl (h ▸ hfirst _ _ heq)
  · have heq := String.utf8EncodeChar_eq_cons_cons hs
    rw [heq, List.mem_cons, List.mem_singleton] at h
    obtain h | h := h
    · exact .inl (h ▸ hfirst _ _ heq)
    · exact .inr (h ▸ continues_or _)
  · have heq := String.utf8EncodeChar_eq_cons_cons_cons hs
    rw [heq, List.mem_cons, List.mem_cons, List.mem_singleton] at h
    obtain h | h | h := h
    · exact .inl (h ▸ hfirst _ _ heq)
    · exact .inr (h ▸ continues_or _)
    · exact .inr (h ▸ continues_or _)
  · have heq := String.utf8EncodeChar_eq_cons_cons_cons_cons hs
    rw [heq, List.mem_cons, List.mem_cons, List.mem_cons, List.mem_singleton] at h
    obtain h | h | h | h := h
    · exact .inl (h ▸ hfirst _ _ heq)
    · exact .inr (h ▸ continues_or _)
    · exact .inr (h ▸ continues_or _)
    · exact .inr (h ▸ continues_or _)

theorem not_continues_of_first (x : UInt8) (h : x.IsUTF8FirstByte) : ¬ Continues x := by
  revert h
  apply forall_uint8 (fun x => x.IsUTF8FirstByte → ¬ Continues x)
  decide +kernel

theorem not_continues_iff (x : UInt8) : (x < 0x80 || x ≥ 0xC0) = true ↔ ¬ Continues x := by
  apply forall_uint8 (fun x => (x < 0x80 || x ≥ 0xC0) = true ↔ ¬ Continues x)
  decide +kernel

theorem ascii_first (x : UInt8) (h : x < 0x80) :
    ∃ hx : x.IsUTF8FirstByte, x.utf8ByteSize hx = 1 := by
  revert h
  apply forall_uint8 (fun x => x < 0x80 → ∃ hx : x.IsUTF8FirstByte, x.utf8ByteSize hx = 1)
  decide +kernel

/-! ## §2. Boundaries of a text -/

theorem asBytes_eq (text : String) : asBytes text = text.toList.flatMap String.utf8EncodeChar := by
  unfold asBytes
  rw [← String.utf8Encode_toList]
  unfold List.utf8Encode
  simp

theorem length_asBytes (text : String) : (asBytes text).length = text.utf8ByteSize := by
  unfold asBytes
  rw [Array.length_toList]
  rfl

/-- The bytes of a text start characters or continue them. -/
theorem byte_of_text (text : String) (byte : UInt8) (h : byte ∈ asBytes text) :
    byte.IsUTF8FirstByte ∨ Continues byte := by
  rw [asBytes_eq] at h
  obtain ⟨c, _, hc⟩ := List.mem_flatMap.1 h
  exact byte_of_char c byte hc

theorem getUTF8Byte_eq (text : String) (i : Nat) (byte : UInt8)
    (h : (asBytes text)[i]? = some byte) :
    ∃ hi : (⟨i⟩ : String.Pos.Raw) < text.rawEndPos, text.getUTF8Byte ⟨i⟩ hi = byte := by
  obtain ⟨hi, hbyte⟩ := List.getElem?_eq_some_iff.1 h
  rw [length_asBytes] at hi
  exact ⟨hi, hbyte⟩

/-- **`is_char_boundary` finds the character boundaries.** -/
theorem isCharBoundary_iff (text : String) (i : Nat) :
    isCharBoundary (asBytes text) i = true ↔ (⟨i⟩ : String.Pos.Raw).IsValid text := by
  unfold isCharBoundary
  split_ifs with h0
  · subst h0
    exact ⟨fun _ => String.Pos.Raw.isValid_zero, fun _ => rfl⟩
  · cases hb : (asBytes text)[i]? with
    | none =>
      have hlen : text.utf8ByteSize ≤ i := by
        rw [← length_asBytes]
        exact List.getElem?_eq_none_iff.1 hb
      show (i == (asBytes text).length) = true ↔ _
      rw [beq_iff_eq, length_asBytes]
      constructor
      · intro hi
        rw [hi]
        exact String.Pos.Raw.isValid_rawEndPos
      · intro hvalid
        have : i ≤ text.utf8ByteSize := hvalid.le_utf8ByteSize
        omega
    | some byte =>
      obtain ⟨hi, hbyte⟩ := getUTF8Byte_eq text i byte hb
      show (byte < 0x80 || byte ≥ 0xC0) = true ↔ _
      rw [not_continues_iff, String.Pos.Raw.isValid_iff_isUTF8FirstByte]
      constructor
      · intro hnot
        right
        refine ⟨hi, ?_⟩
        rw [hbyte]
        exact (byte_of_text text byte (List.mem_of_getElem? hb)).resolve_right hnot
      · intro hvalid
        obtain hend | ⟨_, hfirst⟩ := hvalid
        · rw [hend] at hi
          exact absurd hi (Nat.lt_irrefl text.utf8ByteSize)
        · rw [hbyte] at hfirst
          exact not_continues_of_first byte hfirst

/-- **Behind an ASCII byte stands a boundary.** -/
theorem boundary_behind_ascii (text : String) (i : Nat) (byte : UInt8)
    (h : (asBytes text)[i]? = some byte) (hascii : byte < 0x80) :
    isCharBoundary (asBytes text) (i + 1) = true := by
  obtain ⟨hi, hbyte⟩ := getUTF8Byte_eq text i byte h
  obtain ⟨hfirst, hsize⟩ := ascii_first byte hascii
  have hvalid : (⟨i⟩ : String.Pos.Raw).IsValid text := by
    rw [String.Pos.Raw.isValid_iff_isUTF8FirstByte]
    right
    exact ⟨hi, by rw [hbyte]; exact hfirst⟩
  have hne : (⟨⟨i⟩, hvalid⟩ : text.Pos) ≠ text.endPos := by
    intro hend
    have hoff : (⟨i⟩ : String.Pos.Raw) = text.rawEndPos := congrArg String.Pos.offset hend
    rw [hoff] at hi
    exact Nat.lt_irrefl text.utf8ByteSize hi
  have hpbyte : (⟨⟨i⟩, hvalid⟩ : text.Pos).byte hne = byte := by
    rw [← hbyte]
    exact (String.Pos.getUTF8Byte_offset (p := ⟨⟨i⟩, hvalid⟩)).symm
  -- the character that starts at `i` is one byte long
  have hnext := String.Pos.byteIdx_offset_next ⟨⟨i⟩, hvalid⟩ hne
  rw [← String.Pos.utf8ByteSize_byte] at hnext
  simp only [hpbyte, hsize] at hnext
  rw [isCharBoundary_iff]
  have hoff : ((⟨⟨i⟩, hvalid⟩ : text.Pos).next hne).offset = ⟨i + 1⟩ :=
    String.Pos.Raw.ext hnext
  rw [← hoff]
  exact ((⟨⟨i⟩, hvalid⟩ : text.Pos).next hne).isValid

/-- An ASCII byte starts a character. -/
theorem boundary_at_ascii (text : Bytes) (i : Nat) (byte : UInt8) (h : text[i]? = some byte)
    (hascii : byte < 0x80) : isCharBoundary text i = true := by
  unfold isCharBoundary
  split_ifs with h0
  · rfl
  · rw [h]
    show (byte < 0x80 || byte ≥ 0xC0) = true
    rw [Bool.or_eq_true]
    exact .inl (decide_eq_true hascii)

open GluaLs.Lib

/-! ## §3. Lines tile the text -/

/-- Ranges that follow each other from `start` to `stop`, none empty. -/
def Tiles (stop : Nat) : Nat → List Line → Prop
  | start, [] => start = stop
  | start, line :: rest => line.1 = start ∧ start < line.2 ∧ Tiles stop line.2 rest

theorem tiles_linesFrom (text : Bytes) :
    ∀ (start pos : Nat), start ≤ pos → Tiles (pos + text.length) start (linesFrom start pos text)
      := by
  induction text with
  | nil =>
    intro start pos hle
    unfold linesFrom
    split_ifs with h
    · exact ⟨rfl, h, rfl⟩
    · show start = pos + 0
      omega
  | cons byte rest ih =>
    intro start pos hle
    unfold linesFrom
    rw [List.length_cons, show pos + (rest.length + 1) = pos + 1 + rest.length by omega]
    split_ifs with h
    · refine ⟨rfl, ?_, ih (pos + 1) (pos + 1) le_rfl⟩
      show start < pos + 1
      omega
    · exact ih start (pos + 1) (by omega)

/-- A line ends behind a line break or at the end of the text. -/
theorem linesFrom_end (text : Bytes) :
    ∀ (start pos : Nat) (line : Line), line ∈ linesFrom start pos text →
      line.2 = pos + text.length ∨ ∃ i, text[i]? = some 0x0A ∧ line.2 = pos + i + 1 := by
  induction text with
  | nil =>
    intro start pos line h
    unfold linesFrom at h
    split_ifs at h with hlt
    · left
      rw [List.mem_singleton.1 h]
      rfl
    · cases h
  | cons byte rest ih =>
    intro start pos line h
    unfold linesFrom at h
    have hrest : ∀ start', line ∈ linesFrom start' (pos + 1) rest →
        line.2 = pos + (byte :: rest).length
          ∨ ∃ i, (byte :: rest)[i]? = some 0x0A ∧ line.2 = pos + i + 1 := by
      intro start' hmem
      obtain hend | ⟨i, hi, hend⟩ := ih start' (pos + 1) line hmem
      · left
        rw [hend, List.length_cons]
        omega
      · right
        exact ⟨i + 1, by rw [List.getElem?_cons_succ]; exact hi, by omega⟩
    split_ifs at h with hbreak
    · obtain h | h := List.mem_cons.1 h
      · right
        refine ⟨0, ?_, ?_⟩
        · rw [List.getElem?_cons_zero, hbreak]
        · rw [h]
      · exact hrest (pos + 1) h
    · exact hrest start h

/-- Where line `k` starts; the end of the text behind the last line. -/
def lineStart (text : Bytes) (k : Nat) : Nat :=
  ((lines text)[k]?.map Prod.fst).getD text.length

theorem tiles_lines (text : Bytes) : Tiles text.length 0 (lines text) := by
  have h := tiles_linesFrom text 0 0 le_rfl
  rw [Nat.zero_add] at h
  exact h

/-- Line `k` of a tiling runs from its start to the next line's. -/
theorem Tiles.getElem (stop : Nat) (ls : List Line) :
    ∀ (start k : Nat), Tiles stop start ls → k < ls.length →
      lineAt ls k = ((ls[k]?.map Prod.fst).getD stop, (ls[k + 1]?.map Prod.fst).getD stop)
        ∧ (ls[k]?.map Prod.fst).getD stop < (ls[k + 1]?.map Prod.fst).getD stop := by
  induction ls with
  | nil => intro start k _ hk; exact absurd hk (Nat.not_lt_zero k)
  | cons line rest ih =>
    intro start k h hk
    obtain ⟨h1, h2, hrest⟩ := h
    cases k with
    | zero =>
      have hnext : (rest[0]?.map Prod.fst).getD stop = line.2 := by
        cases rest with
        | nil => exact hrest.symm
        | cons line' rest' => exact hrest.1
      rw [List.getElem?_cons_zero, List.getElem?_cons_succ, hnext]
      refine ⟨rfl, ?_⟩
      show line.1 < line.2
      omega
    | succ k =>
      rw [List.getElem?_cons_succ, List.getElem?_cons_succ]
      have hk' : k < rest.length := by
        rw [List.length_cons] at hk
        omega
      exact ih line.2 k hrest hk'

section

variable (text : Bytes)

theorem lineAt_lines (k : Nat) (hk : k < (lines text).length) :
    lineAt (lines text) k = (lineStart text k, lineStart text (k + 1)) :=
  ((tiles_lines text).getElem text.length (lines text) 0 k hk).1

theorem lineStart_lt (k : Nat) (hk : k < (lines text).length) :
    lineStart text k < lineStart text (k + 1) :=
  ((tiles_lines text).getElem text.length (lines text) 0 k hk).2

theorem lineStart_end : lineStart text (lines text).length = text.length := by
  unfold lineStart
  rw [List.getElem?_eq_none le_rfl]
  rfl

theorem lineStart_zero : lineStart text 0 = 0 := by
  have h := tiles_lines text
  unfold lineStart
  cases hls : lines text with
  | nil =>
    rw [hls] at h
    exact Eq.symm h
  | cons line rest =>
    rw [hls] at h
    exact h.1

theorem lineStart_mono (i d : Nat) (h : i + d ≤ (lines text).length) :
    lineStart text i ≤ lineStart text (i + d) := by
  induction d with
  | zero => exact le_rfl
  | succ d ih =>
    have hlt := lineStart_lt text (i + d) (by omega)
    exact le_trans (ih (by omega)) hlt.le

theorem lineStart_le (i j : Nat) (hij : i ≤ j) (hj : j ≤ (lines text).length) :
    lineStart text i ≤ lineStart text j := by
  have h := lineStart_mono text i (j - i) (by omega)
  rw [show i + (j - i) = j by omega] at h
  exact h

theorem lineStart_le_length (i : Nat) (hi : i ≤ (lines text).length) :
    lineStart text i ≤ text.length := by
  have h := lineStart_le text i (lines text).length hi le_rfl
  rw [lineStart_end] at h
  exact h

/-- **A stretch of lines spans the bytes between two line starts.** -/
theorem span_lines (i j : Nat) (hij : i ≤ j) (hj : j ≤ (lines text).length) :
    span (lines text) i j text.length = (lineStart text i, lineStart text j) := by
  unfold span
  simp only
  split_ifs with h
  · rw [lineAt_lines text (j - 1) (by omega), show j - 1 + 1 = j by omega]
    rfl
  · have hij' : i = j := by omega
    subst hij'
    rfl

end

/-! ## §4. Boundaries -/

/-- Behind an ASCII byte stands a boundary, as in every UTF-8 text. -/
def AsciiEnds (text : Bytes) : Prop :=
  ∀ (i : Nat) (byte : UInt8), text[i]? = some byte → byte < 0x80 →
    isCharBoundary text (i + 1) = true

theorem asciiEnds_asBytes (text : String) : AsciiEnds (asBytes text) :=
  fun i byte h hascii => boundary_behind_ascii text i byte h hascii

theorem boundary_end (text : Bytes) : isCharBoundary text text.length = true := by
  unfold isCharBoundary
  split_ifs with h
  · rfl
  · rw [List.getElem?_eq_none le_rfl]
    exact beq_self_eq_true _

/-- **Line starts are character boundaries.** -/
theorem boundary_lineStart (text : Bytes) (hascii : AsciiEnds text) (k : Nat)
    (hk : k ≤ (lines text).length) : isCharBoundary text (lineStart text k) = true := by
  cases k with
  | zero =>
    rw [lineStart_zero]
    rfl
  | succ k =>
    have hline := lineAt_lines text k (by omega)
    have hmem : lineAt (lines text) k ∈ lines text := by
      unfold lineAt
      rw [List.getD_eq_getElem _ _ (by omega)]
      exact List.getElem_mem _
    have hend := linesFrom_end text 0 0 (lineAt (lines text) k) hmem
    rw [hline] at hend
    obtain hend | ⟨i, hi, hend⟩ := hend
    · have hlen : lineStart text (k + 1) = text.length := by simpa using hend
      rw [hlen]
      exact boundary_end text
    · have hpos : lineStart text (k + 1) = i + 1 := by simpa using hend
      rw [hpos]
      exact hascii i 0x0A hi (by decide)

/-! ## §5. The content of a line -/

theorem ascii_of_whitespace (byte : UInt8) (h : isAsciiWhitespace byte = true) : byte < 0x80 := by
  unfold isAsciiWhitespace at h
  simp only [Bool.or_eq_true, beq_iff_eq] at h
  obtain (((h | h) | h) | h) | h := h
  · rw [h]; decide
  · rw [h]; decide
  · rw [h]; decide
  · rw [h]; decide
  · rw [h]; decide

/-- The elements a `takeWhile` takes satisfy its predicate. -/
theorem takeWhile_getElem? {α : Type} (l : List α) (pred : α → Bool) (i : Nat)
    (hi : i < (l.takeWhile pred).length) : ∃ x, l[i]? = some x ∧ pred x = true := by
  have hpre : l.takeWhile pred <+: l := List.takeWhile_prefix pred
  refine ⟨(l.takeWhile pred)[i], List.prefix_iff_getElem?.1 hpre i hi, ?_⟩
  exact List.mem_takeWhile_imp (List.getElem_mem hi)

theorem length_takeWhile_le {α : Type} (l : List α) (pred : α → Bool) :
    (l.takeWhile pred).length ≤ l.length := (List.takeWhile_prefix pred).length_le

/-- **A line's content lies in the line, between character boundaries.** -/
theorem content_spec (text : Bytes) (hascii : AsciiEnds text) (start stop : Nat)
    (hle : start ≤ stop) (hstop : stop ≤ text.length) (hb : isCharBoundary text start = true)
    (hb' : isCharBoundary text stop = true) :
    start ≤ (content text (start, stop)).1
      ∧ (content text (start, stop)).1 ≤ (content text (start, stop)).2
      ∧ (content text (start, stop)).2 ≤ stop
      ∧ isCharBoundary text (content text (start, stop)).1 = true
      ∧ isCharBoundary text (content text (start, stop)).2 = true := by
  unfold content
  simp only
  have hlen := length_slice text start stop hstop
  have hbytes : ∀ i, i < stop - start → (slice text start stop)[i]? = text[start + i]? :=
    fun i hi => getElem?_slice text start stop i hi
  generalize slice text start stop = bytes at hlen hbytes
  have hlead := length_takeWhile_le bytes isAsciiWhitespace
  have hleads := takeWhile_getElem? bytes isAsciiWhitespace
  generalize (bytes.takeWhile isAsciiWhitespace).length = leading at hlead hleads
  have htrail := length_takeWhile_le (bytes.drop leading).reverse isAsciiWhitespace
  have htrails := takeWhile_getElem? (bytes.drop leading).reverse isAsciiWhitespace
  generalize ((bytes.drop leading).reverse.takeWhile isAsciiWhitespace).length = trailing
    at htrail htrails
  rw [List.length_reverse, List.length_drop] at htrail
  refine ⟨by omega, by omega, by omega, ?_, ?_⟩
  · -- the byte before the content is whitespace, unless the line starts with it
    cases leading with
    | zero => exact hb
    | succ leading =>
      obtain ⟨byte, hbyte, hws⟩ := hleads leading (Nat.lt_succ_self leading)
      rw [hbytes leading (by omega)] at hbyte
      exact hascii (start + leading) byte hbyte (ascii_of_whitespace byte hws)
  · -- the byte behind the content is whitespace, unless the line ends with it
    cases trailing with
    | zero => exact hb'
    | succ trailing =>
      obtain ⟨byte, hbyte, hws⟩ := htrails trailing (Nat.lt_succ_self trailing)
      rw [List.getElem?_reverse (by rw [List.length_drop]; omega), List.getElem?_drop,
        List.length_drop, hbytes _ (by omega)] at hbyte
      rw [show start + (leading + (bytes.length - leading - 1 - trailing))
        = stop - (trailing + 1) by omega] at hbyte
      exact boundary_at_ascii text _ byte hbyte (ascii_of_whitespace byte hws)

end GluaLs.Edit
