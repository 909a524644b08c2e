/-
  GluaLs.Lines.RoundTrip — offsets to lines and columns, and back.

  A text is cut at the line that is asked for (`IsLine`): what stands before it, its content,
  its terminator and what follows.  The index holds where each line starts and whether it is
  plain (`lineOffsets_at`, `onlyAscii_at`), and both directions read the line off the text:

    • `getLineCol_eq` — an offset's line and column are the editor's position of it,
    • `offsetAtColumn_eq` — a column's offset is the last boundary of the line's content that
      is not past the column,
    • `lineIndex_inverse` — the two are inverse, outside a CRLF pair,
    • `decoders_agree` — the scan of the editor's changes answers the same offsets.

  Offsets are 32 bits: a line of 2^32 bytes has columns whose offset wraps
  (`getOffset_wraps`).
-/
import GluaLs.Docs.RangedChange
import GluaLs.Lines.LineIndex

namespace GluaLs.Lines

open GluaLs.Lib LineIndex
open GluaLs.Docs (LineStart columnOffset_cases last_line lineStartLoop_cases
  positionAfter_line)
open GluaLs.Edit (u32 U32_SIZE u32_of_lt)

/-! ## §1. Slices -/

theorem slice_append (a b c : Text) :
    slice (a ++ (b ++ c)) (byteLen a) (byteLen a + byteLen b) = .ok b := by
  unfold slice
  rw [if_neg (by omega), splitBytes_append]
  dsimp only
  rw [Nat.add_sub_cancel_left, splitBytes_append]

/-! ## §2. What the index holds -/

/-- Where the lines behind the first one start, for a text at byte `i`. -/
def lineStarts : Text → Nat → List Nat
  | [], _ => []
  | c :: text, i =>
    if c = '\n' then (i + 1) :: lineStarts text (i + c.utf8Size)
    else lineStarts text (i + c.utf8Size)

/-- Whether each line is plain, when the first one was so far. -/
def plainLines : Text → Bool → List Bool
  | [], plain => [plain]
  | c :: text, plain =>
    if c = '\n' then plain :: plainLines text true else plainLines text (plain && isAscii c)

theorem parseLoop_eq (text : Text) : ∀ (i : Nat) (lineOffsets : List Nat)
    (onlyAscii : List Bool) (plain : Bool),
    parseLoop text i lineOffsets onlyAscii plain
      = ⟨lineOffsets ++ (lineStarts text i).map u32, onlyAscii ++ plainLines text plain⟩ := by
  induction text with
  | nil =>
    intro i lineOffsets onlyAscii plain
    simp [parseLoop, lineStarts, plainLines]
  | cons c text ih =>
    intro i lineOffsets onlyAscii plain
    by_cases hc : c = '\n'
    · simp [parseLoop, lineStarts, plainLines, hc, ih]
    · cases hplain : isAscii c <;>
        simp [parseLoop, lineStarts, plainLines, hc, ih, hplain]

theorem parse_eq (text : Text) :
    parse text = ⟨0 :: (lineStarts text 0).map u32, plainLines text true⟩ := by
  unfold parse
  rw [parseLoop_eq]
  rfl

theorem utf8Size_newline : Char.utf8Size '\n' = 1 := by decide

theorem lineStarts_append (a b : Text) : ∀ i,
    lineStarts (a ++ b) i = lineStarts a i ++ lineStarts b (i + byteLen a) := by
  induction a with
  | nil => intro i; rfl
  | cons c a ih =>
    intro i
    by_cases hc : c = '\n' <;> simp [lineStarts, hc, ih, Nat.add_assoc]

theorem lineStarts_unbroken (a : Text) (h : '\n' ∉ a) : ∀ i, lineStarts a i = [] := by
  induction a with
  | nil => intro i; rfl
  | cons c a ih =>
    intro i
    rw [List.mem_cons, not_or] at h
    show (if c = '\n' then _ else lineStarts a (i + c.utf8Size)) = _
    rw [if_neg (fun hc => h.1 hc.symm), ih h.2]

theorem length_lineStarts (a : Text) : ∀ i, (lineStarts a i).length = a.count '\n' := by
  induction a with
  | nil => intro i; rfl
  | cons c a ih =>
    intro i
    by_cases hc : c = '\n' <;> simp [lineStarts, hc, ih]

/-- A line starts behind the byte before it, and inside the text. -/
theorem lineStarts_bounds (a : Text) : ∀ i, ∀ start ∈ lineStarts a i,
    i < start ∧ start ≤ i + byteLen a := by
  induction a with
  | nil =>
    intro i start hstart
    cases hstart
  | cons c a ih =>
    intro i start hstart
    have hrest : start ∈ lineStarts a (i + c.utf8Size) →
        i < start ∧ start ≤ i + byteLen (c :: a) := by
      intro h
      obtain ⟨hlt, hle⟩ := ih _ _ h
      rw [byteLen_cons]
      omega
    by_cases hc : c = '\n'
    · subst hc
      have hmem : start ∈ (i + 1) :: lineStarts a (i + Char.utf8Size '\n') := hstart
      obtain h | h := List.mem_cons.1 hmem
      · subst h
        rw [byteLen_cons, utf8Size_newline]
        omega
      · exact hrest h
    · apply hrest
      have hmem : start ∈ (if c = '\n' then _ else lineStarts a (i + c.utf8Size)) := hstart
      rwa [if_neg hc] at hmem

theorem plainLines_break (a b : Text) : ∀ plain,
    plainLines (a ++ '\n' :: b) plain = plainLines a plain ++ plainLines b true := by
  induction a with
  | nil => intro plain; simp [plainLines]
  | cons c a ih =>
    intro plain
    by_cases hc : c = '\n' <;> simp [plainLines, hc, ih]

theorem length_plainLines (a : Text) : ∀ plain, (plainLines a plain).length = a.count '\n' + 1 := by
  induction a with
  | nil => intro plain; rfl
  | cons c a ih =>
    intro plain
    by_cases hc : c = '\n' <;> simp [plainLines, hc, ih]

theorem plainLines_unbroken (a : Text) (h : '\n' ∉ a) : ∀ plain,
    plainLines a plain = [plain && a.all isAscii] := by
  induction a with
  | nil => intro plain; simp [plainLines]
  | cons c a ih =>
    intro plain
    rw [List.mem_cons, not_or] at h
    show (if c = '\n' then _ else plainLines a (plain && isAscii c)) = _
    rw [if_neg (fun hc => h.1 hc.symm), ih h.2, List.all_cons, Bool.and_assoc]

/-- What follows a line without its terminator: nothing, or a line break. -/
def BreaksOff (rest : Text) : Prop := rest = [] ∨ ∃ rest', rest = '\n' :: rest'

/-- The offsets before a line, and those behind it. -/
theorem lineOffsets_split (a rest : Text) (h : LineStart a) :
    ∃ pre, 0 :: lineStarts (a ++ rest) 0 = pre ++ byteLen a :: lineStarts rest (byteLen a) ∧
      pre.length = a.count '\n' ∧ ∀ start ∈ pre, start < byteLen a := by
  obtain rfl | ⟨b, rfl⟩ := h
  · exact ⟨[], rfl, rfl, nofun⟩
  · have hlen : byteLen (b ++ ['\n']) = byteLen b + 1 := by simp [utf8Size_newline]
    refine ⟨0 :: lineStarts b 0, ?_, ?_, ?_⟩
    · rw [lineStarts_append, lineStarts_append, hlen, Nat.zero_add, Nat.zero_add, List.append_assoc]
      rfl
    · simp [length_lineStarts]
    · intro start hstart
      rw [hlen]
      obtain h | h := List.mem_cons.1 hstart
      · omega
      · have := (lineStarts_bounds b 0 start h).2
        omega

/-- In a text whose offsets fit, the index holds them as they are. -/
theorem lineOffsets_eq (text : Text) (hfits : byteLen text < U32_SIZE) :
    (parse text).lineOffsets = 0 :: lineStarts text 0 := by
  rw [parse_eq]
  show 0 :: (lineStarts text 0).map u32 = _
  rw [List.map_congr_left (g := id) ?_, List.map_id]
  intro start hstart
  have := (lineStarts_bounds text 0 start hstart).2
  exact u32_of_lt start (by omega)

section

variable {a raw rest : Text}

theorem lineOffsets_at (hfits : byteLen (a ++ (raw ++ rest)) < U32_SIZE) (ha : LineStart a) :
    (parse (a ++ (raw ++ rest))).lineOffsets[a.count '\n']? = some (byteLen a) := by
  obtain ⟨pre, heq, hlen, -⟩ := lineOffsets_split a (raw ++ rest) ha
  rw [lineOffsets_eq _ hfits, heq, ← hlen, List.getElem?_append_right le_rfl]
  simp

/-- The line behind one starts behind its line break. -/
theorem lineOffsets_next (hfits : byteLen (a ++ (raw ++ rest)) < U32_SIZE) (ha : LineStart a)
    (hraw : '\n' ∉ raw) (hrest : BreaksOff rest) :
    (parse (a ++ (raw ++ rest))).lineOffsets[a.count '\n' + 1]?
      = if rest = [] then none else some (byteLen a + byteLen raw + 1) := by
  obtain ⟨pre, heq, hlen, -⟩ := lineOffsets_split a (raw ++ rest) ha
  rw [lineOffsets_eq _ hfits, heq, ← hlen, List.getElem?_append_right (by omega),
    Nat.add_sub_cancel_left, lineStarts_append, lineStarts_unbroken raw hraw]
  obtain rfl | ⟨rest', rfl⟩ := hrest
  · rfl
  · rw [if_neg (by simp)]
    rfl

theorem onlyAscii_at (ha : LineStart a) (hraw : '\n' ∉ raw) (hrest : BreaksOff rest) :
    (parse (a ++ (raw ++ rest))).isLineOnlyAscii (a.count '\n') = raw.all isAscii := by
  have hline : (plainLines (raw ++ rest) true)[0]? = some (raw.all isAscii) := by
    obtain rfl | ⟨rest', rfl⟩ := hrest
    · rw [List.append_nil, plainLines_unbroken raw hraw]
      simp
    · rw [plainLines_break, plainLines_unbroken raw hraw]
      simp
  unfold isLineOnlyAscii
  rw [parse_eq]
  show (plainLines (a ++ (raw ++ rest)) true)[a.count '\n']?.getD false = _
  obtain rfl | ⟨b, rfl⟩ := ha
  · rw [List.nil_append, List.count_nil, hline]
    rfl
  · have hcount : (b ++ ['\n']).count '\n' = (plainLines b true).length := by
      rw [length_plainLines, List.count_append]
      rfl
    rw [List.append_assoc b, List.singleton_append, plainLines_break, hcount,
      List.getElem?_append_right le_rfl, Nat.sub_self, hline]
    rfl

end

/-! ## §3. Offsets to lines and columns -/

theorem takeWhile_lt_append (pre post : List Nat) (p : Nat) (h : ∀ start ∈ pre, start < p) :
    (pre ++ post).takeWhile (fun start => start < p)
      = pre ++ post.takeWhile fun start => start < p :=
  List.takeWhile_append_of_pos fun start hstart => decide_eq_true (h start hstart)

/-- The line of an offset is the last one that does not start behind it. -/
theorem getLine_eq {index : LineIndex} {pre later : List Nat} {start p : Nat}
    (heq : index.lineOffsets = pre ++ start :: later) (hpre : ∀ x ∈ pre, x < start)
    (hstart : start ≤ p) (hlater : ∀ x ∈ later, p < x) :
    index.getLine p = some pre.length := by
  unfold getLine binarySearch
  rw [heq, takeWhile_lt_append pre _ p fun x hx => lt_of_lt_of_le (hpre x hx) hstart]
  by_cases hp : start = p
  · -- the offset is the line's start: the search finds it
    subst hp
    rw [List.takeWhile_cons_of_neg (by simp), List.append_nil]
    simp
  · -- it is behind: the search would insert it behind the line
    have hlt : start < p := lt_of_le_of_ne hstart hp
    have hnone : later.takeWhile (fun x => decide (x < p)) = [] := by
      cases later with
      | nil => rfl
      | cons x later =>
        have := hlater x (.head _)
        exact List.takeWhile_cons_of_neg (by simp; omega)
    rw [List.takeWhile_cons_of_pos (by simpa using hlt), hnone]
    have hnot : (pre ++ start :: later)[(pre ++ [start]).length]? ≠ some p := by
      rw [List.length_append, List.getElem?_append_right (by simp)]
      intro hsome
      rw [List.length_singleton, Nat.add_sub_cancel_left, List.getElem?_cons_succ] at hsome
      have := hlater p (List.mem_of_getElem? hsome)
      omega
    rw [if_neg hnot]
    simp

theorem byteLen_of_ascii (t : Text) (h : t.all isAscii = true) : byteLen t = t.length := by
  induction t with
  | nil => rfl
  | cons c t ih =>
    rw [List.all_cons, Bool.and_eq_true] at h
    have hc : c.utf8Size = 1 := by
      rw [Char.utf8Size_eq_one_iff, UInt32.le_iff_toNat_le]
      have hlt : c.val.toNat < 128 := of_decide_eq_true h.1
      show c.val.toNat ≤ 127
      omega
    rw [byteLen_cons, ih h.2, hc, List.length_cons]
    omega

theorem lenUtf16_of_ascii (c : Char) (h : isAscii c = true) : lenUtf16 c = 1 := by
  have hlt : c.val.toNat < 128 := of_decide_eq_true h
  unfold lenUtf16
  rw [if_pos (by omega)]

/-- The units of a text, each character as wide as `width` says. -/
def widthLen (width : Char → Nat) (t : Text) : Nat := (t.map width).sum

@[simp] theorem widthLen_cons (width : Char → Nat) (c : Char) (t : Text) :
    widthLen width (c :: t) = width c + widthLen width t := rfl

@[simp] theorem widthLen_append (width : Char → Nat) (a b : Text) :
    widthLen width (a ++ b) = widthLen width a + widthLen width b := by
  simp [widthLen]

theorem widthLen_utf16 (t : Text) : widthLen lenUtf16 t = utf16Len t := by
  induction t with
  | nil => rfl
  | cons c t ih => rw [widthLen_cons, utf16Len_cons, ih]

theorem widthLen_of_ascii (width : Char → Nat) (hwidth : ∀ c, isAscii c = true → width c = 1)
    (t : Text) (h : t.all isAscii = true) : widthLen width t = t.length := by
  induction t with
  | nil => rfl
  | cons c t ih =>
    rw [List.all_cons, Bool.and_eq_true] at h
    rw [widthLen_cons, hwidth c h.1, ih h.2, List.length_cons]
    omega

/-- A text without a line break is followed by one of those that end there. -/
theorem exists_line_rest (after : Text) :
    ∃ tail rest, after = tail ++ rest ∧ '\n' ∉ tail ∧ BreaksOff rest := by
  by_cases h : '\n' ∈ after
  · obtain ⟨tail, rest, hafter, htail⟩ := List.eq_append_cons_of_mem h
    exact ⟨tail, '\n' :: rest, hafter, htail, .inr ⟨rest, rfl⟩⟩
  · exact ⟨after, [], by simp, h, .inl rfl⟩

/-- **An offset's line and column are the editor's position of it.** -/
theorem getLineCol_eq (before after : Text) (hfits : byteLen (before ++ after) < U32_SIZE) :
    (parse (before ++ after)).getLineCol (byteLen before) (before ++ after)
      = .ok (some ((positionAfter before).line, (positionAfter before).character)) := by
  obtain ⟨a, mid, rfl, ha, hmid⟩ := last_line before
  obtain ⟨tail, rest, hafter, htail, hrest⟩ := exists_line_rest after
  have htext : a ++ mid ++ after = a ++ (mid ++ after) := List.append_assoc a mid after
  rw [htext] at hfits ⊢
  obtain ⟨pre, heq, hlen, hpre⟩ := lineOffsets_split a (mid ++ after) ha
  have hoffsets := (lineOffsets_eq _ hfits).trans heq
  rw [lineStarts_append, lineStarts_unbroken mid hmid, List.nil_append] at hoffsets
  have hline : (parse (a ++ (mid ++ after))).getLine (byteLen (a ++ mid))
      = some (a.count '\n') := by
    rw [← hlen]
    apply getLine_eq hoffsets hpre
    · rw [byteLen_append]
      omega
    · intro x hx
      have := (lineStarts_bounds after _ x hx).1
      rw [byteLen_append]
      omega
  have hposition : positionAfter (a ++ mid) = ⟨a.count '\n', utf16Len mid⟩ := by
    rw [positionAfter_append a mid hmid, positionAfter_line, ha.character_zero, Nat.zero_add]
  have hstart : (parse (a ++ (mid ++ after))).getLineWithStartOffset
      (byteLen (a ++ mid)) = .ok (some (a.count '\n', byteLen a)) := by
    unfold getLineWithStartOffset
    rw [hline]
    dsimp only
    rw [lineOffsets_at hfits ha]
  have hplain : (parse (a ++ (mid ++ after))).isLineOnlyAscii (a.count '\n')
      = (mid ++ tail).all isAscii := by
    have hraw : '\n' ∉ mid ++ tail := by
      rw [List.mem_append, not_or]
      exact ⟨hmid, htail⟩
    rw [hafter, ← List.append_assoc mid]
    exact onlyAscii_at ha hraw hrest
  unfold getLineCol
  rw [hstart, hposition]
  show (if (parse (a ++ (mid ++ after))).isLineOnlyAscii (a.count '\n') = true then
    _ else _) = _
  rw [hplain, byteLen_append]
  split_ifs with hall
  · -- on a plain line bytes are columns
    rw [List.all_append, Bool.and_eq_true] at hall
    rw [Nat.add_sub_cancel_left, byteLen_of_ascii mid hall.1, ← widthLen_utf16,
      widthLen_of_ascii lenUtf16 lenUtf16_of_ascii mid hall.1]
  · rw [slice_append]
    rfl

/-! ## §4. Lines and columns to offsets -/

/-- Line `line` of a text: what stands before it, its content, its terminator and the text
    behind it. -/
structure IsLine (text : Text) (line : Nat) (before content terminator after : Text) : Prop where
  cut : text = before ++ (content ++ (terminator ++ after))
  start : LineStart before
  number : before.count '\n' = line
  unbroken : '\n' ∉ content
  terminated : (terminator = [] ∧ after = []) ∨
    (terminator = ['\n'] ∧ content.getLast? ≠ some '\r') ∨ terminator = ['\r', '\n']

/-- What starts a line is followed by the line's content. -/
theorem exists_isLine_from (before rest : Text) (hstart : LineStart before) :
    ∃ content terminator after,
      IsLine (before ++ rest) (before.count '\n') before content terminator after := by
  obtain ⟨raw, after, hrest, hraw, hbreak⟩ := exists_line_rest rest
  obtain h | ⟨after', h⟩ := hbreak
  · exact ⟨raw, [], [], by simp [hrest, h], hstart, rfl, hraw, .inl ⟨rfl, rfl⟩⟩
  · by_cases hcr : raw.getLast? = some '\r'
    · -- the carriage return belongs to the break
      obtain ⟨content, hcontent⟩ := List.getLast?_eq_some_iff.1 hcr
      refine ⟨content, ['\r', '\n'], after', by simp [hrest, h, hcontent], hstart, rfl, ?_,
        .inr (.inr rfl)⟩
      exact fun hmem => hraw (by rw [hcontent]; exact List.mem_append_left _ hmem)
    · exact ⟨raw, ['\n'], after', by simp [hrest, h], hstart, rfl, hraw,
        .inr (.inl ⟨rfl, hcr⟩)⟩

/-- Every line a text has can be cut out. -/
theorem exists_isLine (text : Text) (line : Nat) (hline : line ≤ text.count '\n') :
    ∃ before content terminator after, IsLine text line before content terminator after := by
  -- the first `line` lines, one after the other
  have hcut : ∀ line, line ≤ text.count '\n' →
      ∃ before rest, text = before ++ rest ∧ LineStart before ∧ before.count '\n' = line := by
    intro line
    induction line with
    | zero => exact fun _ => ⟨[], text, rfl, .inl rfl, rfl⟩
    | succ line ih =>
      intro hle
      obtain ⟨before, rest, htext, hstart, hcount⟩ := ih (by omega)
      have hmem : '\n' ∈ rest := by
        rw [← List.count_pos_iff]
        rw [htext, List.count_append] at hle
        omega
      obtain ⟨x, y, hrest, hx⟩ := List.eq_append_cons_of_mem hmem
      refine ⟨before ++ (x ++ ['\n']), y, by simp [htext, hrest], ?_, ?_⟩
      · exact hstart.append (.inr ⟨x, rfl⟩)
      · rw [List.count_append, List.count_append, List.count_eq_zero.2 hx, hcount]
        rfl
  obtain ⟨before, rest, rfl, hstart, rfl⟩ := hcut line hline
  exact ⟨before, exists_isLine_from before rest hstart⟩

theorem lineCount_eq (text : Text) : (parse text).lineCount = text.count '\n' + 1 := by
  unfold lineCount
  rw [parse_eq]
  simp [length_lineStarts]

/-- The range of a line's content. -/
theorem lineContentRange_eq {text : Text} {line : Nat} {before content terminator after : Text}
    (hfits : byteLen text < U32_SIZE) (h : IsLine text line before content terminator after) :
    (parse text).lineContentRange line text
        = .ok (some (byteLen before, byteLen before + byteLen content)) ∧
      (parse text).isLineOnlyAscii line
        = (content ++ terminator.filter fun c => c ≠ '\n').all isAscii := by
  obtain ⟨hcut, hstart, rfl, hunbroken, hterminated⟩ := h
  -- the line up to its line break: the content, with the carriage return of a CRLF
  obtain ⟨raw, rest, hraw, hbreak, hsplit, hstrip, hplain⟩ : ∃ raw rest,
      '\n' ∉ raw ∧ BreaksOff rest ∧ content ++ (terminator ++ after) = raw ++ rest ∧
      (rest = [] ∧ raw = content ∨ rest ≠ [] ∧ stripSuffix '\r' raw = content) ∧
      raw = content ++ terminator.filter fun c => c ≠ '\n' := by
    obtain ⟨hterm, hafter⟩ | ⟨hterm, hlast⟩ | hterm := hterminated
    · refine ⟨content, [], hunbroken, .inl rfl, by simp [hterm, hafter],
        .inl ⟨rfl, rfl⟩, by simp [hterm]⟩
    · refine ⟨content, '\n' :: after, hunbroken, .inr ⟨after, rfl⟩, by simp [hterm],
        .inr ⟨by simp, ?_⟩, by simp [hterm]⟩
      unfold stripSuffix
      rw [if_neg hlast]
    · refine ⟨content ++ ['\r'], '\n' :: after, ?_, .inr ⟨after, rfl⟩, by simp [hterm],
        .inr ⟨by simp, ?_⟩, by simp [hterm]⟩
      · rw [List.mem_append, not_or]
        exact ⟨hunbroken, by decide⟩
      · unfold stripSuffix
        rw [if_pos (by simp), List.dropLast_concat]
  rw [hcut, hsplit] at hfits ⊢
  refine ⟨?_, hplain ▸ onlyAscii_at hstart hraw hbreak⟩
  unfold lineContentRange
  rw [lineOffsets_at hfits hstart]
  rw [lineOffsets_next hfits hstart hraw hbreak]
  obtain ⟨hrest, hcontent⟩ | ⟨hrest, hcontent⟩ := hstrip
  · rw [if_pos hrest]
    simp [hrest, hcontent]
  · rw [if_neg hrest]
    show (slice (before ++ (raw ++ rest)) (byteLen before)
      (byteLen before + byteLen raw + 1 - 1) >>= fun content => _) = _
    rw [Nat.add_sub_cancel, slice_append]
    show Except.ok (some (byteLen before, byteLen before + byteLen (stripSuffix '\r' raw))) = _
    rw [hcontent]

/-- The last boundary of a content that is not past a column. -/
structure ColumnAt (width : Char → Nat) (content : Text) (col : Nat) (pre post : Text) : Prop where
  cut : content = pre ++ post
  reached : widthLen width pre ≤ col
  next : post = [] ∨ ∃ c post', post = c :: post' ∧ col < widthLen width pre + width c

theorem findColumn_spec (width : Char → Nat) (col : Nat) (content : Text) : ∀ units i,
    units ≤ col → ∃ pre post, content = pre ++ post ∧ units + widthLen width pre ≤ col ∧
      (post = [] ∧ findColumn width col content units i = none ∨
        ∃ c post', post = c :: post' ∧ col < units + widthLen width pre + width c ∧
          findColumn width col content units i = some (i + byteLen pre)) := by
  induction content with
  | nil =>
    intro units i hunits
    exact ⟨[], [], rfl, hunits, .inl ⟨rfl, rfl⟩⟩
  | cons c content ih =>
    intro units i hunits
    by_cases hgt : units + width c > col
    · refine ⟨[], c :: content, rfl, hunits, .inr ⟨c, content, rfl, hgt, ?_⟩⟩
      show (if units + width c > col then some i else _) = _
      rw [if_pos hgt]
      rfl
    · have hstep : findColumn width col (c :: content) units i
          = findColumn width col content (units + width c) (i + c.utf8Size) := by
        show (if units + width c > col then some i else _) = _
        rw [if_neg hgt]
      obtain ⟨pre, post, hcut, hle, h⟩ := ih (units + width c) (i + c.utf8Size) (by omega)
      refine ⟨c :: pre, post, by rw [hcut]; rfl, by rw [widthLen_cons]; omega, ?_⟩
      rw [hstep, widthLen_cons, byteLen_cons]
      obtain ⟨hpost, hnone⟩ | ⟨d, post', hpost, hlt, hsome⟩ := h
      · exact .inl ⟨hpost, hnone⟩
      · refine .inr ⟨d, post', hpost, by omega, ?_⟩
        rw [hsome, Nat.add_assoc]

/-- **A column's offset** is the last boundary of the line's content that is not past it. -/
theorem offsetAtColumn_eq {text : Text} {line : Nat} {before content terminator after : Text}
    (hfits : byteLen text < U32_SIZE) (h : IsLine text line before content terminator after)
    (width : Char → Nat) (hwidth : ∀ c, isAscii c = true → width c = 1) (col : Nat) :
    ∃ pre post, ColumnAt width content col pre post ∧
      (parse text).offsetAtColumn line col text width = .ok (byteLen before + byteLen pre) := by
  obtain ⟨hrange, hplain⟩ := lineContentRange_eq hfits h
  have hlen : byteLen before + byteLen content ≤ byteLen text := by
    rw [h.cut, byteLen_append, byteLen_append]
    omega
  unfold offsetAtColumn
  rw [hrange]
  show ∃ pre post, ColumnAt width content col pre post ∧
    (if (parse text).isLineOnlyAscii line = true then _ else _) = _
  split_ifs with hascii
  · -- a plain line: columns are bytes
    rw [hplain, List.all_append, Bool.and_eq_true] at hascii
    have hcontent := byteLen_of_ascii content hascii.1
    have hpre : (content.take col).all isAscii = true := by
      rw [List.all_eq_true] at hascii ⊢
      exact fun c hc => hascii.1 c (List.mem_of_mem_take hc)
    have hbytes := byteLen_of_ascii _ hpre
    have hunits := widthLen_of_ascii width hwidth _ hpre
    rw [List.length_take] at hbytes hunits
    refine ⟨content.take col, content.drop col, ⟨(List.take_append_drop col content).symm, by
      omega, ?_⟩, ?_⟩
    · cases hdrop : content.drop col with
      | nil => exact .inl rfl
      | cons c post =>
        have hlt : col < content.length := by
          by_contra hge
          rw [List.drop_of_length_le (by omega)] at hdrop
          cases hdrop
        have hc : isAscii c = true := by
          rw [List.all_eq_true] at hascii
          apply hascii.1 c
          exact List.mem_of_mem_drop (by rw [hdrop]; exact .head _)
        exact .inr ⟨c, post, rfl, by rw [hunits, hwidth c hc]; omega⟩
    · rw [Nat.add_sub_cancel_left, hcontent, hbytes, u32_of_lt _ (by omega)]
  · -- the characters are counted one by one
    obtain ⟨pre, post, hcut, hle, hfound⟩ := findColumn_spec width col content 0 0 (Nat.zero_le _)
    have hslice : slice text (byteLen before) (byteLen before + byteLen content) = .ok content := by
      rw [h.cut, slice_append]
    rw [Nat.zero_add] at hle
    refine ⟨pre, post, ⟨hcut, hle, ?_⟩, ?_⟩
    · obtain ⟨hpost, -⟩ | ⟨c, post', hpost, hlt, -⟩ := hfound
      · exact .inl hpost
      · exact .inr ⟨c, post', hpost, by omega⟩
    · show (slice text (byteLen before) (byteLen before + byteLen content) >>= fun content' =>
        Except.ok (u32 (((findColumn width col content' 0 0).map fun i => byteLen before + i).getD
          (byteLen before + byteLen content)))) = _
      rw [hslice]
      show Except.ok (u32 (((findColumn width col content 0 0).map fun i =>
        byteLen before + i).getD (byteLen before + byteLen content))) = _
      have hpre : byteLen content = byteLen pre + byteLen post := by rw [hcut, byteLen_append]
      obtain ⟨hpost, hnone⟩ | ⟨c, post', -, -, hsome⟩ := hfound
      · rw [hnone]
        show Except.ok (u32 (byteLen before + byteLen content)) = _
        rw [u32_of_lt _ (by omega), hpre, hpost]
        simp
      · rw [hsome]
        show Except.ok (u32 (byteLen before + (0 + byteLen pre))) = _
        rw [u32_of_lt _ (by omega), Nat.zero_add]

/-- A later column is answered no earlier. -/
theorem ColumnAt.mono {width : Char → Nat} {content pre post pre' post' : Text} {col col' : Nat}
    (h : ColumnAt width content col pre post) (h' : ColumnAt width content col' pre' post')
    (hle : col ≤ col') : byteLen pre ≤ byteLen pre' := by
  by_contra hlt
  have hshort : pre'.length ≤ pre.length := by
    by_contra hlong
    obtain ⟨mid, hmid, -⟩ := later_cut (h.cut.symm.trans h'.cut) (by omega)
    rw [hmid, byteLen_append] at hlt
    omega
  obtain ⟨mid, hmid, hpost⟩ := later_cut (h'.cut.symm.trans h.cut) hshort
  cases mid with
  | nil =>
    rw [hmid, List.append_nil] at hlt
    omega
  | cons c mid =>
    -- the character behind the earlier boundary still ends before the earlier column
    have hreached := h.reached
    rw [hmid, widthLen_append, widthLen_cons] at hreached
    obtain hnil | ⟨d, rest, hcons, hnext⟩ := h'.next
    · rw [hnil] at hpost
      simp at hpost
    · rw [hcons, List.cons_append] at hpost
      obtain ⟨rfl, -⟩ := List.cons.inj hpost
      omega

/-- A column at a boundary, or inside the character behind it, is answered by that
    boundary. -/
theorem ColumnAt.of_within {width : Char → Nat} {content pre post a b : Text} {c : Char}
    {col : Nat} (h : ColumnAt width content col pre post)
    (hcut : content = a ++ c :: b) (hreached : widthLen width a ≤ col)
    (hnext : col < widthLen width a + width c) : pre = a := by
  have hother : ColumnAt width content col a (c :: b) :=
    ⟨hcut, hreached, .inr ⟨c, b, rfl, hnext⟩⟩
  have hbytes := Nat.le_antisymm (h.mono hother le_rfl) (hother.mono h le_rfl)
  have heq : pre ++ post = a ++ (c :: b) := h.cut.symm.trans hcut
  have hnil : ∀ mid : Text, byteLen mid = 0 → mid = [] := by
    intro mid hmid
    cases mid with
    | nil => rfl
    | cons d mid =>
      have := d.utf8Size_pos
      rw [byteLen_cons] at hmid
      omega
  obtain hle | hle := Nat.le_total pre.length a.length
  · obtain ⟨mid, hmid, -⟩ := later_cut heq hle
    rw [hmid, byteLen_append] at hbytes
    rw [hmid, hnil mid (by omega), List.append_nil]
  · obtain ⟨mid, hmid, -⟩ := later_cut heq.symm hle
    rw [hmid, byteLen_append] at hbytes
    rw [hmid, hnil mid (by omega), List.append_nil]

/-- A column past the content is answered by its end. -/
theorem ColumnAt.of_past {width : Char → Nat} {content pre post : Text} {col : Nat}
    (h : ColumnAt width content col pre post) (hpast : widthLen width content ≤ col) :
    pre = content := by
  obtain hnil | ⟨c, rest, hcons, hnext⟩ := h.next
  · rw [h.cut, hnil, List.append_nil]
  · rw [h.cut, hcons, widthLen_append, widthLen_cons] at hpast
    omega

/-! ## §5. Both ways -/

/-- A boundary outside a CRLF pair is in its line's content or at its end. -/
theorem content_of_boundary {a mid after content terminator after' : Text}
    (heq : content ++ (terminator ++ after') = mid ++ after) (hmid : '\n' ∉ mid)
    (hterminated : (terminator = [] ∧ after' = []) ∨
      (terminator = ['\n'] ∧ content.getLast? ≠ some '\r') ∨ terminator = ['\r', '\n'])
    (houtside : ¬ InsideBreak (a ++ mid) after) : ∃ post, content = mid ++ post := by
  obtain hle | hle := Nat.le_total mid.length content.length
  · obtain ⟨post, hpost, -⟩ := later_cut heq.symm hle
    exact ⟨post, hpost⟩
  · obtain ⟨more, hmore, hrest⟩ := later_cut heq hle
    cases more with
    | nil => exact ⟨[], by rw [hmore, List.append_nil, List.append_nil]⟩
    | cons c more =>
      -- past the content there is only the terminator, which holds no other boundary
      exfalso
      have hc : c ≠ '\n' := fun hc => hmid (by rw [hmore, hc]; simp)
      obtain ⟨hterm, hafter⟩ | ⟨hterm, -⟩ | hterm := hterminated
      · rw [hterm, hafter] at hrest
        cases hrest
      · rw [hterm] at hrest
        exact hc (List.cons.inj hrest).1.symm
      · rw [hterm] at hrest
        obtain ⟨hcr, hrest⟩ := List.cons.inj hrest
        cases more with
        | nil =>
          refine houtside ⟨?_, ?_⟩
          · rw [hmore, ← hcr]
            simp
          · rw [← show '\n' :: after' = after from hrest]
            rfl
        | cons d more =>
          have hd : d ≠ '\n' := fun hd => hmid (by rw [hmore, hd]; simp)
          exact hd (List.cons.inj hrest).1.symm

/-- The offset of a place's line and column is the place's. -/
theorem getOffset_positionAfter (before after : Text)
    (hfits : byteLen (before ++ after) < U32_SIZE) (houtside : ¬ InsideBreak before after) :
    (parse (before ++ after)).getOffset (positionAfter before).line
      (positionAfter before).character (before ++ after) = .ok (byteLen before) := by
  obtain ⟨a, mid, rfl, ha, hmid⟩ := last_line before
  have htext : a ++ mid ++ after = a ++ (mid ++ after) := List.append_assoc a mid after
  have hposition : positionAfter (a ++ mid) = ⟨a.count '\n', utf16Len mid⟩ := by
    rw [positionAfter_append a mid hmid, positionAfter_line, ha.character_zero, Nat.zero_add]
  rw [htext] at hfits
  rw [hposition, htext]
  obtain ⟨content, terminator, after', hline⟩ := exists_isLine_from a (mid ++ after) ha
  obtain ⟨post, hcontent⟩ := content_of_boundary
    (List.append_cancel_left (hline.cut.symm)) hmid hline.terminated houtside
  obtain ⟨pre, rest, hcol, hoffset⟩ := offsetAtColumn_eq hfits hline lenUtf16 lenUtf16_of_ascii
    (utf16Len mid)
  have hpre : pre = mid := by
    cases post with
    | nil =>
      rw [List.append_nil] at hcontent
      rw [hcol.of_past (by rw [hcontent, widthLen_utf16]), hcontent]
    | cons c post =>
      have := lenUtf16_pos c
      exact hcol.of_within hcontent (by rw [widthLen_utf16])
        (by rw [widthLen_utf16]; omega)
  rw [hpre] at hoffset
  show (parse (a ++ (mid ++ after))).offsetAtColumn (a.count '\n') (utf16Len mid)
    (a ++ (mid ++ after)) lenUtf16 = _
  rw [hoffset, byteLen_append]

/-- What `get_offset` answers for the columns of one line: offsets of the line's content, in
    order; a column of a character is answered by the boundary before it, and a column past
    the content by its end. -/
structure AnswersColumns (before content : Text) (offsetOf : Nat → Nat) : Prop where
  boundary : ∀ col, ∃ pre post, content = pre ++ post ∧
    offsetOf col = byteLen before + byteLen pre
  monotone : ∀ col col', col ≤ col' → offsetOf col ≤ offsetOf col'
  character : ∀ pre c post col, content = pre ++ c :: post → utf16Len pre ≤ col →
    col < utf16Len pre + lenUtf16 c → offsetOf col = byteLen before + byteLen pre
  clamped : ∀ col, utf16Len content ≤ col → offsetOf col = byteLen before + byteLen content

/-- **The line index takes offsets to lines and columns and back**, for every text whose
    offsets fit into a `TextSize`. -/
theorem lineIndex_inverse (text : Text) (hfits : byteLen text < U32_SIZE) :
    (∀ before after, text = before ++ after → ¬ InsideBreak before after →
      ∃ line col, (LineIndex.parse text).getLineCol (byteLen before) text = .ok (some (line, col)) ∧
        (LineIndex.parse text).getOffset line col text = .ok (byteLen before)) ∧
    (∀ line, line < (LineIndex.parse text).lineCount →
      ∃ before content terminator after, IsLine text line before content terminator after ∧
        ∃ offsetOf, (∀ col, (LineIndex.parse text).getOffset line col text
          = .ok (offsetOf col)) ∧ AnswersColumns before content offsetOf) := by
  constructor
  · rintro before after rfl houtside
    exact ⟨_, _, getLineCol_eq before after hfits,
      getOffset_positionAfter before after hfits houtside⟩
  · intro line hline
    rw [lineCount_eq] at hline
    obtain ⟨before, content, terminator, after, h⟩ := exists_isLine text line (by omega)
    choose pre post hcol hoffset using
      offsetAtColumn_eq hfits h lenUtf16 lenUtf16_of_ascii
    refine ⟨before, content, terminator, after, h,
      fun col => byteLen before + byteLen (pre col), hoffset, ?_, ?_, ?_, ?_⟩
    · exact fun col => ⟨pre col, post col, (hcol col).cut, rfl⟩
    · intro col col' hle
      exact Nat.add_le_add_left ((hcol col).mono (hcol col') hle) _
    · intro a c b col hcut hreached hnext
      rw [(hcol col).of_within hcut (by rw [widthLen_utf16]; exact hreached)
        (by rw [widthLen_utf16]; exact hnext)]
    · intro col hpast
      rw [(hcol col).of_past (by rw [widthLen_utf16]; exact hpast)]

/-- A two-line text with a character outside the BMP. -/
theorem lineIndex_inverse_emoji :
    (∀ before after, ['a', '😀', '\r', '\n', 'é'] = before ++ after →
      ¬ InsideBreak before after →
      ∃ line col, (LineIndex.parse ['a', '😀', '\r', '\n', 'é']).getLineCol (byteLen before)
          ['a', '😀', '\r', '\n', 'é'] = .ok (some (line, col)) ∧
        (LineIndex.parse ['a', '😀', '\r', '\n', 'é']).getOffset line col
          ['a', '😀', '\r', '\n', 'é'] = .ok (byteLen before)) ∧
    (∀ line, line < (LineIndex.parse ['a', '😀', '\r', '\n', 'é']).lineCount →
      ∃ before content terminator after,
        IsLine ['a', '😀', '\r', '\n', 'é'] line before content terminator after ∧
        ∃ offsetOf, (∀ col, (LineIndex.parse ['a', '😀', '\r', '\n', 'é']).getOffset line col
          ['a', '😀', '\r', '\n', 'é'] = .ok (offsetOf col)) ∧
          AnswersColumns before content offsetOf) :=
  lineIndex_inverse ['a', '😀', '\r', '\n', 'é'] (by decide)

/-! ## §6. The scan of the editor's changes -/

/-- The line the scan takes is the line's content. -/
theorem isLine_of_lineEnd {before line tail : Text} (hstart : LineStart before)
    (hunbroken : '\n' ∉ line) (hend : AtLineEnd tail) (hout : ¬ InsideBreak line tail) :
    ∃ terminator after, IsLine (before ++ (line ++ tail)) (before.count '\n') before line
      terminator after := by
  obtain hnil | hbreak | hpair := hend
  · refine ⟨[], [], by rw [hnil]; rfl, hstart, rfl, hunbroken, .inl ⟨rfl, rfl⟩⟩
  · obtain ⟨after, rfl⟩ := List.head?_eq_some_iff.1 hbreak
    refine ⟨['\n'], after, rfl, hstart, rfl, hunbroken, .inr (.inl ⟨rfl, ?_⟩)⟩
    exact fun hcr => hout ⟨hcr, rfl⟩
  · refine ⟨['\r', '\n'], tail.drop 2, ?_, hstart, rfl, hunbroken, .inr (.inr rfl)⟩
    rw [← hpair, List.take_append_drop]

/-- **The scan and the line index agree** wherever the scan accepts a position: the index
    answers the same offset, and answers for it the position with its column clamped to the
    line. -/
theorem decoders_agree (text : Text) (p : Position) (start offset : Nat)
    (hfits : byteLen text < U32_SIZE) (hstart : Docs.lineStart text 0 0 p = .ok start)
    (hoffset : Docs.columnOffset text start p = .ok offset) :
    (LineIndex.parse text).getOffset p.line p.character text = .ok offset ∧
      ∃ before content terminator after, IsLine text p.line before content terminator after ∧
        (LineIndex.parse text).getLineCol offset text
          = .ok (some (p.line, min p.character (utf16Len content))) := by
  obtain ⟨before, rest, rfl, hbefore, hline, hrun⟩ | herr := lineStartLoop_cases p p.line [] text
  · cases hstart.symm.trans hrun
    obtain ⟨content, tail, rfl, hunbroken, hend, hout, hcolumns, hcase⟩ :=
      columnOffset_cases p before rest
    obtain ⟨terminator, after, hisLine⟩ := isLine_of_lineEnd hbefore hunbroken hend hout
    rw [hline] at hisLine
    obtain ⟨pre, post, rfl, hcolumn⟩ | herr := hcase
    · cases hoffset.symm.trans (hcolumns pre post rfl hcolumn)
      obtain ⟨pre', post', hat, hindex⟩ :=
        offsetAtColumn_eq hfits hisLine lenUtf16 lenUtf16_of_ascii p.character
      -- the scan stops at the boundary the index finds
      have hsame : pre' = pre := by
        cases post with
        | nil =>
          rw [List.append_nil] at hat
          refine hat.of_past ?_
          rw [widthLen_utf16]
          exact hcolumn.elim (fun h => h.le) fun h => h.1.le
        | cons c post =>
          have hexact := hcolumn.resolve_right fun h => List.cons_ne_nil c post h.2
          have hpos := lenUtf16_pos c
          exact hat.of_within rfl (by rw [widthLen_utf16]; exact hexact.le)
            (by rw [widthLen_utf16]; omega)
      have hclamped : min p.character (utf16Len (pre ++ post)) = utf16Len pre := by
        rw [utf16Len_append]
        obtain hexact | ⟨hshort, hpost⟩ := hcolumn
        · omega
        · rw [hpost, utf16Len_nil]
          omega
      have hpre : '\n' ∉ pre := fun h => hunbroken (List.mem_append_left post h)
      have hback := getLineCol_eq (before ++ pre) (post ++ tail) (by simpa using hfits)
      rw [positionAfter_append before pre hpre, positionAfter_line, hbefore.character_zero, hline,
        Nat.zero_add, ← hclamped] at hback
      refine ⟨?_, before, pre ++ post, terminator, after, hisLine, by simpa using hback⟩
      rw [hsame] at hindex
      rw [byteLen_append]
      exact hindex
    · cases hoffset.symm.trans herr
  · cases hstart.symm.trans herr

/-- A column past a line that ends in CRLF. -/
theorem decoders_agree_emoji :
    (LineIndex.parse ['😀', 'é', '\r', '\n', 'b']).getOffset 0 9 ['😀', 'é', '\r', '\n', 'b']
        = .ok 6 ∧
      ∃ before content terminator after,
        IsLine ['😀', 'é', '\r', '\n', 'b'] 0 before content terminator after ∧
        (LineIndex.parse ['😀', 'é', '\r', '\n', 'b']).getLineCol 6 ['😀', 'é', '\r', '\n', 'b']
          = .ok (some (0, min 9 (utf16Len content))) :=
  decoders_agree ['😀', 'é', '\r', '\n', 'b'] ⟨0, 9⟩ 0 6 (by decide) (by decide) (by decide)

/-! ## §7. Texts whose offsets do not fit -/

/-- One plain line of any length. -/
theorem getOffset_replicate (n col : Nat) :
    (parse (List.replicate n 'a')).getOffset 0 col (List.replicate n 'a')
      = .ok (u32 (min col n)) := by
  have hraw : '\n' ∉ List.replicate n 'a' := by
    rw [List.mem_replicate]
    exact fun h => absurd h.2 (by decide)
  have hascii : (List.replicate n 'a').all isAscii = true := by
    rw [List.all_eq_true]
    intro c hc
    rw [List.eq_of_mem_replicate hc]
    decide
  have hparse : parse (List.replicate n 'a') = ⟨[0], [true]⟩ := by
    rw [parse_eq, lineStarts_unbroken _ hraw, plainLines_unbroken _ hraw, hascii]
    rfl
  rw [hparse]
  show Except.ok (u32 (0 + min col (byteLen (List.replicate n 'a') - 0))) = _
  rw [byteLen_of_ascii _ hascii, List.length_replicate, Nat.zero_add, Nat.sub_zero]

/-- A line of 2^32 bytes. -/
def overlongLine : Text := List.replicate U32_SIZE 'a'

/-- **Its columns wrap**: one past its end is answered by the start of the text, one before
    that by an offset behind it. -/
theorem getOffset_wraps :
    0 < (LineIndex.parse overlongLine).lineCount ∧
      ¬ ∃ before content terminator after,
        IsLine overlongLine 0 before content terminator after ∧
        ∃ offsetOf, (∀ col, (LineIndex.parse overlongLine).getOffset 0 col overlongLine
          = .ok (offsetOf col)) ∧ AnswersColumns before content offsetOf := by
  refine ⟨by rw [lineCount_eq]; omega, ?_⟩
  rintro ⟨before, content, terminator, after, -, offsetOf, hoffset, h⟩
  have hlast := hoffset (U32_SIZE - 1)
  have hpast := hoffset U32_SIZE
  unfold overlongLine at hlast hpast
  rw [getOffset_replicate] at hlast hpast
  have hmono := h.monotone (U32_SIZE - 1) U32_SIZE (by decide)
  rw [← Except.ok.inj hlast, ← Except.ok.inj hpast] at hmono
  exact absurd hmono (by decide)

end GluaLs.Lines
