/-
  GluaLs.Docs.Sync — the server's text is the editor's text.

  An editor sends, for every change it makes to a document, a notification with full-text
  changes and ranged changes, each range in the text the change before it left.  `Edits` is
  what the editor does: it names two boundaries of its text by their positions
  (`positionAt`) and replaces what is between.  `Applies` is what a change MEANS for any
  positions, well-formed or not.  Then

    • the server answers every notification of an editor with the editor's text,
    • any other notification is answered with what its changes mean, in order, or refused,
    • once refused, a document is refused until it is opened again or a notification starts
      with its full text (`refused_until`).
-/
import GluaLs.Docs.RangedChange

namespace GluaLs.Docs

open GluaLs.Lib

/-! ## §1. What changes mean -/

/-- What one change makes of a text. -/
inductive Applies : Text → ChangeEvent → Text → Prop where
  | full (t newText : Text) : Applies t ⟨none, newText⟩ newText
  | ranged (t newText a b c d : Text) (r : Range) (hle : r.start.le r.stop)
      (hstart : Addresses t r.start a b) (hstop : Addresses t r.stop c d) :
      Applies t ⟨some r, newText⟩ (a ++ newText ++ d)

/-- What a notification makes of a document: a ranged change needs a text. -/
inductive AppliesAll : Option Text → List ChangeEvent → Text → Prop where
  | nil (t : Text) : AppliesAll (some t) [] t
  | full (o : Option Text) (newText t' : Text) (changes : List ChangeEvent)
      (h : AppliesAll (some newText) changes t') : AppliesAll o (⟨none, newText⟩ :: changes) t'
  | ranged (t t' t'' newText : Text) (r : Range) (changes : List ChangeEvent)
      (hchange : Applies t ⟨some r, newText⟩ t') (h : AppliesAll (some t') changes t'') :
      AppliesAll (some t) (⟨some r, newText⟩ :: changes) t''

/-- The loop of `change` returns what the changes mean, or an error; it never panics. -/
theorem applyChanges_cases (missing : SyncError) (changes : List ChangeEvent) :
    ∀ (o : Option Text),
      (∃ t, AppliesAll o changes t ∧ applyChanges missing changes o = .ok (some t)) ∨
      (o = none ∧ changes = [] ∧ applyChanges missing changes o = .ok none) ∨
      (∃ e, applyChanges missing changes o = .error (.sync e)) := by
  induction changes with
  | nil =>
    intro o
    cases o with
    | none => exact .inr (.inl ⟨rfl, rfl, rfl⟩)
    | some t => exact .inl ⟨t, .nil t, rfl⟩
  | cons change changes ih =>
    intro o
    obtain ⟨range, newText⟩ := change
    cases range with
    | none =>
      obtain ⟨t, ht, hrun⟩ | ⟨h, -, -⟩ | ⟨e, he⟩ := ih (some newText)
      · exact .inl ⟨t, .full o newText t changes ht, hrun⟩
      · exact absurd h (by simp)
      · exact .inr (.inr ⟨e, he⟩)
    | some r =>
      cases o with
      | none => exact .inr (.inr ⟨missing, rfl⟩)
      | some t =>
        have hbind : applyChanges missing (⟨some r, newText⟩ :: changes) (some t)
            = applyRangedChange t r newText >>= fun text =>
              applyChanges missing changes (some text) := rfl
        obtain ⟨hle, a, b, c, d, hstart, hstop, hrun⟩ | ⟨e, he⟩ :=
          applyRangedChange_cases t r newText
        · have hone := Applies.ranged t newText a b c d r hle hstart hstop
          rw [hbind, hrun]
          obtain ⟨t', ht', hrest⟩ | ⟨h, -, -⟩ | ⟨e, he⟩ := ih (some (a ++ newText ++ d))
          · exact .inl ⟨t', .ranged t _ t' newText r changes hone ht', hrest⟩
          · exact absurd h (by simp)
          · exact .inr (.inr ⟨e, he⟩)
        · refine .inr (.inr ⟨e, ?_⟩)
          rw [hbind, he]
          rfl

/-- The loop returns what the changes mean whenever they mean something. -/
theorem applyChanges_of (missing : SyncError) (o : Option Text) (changes : List ChangeEvent)
    (t : Text) (h : AppliesAll o changes t) : applyChanges missing changes o = .ok (some t) := by
  induction h with
  | nil t => rfl
  | full o newText t' changes _ ih => exact ih
  | ranged t t' t'' newText r changes hchange _ ih =>
    cases hchange with
    | ranged _ a b c d _ hle hstart hstop =>
      show (applyRangedChange t r newText >>= fun text =>
        applyChanges missing changes (some text)) = _
      rw [applyRangedChange_of t r newText a b c d hle hstart hstop]
      exact ih

/-! ## §2. Notifications -/

section

variable {U : Type} [DecidableEq U]

namespace EditorDocuments

/-- **A notification is answered with what its changes mean**, and leaves that text. -/
theorem change_of (docs : EditorDocuments U) (uri : U) (changes : List ChangeEvent) (t : Text)
    (h : AppliesAll (docs.text uri) changes t) :
    (docs.change uri changes).1 = .ok t ∧
      (docs.change uri changes).2.texts.lookup uri = some (some t) := by
  have hrun : applyChanges (if (docs.texts.lookup uri).isSome then SyncError.OutOfSync
      else SyncError.NotOpen) changes (docs.texts.lookup uri).join = .ok (some t) :=
    applyChanges_of _ _ changes t h
  unfold change
  constructor
  · simp only [hrun]
  · simp only [hrun]
    exact AList.lookup_insert _

/-- Any other notification is refused, and takes the text away. -/
theorem change_cases (docs : EditorDocuments U) (uri : U) (changes : List ChangeEvent) :
    (∃ t, AppliesAll (docs.text uri) changes t) ∨
    ((∃ e, (docs.change uri changes).1 = .error (.sync e)) ∧
      (docs.change uri changes).2.text uri = none) := by
  have htaken : ∀ e, (docs.texts.lookup uri).isSome = e →
      EditorDocuments.text ⟨if e then docs.texts.insert uri none else docs.texts⟩ uri = none := by
    intro e he
    cases e with
    | true =>
      show ((docs.texts.insert uri none).lookup uri).join = none
      rw [AList.lookup_insert]
      rfl
    | false =>
      show (docs.texts.lookup uri).join = none
      rw [Option.isSome_eq_false_iff, Option.isNone_iff_eq_none] at he
      rw [he]
      rfl
  obtain ⟨t, ht, -⟩ | ⟨-, -, hrun⟩ | ⟨e, he⟩ :=
    applyChanges_cases (if (docs.texts.lookup uri).isSome then SyncError.OutOfSync
      else SyncError.NotOpen) changes (docs.text uri)
  · exact .inl ⟨t, ht⟩
  · right
    have hrun' : applyChanges _ changes (docs.texts.lookup uri).join = .ok none := hrun
    unfold change
    simp only [hrun']
    exact ⟨⟨_, rfl⟩, htaken _ rfl⟩
  · right
    have he' : applyChanges _ changes (docs.texts.lookup uri).join = .error (.sync e) := he
    unfold change
    simp only [he']
    exact ⟨⟨e, rfl⟩, htaken _ rfl⟩

/-- A notification concerns its own document only. -/
theorem change_other (docs : EditorDocuments U) (uri other : U) (changes : List ChangeEvent)
    (h : other ≠ uri) : (docs.change uri changes).2.text other = docs.text other := by
  have htaken : ∀ e : Bool,
      (if e then docs.texts.insert uri none else docs.texts).lookup other
        = docs.texts.lookup other := by
    intro e
    cases e with
    | true => exact AList.lookup_insert_ne h
    | false => rfl
  unfold change text
  cases hrun : applyChanges (if (docs.texts.lookup uri).isSome then SyncError.OutOfSync
      else SyncError.NotOpen) changes (docs.texts.lookup uri).join with
  | error fault =>
    simp only [hrun]
    rw [htaken]
  | ok o =>
    cases o with
    | none =>
      simp only [hrun]
      rw [htaken]
    | some t =>
      simp only [hrun]
      rw [AList.lookup_insert_ne h, htaken]

end EditorDocuments

/-! ## §3. The editor -/

/-- The boundary with `i` characters before it is inside a CRLF pair. -/
def InsideCrlf (t : Text) (i : Nat) : Prop := InsideBreak (t.take i) (t.drop i)

/-- One change an editor makes to its text `t` and sends: its full text, or the replacement
    of what is between two boundaries, named by their positions.  The end column may be past
    the line's length where the end is a line's end. -/
inductive Edits : Text → ChangeEvent → Text → Prop where
  | full (t newText : Text) : Edits t ⟨none, newText⟩ newText
  | ranged (t newText : Text) (i j : Nat) (r : Range) (hij : i ≤ j) (hj : j ≤ t.length)
      (hi_out : ¬ InsideCrlf t i) (hj_out : ¬ InsideCrlf t j)
      (hstart : r.start = positionAt t i)
      (hstop : r.stop = positionAt t j ∨
        (r.stop.line = (positionAt t j).line ∧
          (positionAt t j).character < r.stop.character ∧ AtLineEnd (t.drop j))) :
      Edits t ⟨some r, newText⟩ (t.take i ++ newText ++ t.drop j)

/-- The changes of one notification, one behind the other. -/
inductive EditsAll : Text → List ChangeEvent → Text → Prop where
  | nil (t : Text) : EditsAll t [] t
  | cons (t t' t'' : Text) (change : ChangeEvent) (changes : List ChangeEvent)
      (hchange : Edits t change t') (h : EditsAll t' changes t'') :
      EditsAll t (change :: changes) t''

/-- A sequence of notifications, with the editor's text after each. -/
inductive EditorRun : Text → List (List ChangeEvent) → List Text → Prop where
  | nil (t : Text) : EditorRun t [] []
  | cons (t t' : Text) (changes : List ChangeEvent) (rest : List (List ChangeEvent))
      (texts : List Text) (hchanges : EditsAll t changes t') (h : EditorRun t' rest texts) :
      EditorRun t (changes :: rest) (t' :: texts)

theorem positionAfter_le_append (a b : Text) : (positionAfter a).le (positionAfter (a ++ b)) := by
  by_cases hline : (positionAfter (a ++ b)).line = (positionAfter a).line
  · right
    refine ⟨hline.symm, ?_⟩
    rw [positionAfter_append a b (no_break_of_line_eq a b hline)]
    exact Nat.le_add_right _ _
  · left
    have := line_le_append a b
    omega

/-- **An editor's position addresses the boundary it was taken from.** -/
theorem edits_applies (t t' : Text) (change : ChangeEvent) (h : Edits t change t') :
    Applies t change t' := by
  cases h with
  | full => exact .full t t'
  | ranged newText i j r hij hj hi_out hj_out hstart hstop =>
    have hcut : ∀ k, t = t.take k ++ t.drop k := fun k => (List.take_append_drop k t).symm
    have hle : (positionAt t i).le (positionAt t j) := by
      have htake : t.take j = t.take i ++ (t.take j).drop i := by
        have := (List.take_append_drop i (t.take j)).symm
        rw [List.take_take, Nat.min_eq_left hij] at this
        exact this
      unfold positionAt
      rw [htake]
      exact positionAfter_le_append _ _
    refine .ranged t newText (t.take i) (t.drop i) (t.take j) (t.drop j) r ?_ ?_ ?_
    · rw [hstart]
      obtain hs | ⟨hline, hchar, -⟩ := hstop
      · rw [hs]
        exact hle
      · obtain h | ⟨h, h'⟩ := hle
        · exact .inl (by omega)
        · exact .inr ⟨by omega, by omega⟩
    · rw [hstart]
      exact ⟨hcut i, hi_out, rfl, .inl rfl⟩
    · obtain hs | ⟨hline, hchar, hend⟩ := hstop
      · rw [hs]
        exact ⟨hcut j, hj_out, rfl, .inl rfl⟩
      · exact ⟨hcut j, hj_out, hline.symm, .inr ⟨hchar, hend⟩⟩

theorem editsAll_appliesAll (t t' : Text) (changes : List ChangeEvent)
    (h : EditsAll t changes t') : AppliesAll (some t) changes t' := by
  induction h with
  | nil t => exact .nil t
  | cons t t' t'' change changes hchange _ ih =>
    have happ := edits_applies t t' change hchange
    obtain ⟨range, newText⟩ := change
    cases range with
    | none =>
      cases happ
      exact .full (some t) _ t'' changes ih
    | some r => exact .ranged t t' t'' newText r changes happ ih

theorem changeAll_editor (uri : U) (t : Text) (notes : List (List ChangeEvent))
    (texts : List Text) (h : EditorRun t notes texts) :
    ∀ docs : EditorDocuments U, docs.texts.lookup uri = some (some t) →
      docs.changeAll uri notes = texts.map .ok := by
  induction h with
  | nil t => intro docs _; rfl
  | cons t t' changes rest texts hchanges _ ih =>
    intro docs hopen
    have htext : docs.text uri = some t := by
      show (docs.texts.lookup uri).join = some t
      rw [hopen]
      rfl
    have hall := editsAll_appliesAll t t' changes hchanges
    rw [← htext] at hall
    obtain ⟨hanswer, hlook⟩ := docs.change_of uri changes t' hall
    show (docs.change uri changes).1 :: (docs.change uri changes).2.changeAll uri rest = _
    rw [hanswer, ih _ hlook]
    rfl

/-! ## §4. Out of sync -/

/-- A notification with a full-text change before its first ranged change. -/
def StartsFull (changes : List ChangeEvent) : Prop :=
  ∃ change rest, changes = change :: rest ∧ change.range = none

/-- The events that bring a document back: it is opened, or sent in full. -/
def Event.Resyncs (uri : U) : Event U → Prop
  | .didOpen other _ => other = uri
  | .didClose _ => False
  | .didChange other changes => other = uri ∧ StartsFull changes

/-- Without a text, a notification that does not start with the full text is refused. -/
theorem change_refused (docs : EditorDocuments U) (uri : U) (changes : List ChangeEvent)
    (hnone : docs.text uri = none) (hfull : ¬ StartsFull changes) :
    (∃ e, (docs.change uri changes).1 = .error (.sync e)) ∧
      (docs.change uri changes).2.text uri = none := by
  obtain ⟨t, ht⟩ | h := docs.change_cases uri changes
  · exfalso
    rw [hnone] at ht
    cases ht with
    | full newText changes' => exact hfull ⟨_, _, rfl, rfl⟩
  · exact h

/-- One event that does not bring the document back leaves it without a text. -/
theorem step_text_none (docs : EditorDocuments U) (uri : U) (event : Event U)
    (hnone : docs.text uri = none) (h : ¬ event.Resyncs uri) :
    (docs.step event).text uri = none := by
  cases event with
  | didOpen other t =>
    have hne : uri ≠ other := fun he => h he.symm
    show ((docs.texts.insert other (some t)).lookup uri).join = none
    rw [AList.lookup_insert_ne hne]
    exact hnone
  | didClose other =>
    show ((docs.texts.erase other).lookup uri).join = none
    by_cases he : uri = other
    · subst he
      rw [AList.lookup_erase]
      rfl
    · rw [AList.lookup_erase_ne he]
      exact hnone
  | didChange other changes =>
    show (docs.change other changes).2.text uri = none
    by_cases he : uri = other
    · subst he
      exact (change_refused docs uri changes hnone (fun hfull => h ⟨rfl, hfull⟩)).2
    · rw [EditorDocuments.change_other docs other uri changes he]
      exact hnone

theorem run_text_none (uri : U) (events : List (Event U)) :
    ∀ docs : EditorDocuments U, docs.text uri = none → (∀ e ∈ events, ¬ e.Resyncs uri) →
      (docs.run events).text uri = none := by
  induction events with
  | nil => intro docs hnone _; exact hnone
  | cons event events ih =>
    intro docs hnone hev
    show ((docs.step event).run events).text uri = none
    apply ih
    · exact step_text_none docs uri event hnone (hev event (by simp))
    · exact fun e he => hev e (by simp [he])

/-- **Refused until it is opened again or sent in full.** -/
theorem refused_until (docs : EditorDocuments U) (uri : U) (changes changes' : List ChangeEvent)
    (fault : Fault) (events : List (Event U)) (hfail : (docs.change uri changes).1 = .error fault)
    (hev : ∀ e ∈ events, ¬ e.Resyncs uri) (hfull : ¬ StartsFull changes') :
    ∃ e, (((docs.change uri changes).2.run events).change uri changes').1 = .error (.sync e) := by
  have hnone : (docs.change uri changes).2.text uri = none := by
    obtain ⟨t, ht⟩ | h := docs.change_cases uri changes
    · rw [(docs.change_of uri changes t ht).1] at hfail
      exact absurd hfail (by simp)
    · exact h.2
  exact (change_refused _ uri changes' (run_text_none uri events _ hnone hev) hfull).1

/-! ## §5. The server's text and the editor's -/

/-- **The server's text is the editor's text**: every notification an editor sends is
    answered with its text; any notification is answered with what its changes mean, in
    order, or refused, never by a panic; and a document once refused is refused until it is
    opened again or a notification starts with its full text. -/
theorem change_answers_editor_text (uri : U) :
    (∀ (docs : EditorDocuments U) (t : Text) (notes : List (List ChangeEvent)) (texts : List Text),
      docs.texts.lookup uri = some (some t) → EditorRun t notes texts →
        docs.changeAll uri notes = texts.map .ok) ∧
    (∀ (docs : EditorDocuments U) (changes : List ChangeEvent),
      (∃ t, (docs.change uri changes).1 = .ok t ∧ AppliesAll (docs.text uri) changes t) ∨
      (∃ e, (docs.change uri changes).1 = .error (.sync e) ∧
        ¬ ∃ t, AppliesAll (docs.text uri) changes t)) ∧
    (∀ (docs : EditorDocuments U) (changes changes' : List ChangeEvent) (fault : Fault)
        (events : List (Event U)),
      (docs.change uri changes).1 = .error fault → (∀ e ∈ events, ¬ e.Resyncs uri) →
      ¬ StartsFull changes' →
        ∃ e, (((docs.change uri changes).2.run events).change uri changes').1
          = .error (.sync e)) := by
  refine ⟨?_, ?_, ?_⟩
  · intro docs t notes texts hopen hrun
    exact changeAll_editor uri t notes texts hrun docs hopen
  · intro docs changes
    by_cases h : ∃ t, AppliesAll (docs.text uri) changes t
    · obtain ⟨t, ht⟩ := h
      exact .inl ⟨t, (docs.change_of uri changes t ht).1, ht⟩
    · obtain hall | ⟨⟨e, he⟩, -⟩ := docs.change_cases uri changes
      · exact absurd hall h
      · exact .inr ⟨e, he, h⟩
  · intro docs changes changes' fault events hfail hev hfull
    exact refused_until docs uri changes changes' fault events hfail hev hfull

end

/-- A document with a character of two UTF-16 units and a CRLF line break; the end column of
    the change is past the line.  And a change past the last line, refused with what follows
    it. -/
theorem change_answers_editor_text_crlf :
    (EditorDocuments.empty.openDocument 0 ['x', '😀', '\r', '\n', 'b']).changeAll 0
        [[⟨some ⟨⟨0, 1⟩, ⟨0, 9⟩⟩, ['é']⟩, ⟨some ⟨⟨0, 2⟩, ⟨1, 0⟩⟩, []⟩]]
      = [['x', 'é', 'b']].map .ok ∧
    ∃ e, ((((EditorDocuments.empty.openDocument 0 ['a']).change 0
        [⟨some ⟨⟨5, 0⟩, ⟨5, 0⟩⟩, []⟩]).2.run [.didClose 1]).change 0
          [⟨some ⟨⟨0, 0⟩, ⟨0, 0⟩⟩, ['c']⟩]).1 = .error (.sync e) := by
  have h := change_answers_editor_text (U := Nat) 0
  constructor
  · apply h.1 _ ['x', '😀', '\r', '\n', 'b'] _ _ (by rfl)
    refine .cons _ ['x', 'é', 'b'] _ _ _ ?_ (.nil _)
    refine .cons _ ['x', 'é', '\r', '\n', 'b'] _ _ _ ?_ ?_
    · exact .ranged _ ['é'] 1 2 _ (by decide) (by decide) (by unfold InsideCrlf; decide)
        (by unfold InsideCrlf; decide) (by rfl)
        (.inr ⟨by rfl, by decide, .inr (.inr (by rfl))⟩)
    · refine .cons _ ['x', 'é', 'b'] _ _ _ ?_ (.nil _)
      exact .ranged _ [] 2 4 _ (by decide) (by decide) (by unfold InsideCrlf; decide)
        (by unfold InsideCrlf; decide) (by rfl) (.inl (by rfl))
  · apply h.2.2 _ _ _ (.sync (.LineOutOfRange ⟨5, 0⟩)) [.didClose 1] (by rfl)
    · intro e he hres
      rw [List.mem_singleton.1 he] at hres
      exact hres
    · intro hfull
      obtain ⟨c, rest, hc, hrange⟩ := hfull
      rw [(List.cons.inj hc).1.symm] at hrange
      exact absurd hrange (by simp)

/-- A full-text change ends the refusal of a document that was NOT opened again: of three
    notifications, the first is refused, the second sends the text, and the third, ranged
    only, is answered. -/
theorem refusal_ends_without_reopening :
    ¬ ∀ (docs : EditorDocuments Nat) (uri : Nat) (changes changes' : List ChangeEvent)
        (fault : Fault) (events : List (Event Nat)),
      (docs.change uri changes).1 = .error fault →
      (∀ e ∈ events, ∀ text, e ≠ .didOpen uri text) → ¬ StartsFull changes' →
        ∃ fault', (((docs.change uri changes).2.run events).change uri changes').1
          = .error fault' := by
  intro h
  obtain ⟨fault', hfault'⟩ := h (EditorDocuments.empty.openDocument 0 ['a']) 0
    [⟨some ⟨⟨5, 0⟩, ⟨5, 0⟩⟩, []⟩] [⟨some ⟨⟨0, 1⟩, ⟨0, 1⟩⟩, ['c']⟩]
    (.sync (.LineOutOfRange ⟨5, 0⟩)) [.didChange 0 [⟨none, ['b']⟩]] (by rfl)
    (by
      intro e he text heq
      rw [List.mem_singleton.1 he] at heq
      exact absurd heq (by simp))
    (by
      intro hfull
      obtain ⟨c, rest, hc, hrange⟩ := hfull
      rw [(List.cons.inj hc).1.symm] at hrange
      exact absurd hrange (by simp))
  have hok : ((((EditorDocuments.empty.openDocument 0 ['a']).change 0
      [⟨some ⟨⟨5, 0⟩, ⟨5, 0⟩⟩, []⟩]).2.run [.didChange 0 [⟨none, ['b']⟩]]).change 0
        [⟨some ⟨⟨0, 1⟩, ⟨0, 1⟩⟩, ['c']⟩]).1 = .ok ['b', 'c'] := by rfl
  rw [hok] at hfault'
  exact absurd hfault' (by simp)

end GluaLs.Docs
