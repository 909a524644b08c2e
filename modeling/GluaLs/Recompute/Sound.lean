/-
  GluaLs.Recompute.Sound — a fresh memo still holds.

  Over every run in which windows open together with those of the keys read out of their
  key, and close in the reverse of the order they opened in:

    • a memo that `Provenance::freshness` calls unwritten read only slots that still name
      the keys it read, with the values it read,
    • a memo it calls written read a key that was written, windowed or released since,
    • the stamp it keeps of its last check never changes the answer.

  Both conditions are needed.  `stale_memo_fresh` gives the run for the first: a key read
  out of a windowed one is interned WITHOUT the window of its base, and a window opened on
  it later is closed by what came of the base.
-/
import GluaLs.Recompute.Invariant

namespace GluaLs.Recompute

open GluaLs.Lib

variable {K V : Type}

/-! ## §1. `freshness` -/

theorem writtenSinceFrom_recomputing (t : KeyTable K V) (since : Nat) (slots : List Nat) :
    t.writtenSinceFrom since .recomputing slots ≠ .unwritten := by
  induction slots with
  | nil => exact fun h => by cases h
  | cons slot slots ih =>
    unfold KeyTable.writtenSinceFrom
    split
    · exact ih
    · split
      · split
        · exact ih
        · exact fun h => by cases h
      · exact fun h => by cases h

/-- **Unwritten** is the answer when every slot is. -/
theorem writtenSince_iff (t : KeyTable K V) (since : Nat) (slots : List Nat) :
    t.writtenSince slots since = .unwritten ↔
      ∀ slot ∈ slots, (t.keys slot).written ≤ since := by
  unfold KeyTable.writtenSince
  induction slots with
  | nil => simp [KeyTable.writtenSinceFrom]
  | cons slot slots ih =>
    rw [List.forall_mem_cons, ← ih]
    by_cases hle : (t.keys slot).written ≤ since
    · simp [KeyTable.writtenSinceFrom, hle]
    · have hne : t.writtenSinceFrom since .unwritten (slot :: slots) ≠ .unwritten := by
        unfold KeyTable.writtenSinceFrom
        rw [if_neg hle]
        split
        · split
          · exact writtenSinceFrom_recomputing t since slots
          · exact fun h => by cases h
        · exact fun h => by cases h
      simp [hne, hle]

section

variable {facts : Facts K V} {s : State K V} {p : Memo K V}
  (h : ∀ r ∈ p.reads, Vouched facts s.table s.values s.touched s.released p.since p.checked r)
include h

/-- **The answer of `freshness`** is that of `written_since`: when it does not look, no slot
    was written. -/
theorem freshness_eq :
    (p.freshness s.table s.counter).1 = s.table.writtenSince p.slots p.since := by
  unfold Memo.freshness
  split
  · rename_i hskip
    have hle : s.table.lastWritten ≤ p.checked := by
      simpa [KeyTable.writtenAfter] using hskip
    have hall : ∀ slot ∈ p.slots, (s.table.keys slot).written ≤ p.since := by
      intro slot hslot
      obtain ⟨r, hr, rfl⟩ := List.mem_map.1 hslot
      exact (h r hr).checked hle
    exact ((writtenSince_iff s.table p.since p.slots).2 hall).symm
  · cases hsince : s.table.writtenSince p.slots p.since <;> rfl

theorem freshness_unwritten :
    (p.freshness s.table s.counter).1 = .unwritten ↔
      ∀ r ∈ p.reads, (s.table.keys r.slot).written ≤ p.since := by
  rw [freshness_eq h, writtenSince_iff]
  simp [Memo.slots]

end

/-- What `freshness` stores of its check. -/
theorem freshness_snd (p : Memo K V) (t : KeyTable K V) (latest : Nat) :
    (p.freshness t latest).2 = p ∨
      (p.freshness t latest).1 = .unwritten ∧
        (p.freshness t latest).2 = { p with checked := latest } := by
  unfold Memo.freshness
  split
  · exact .inl rfl
  · cases t.writtenSince p.slots p.since with
    | unwritten => exact .inr ⟨rfl, rfl⟩
    | recomputing => exact .inl rfl
    | written => exact .inl rfl

/-! ## §2. The steps of frames and memos -/

section Frames

variable {facts : Facts K V} {s : State K V}

/-- An open frame may note a read of a slot on which no window is open. -/
theorem vouched_of_clean {since : Nat} {r : Read K V} (hsettled : Settled s.table s.touched since)
    (hkey : (s.table.keys r.slot).key = some r.key) (hvalue : facts.value s.values r.key = r.value)
    (hclosed : ∀ mark, (s.table.saved mark).lookup r.slot = none) :
    Vouched facts s.table s.values s.touched s.released since 0 r where
  kept := kept_of_clean hsettled hkey hvalue hclosed
  checked hle := by
    obtain ⟨-, hlast⟩ | ⟨hwritten, -⟩ := hsettled r.slot r.key hkey
    · omega
    · exact hwritten

section

variable (h : Inv facts s)
include h

/-- **Every open frame notes reads of clean slots.** -/
theorem Inv.notes (reads : List (Read K V)) (taints : Bool)
    (hclean : taints = false → ∀ r ∈ reads, (s.table.keys r.slot).key = some r.key ∧
      facts.value s.values r.key = r.value ∧
      ∀ mark, (s.table.saved mark).lookup r.slot = none) :
    Inv facts { s with frames := State.note s.frames reads taints } where
  filed := h.filed
  kin := h.kin
  stamped := h.stamped
  together := h.together
  frames f' hf' := by
    obtain ⟨f, hf, rfl⟩ := List.mem_map.1 hf'
    obtain ⟨hsince, hsettled, hreads⟩ := h.frames f hf
    refine ⟨hsince, hsettled, ?_⟩
    intro htainted r hr
    obtain ⟨hbefore, htaints⟩ := Bool.or_eq_false_iff.1 htainted
    obtain hr | hr := List.mem_append.1 hr
    · exact hreads hbefore r hr
    · obtain ⟨hkey, hvalue, hclosed⟩ := hclean htaints r hr
      exact vouched_of_clean hsettled hkey hvalue hclosed
  memos := h.memos

/-- A stamp is taken elsewhere. -/
theorem Inv.stamps : Inv facts { s with counter := s.counter + 1 } := by
  apply h.transfer
  · rfl
  · rfl
  · exact Nat.le_succ _
  · exact h.filed
  · exact h.kin
  · exact h.stamped.next
  · exact h.together
  · exact fun _ _ hsettled => hsettled
  · exact fun _ _ _ _ _ hvouched => hvouched

/-- A frame opens: every stamp is older. -/
theorem Inv.opensFrame :
    Inv facts { s with
      counter := s.counter + 1
      frames := ⟨s.counter + 1, [], false⟩ :: s.frames } where
  filed := h.filed
  kin := h.kin
  stamped := h.stamped.next
  together := h.together
  frames f hf := by
    obtain rfl | hf := List.mem_cons.1 hf
    · refine ⟨le_rfl, ?_, nofun⟩
      intro slot key hkey
      have hlive : (s.table.keys slot).key ≠ none := Option.ne_none_iff_exists'.2 ⟨key, hkey⟩
      refine .inr ⟨h.stamped.next.live slot hlive, ?_⟩
      exact fun mark window hwindow => h.stamped.next.saved mark slot window hwindow
    · exact h.stamps.frames f hf
  memos := h.stamps.memos

/-- A frame closes, and leaves a memo if it is not tainted. -/
theorem Inv.closesFrame (closed : Frame K V) (outer : List (Frame K V))
    (hframes : s.frames = closed :: outer) :
    Inv facts { s with
      frames := outer
      memos := if closed.tainted then s.memos
        else s.memos ++ [⟨closed.since, closed.reads, 0⟩] } where
  filed := h.filed
  kin := h.kin
  stamped := h.stamped
  together := h.together
  frames f hf := h.frames f (hframes ▸ List.mem_cons_of_mem _ hf)
  memos p hp := by
    have hold : p ∈ s.memos ∨ closed.tainted = false ∧ p = ⟨closed.since, closed.reads, 0⟩ := by
      cases htainted : closed.tainted with
      | true => exact .inl (by simpa [htainted] using hp)
      | false => simpa [htainted] using hp
    obtain hold | ⟨htainted, rfl⟩ := hold
    · exact h.memos p hold
    · obtain ⟨hsince, -, hreads⟩ := h.frames closed (hframes ▸ (.head _))
      exact ⟨hsince, Nat.zero_le _, hreads htainted⟩

/-- A memo keeps the stamp of its check. -/
theorem Inv.checks (i : Nat) (p : Memo K V) (hp : s.memos[i]? = some p) :
    Inv facts { s with memos := s.memos.set i (p.freshness s.table s.counter).2 } where
  filed := h.filed
  kin := h.kin
  stamped := h.stamped
  together := h.together
  frames := h.frames
  memos q hq := by
    obtain ⟨hsince, hchecked, hreads⟩ := h.memos p (List.mem_of_getElem? hp)
    obtain hq | rfl := List.mem_or_eq_of_mem_set hq
    · exact h.memos q hq
    · obtain hsame | ⟨hfresh, hnew⟩ := freshness_snd p s.table s.counter
      · rw [hsame]
        exact ⟨hsince, hchecked, hreads⟩
      · rw [hnew]
        have hunwritten := (freshness_unwritten hreads).1 hfresh
        exact ⟨hsince, le_rfl, fun r hr => ⟨(hreads r hr).kept, fun _ => hunwritten r hr⟩⟩

/-- The reads of a memo that is fresh are of clean slots. -/
theorem Inv.clean {p : Memo K V} (hp : p ∈ s.memos)
    (hfresh : (p.freshness s.table s.counter).1 = .unwritten) (r : Read K V) (hr : r ∈ p.reads) :
    (s.table.keys r.slot).key = some r.key ∧ facts.value s.values r.key = r.value ∧
      ∀ mark, (s.table.saved mark).lookup r.slot = none := by
  obtain ⟨-, -, hreads⟩ := h.memos p hp
  have hle := (freshness_unwritten hreads).1 hfresh r hr
  obtain ⟨hkey, hvalue⟩ := (hreads r hr).kept.fresh hle
  refine ⟨hkey, hvalue, ?_⟩
  intro mark
  by_contra hopen
  exact absurd hle (not_le.2 ((hreads r hr).kept.opened mark hopen))

end

end Frames

/-! ## §3. Runs -/

section Runs

variable [DecidableEq K] [DecidableEq V]

/-- **One step keeps the invariant**, if it keeps the windows together and in order. -/
theorem inv_step (facts : Facts K V) (s : State K V) (label : Label K V) (s' : State K V)
    (h : Inv facts s) (hwindows : keepsWindows facts s label = true)
    (hstep : step facts s label = some s') : Inv facts s' := by
  cases label with
  | intern key now =>
    simp only [step] at hstep
    split at hstep
    · rename_i hnow
      cases hstep
      exact h.interns key now hnow.1 hnow.2.1 hnow.2.2
    · cases hstep
  | release slot =>
    simp only [step] at hstep
    split at hstep
    · rename_i key hkey
      split at hstep
      · cases hstep
        exact h.releases slot key hkey ‹_›
      · cases hstep
    · cases hstep
  | write key value =>
    cases hstep
    exact h.write key value
  | openIn mark key value =>
    cases hstep
    exact h.opens mark key value hwindows
  | closeIn mark unchanged =>
    simp only [step] at hstep
    split at hstep
    · cases hstep
      exact h.closes mark unchanged ‹_› hwindows
    · cases hstep
  | openFrame =>
    cases hstep
    exact h.opensFrame
  | read slot =>
    simp only [step] at hstep
    split at hstep
    · rename_i key hkey
      cases hstep
      apply h.notes
      intro htaints r hr
      obtain rfl := List.mem_singleton.1 hr
      refine ⟨hkey, rfl, ?_⟩
      -- a slot that does not taint carries no mark, so no window is open on it
      obtain ⟨hwindowed, hheld⟩ := Bool.or_eq_false_iff.1 htaints
      intro mark
      by_contra hopen
      have hmarked := (h.stamped.marks slot mark).2 hopen
      cases mark with
      | windowed => simp [hwindowed] at hmarked
      | held => simp [hheld] at hmarked
    · cases hstep
  | closeFrame =>
    simp only [step] at hstep
    split at hstep
    · rename_i closed outer hframes
      cases hstep
      exact h.closesFrame closed outer hframes
    · cases hstep
  | reuse i =>
    simp only [step] at hstep
    split at hstep
    · rename_i p hp
      cases hstep
      have hchecked := h.checks i p hp
      by_cases hfresh : (p.freshness s.table s.counter).1 = .unwritten
      · rw [if_pos hfresh]
        apply hchecked.notes
        exact fun _ r hr => h.clean (List.mem_of_getElem? hp) hfresh r hr
      · rw [if_neg hfresh]
        exact hchecked
    · cases hstep
  | stampElsewhere =>
    cases hstep
    exact h.stamps

/-- **What a memo may be trusted with.** -/
structure Trusted (facts : Facts K V) (s : State K V) (p : Memo K V) : Prop where
  unwritten : (p.freshness s.table s.counter).1 = .unwritten → ∀ r ∈ p.reads,
    (s.table.keys r.slot).key = some r.key ∧ facts.value s.values r.key = r.value
  written : (p.freshness s.table s.counter).1 = .written →
    ∃ r ∈ p.reads, p.since < s.touched r.key
  checked : (p.freshness s.table s.counter).1 = s.table.writtenSince p.slots p.since

omit [DecidableEq K] [DecidableEq V] in
theorem Inv.trusted {facts : Facts K V} {s : State K V} (h : Inv facts s) (p : Memo K V)
    (hp : p ∈ s.memos) : Trusted facts s p := by
  obtain ⟨-, -, hreads⟩ := h.memos p hp
  constructor
  · intro hfresh r hr
    obtain ⟨hkey, hvalue, -⟩ := h.clean hp hfresh r hr
    exact ⟨hkey, hvalue⟩
  · intro hwritten
    by_contra huntouched
    push Not at huntouched
    -- a key that was not touched keeps its slot unwritten
    have hall : ∀ r ∈ p.reads, (s.table.keys r.slot).written ≤ p.since := by
      intro r hr
      exact (hreads r hr).kept.touched.resolve_left (not_lt.2 (huntouched r hr))
    rw [(freshness_unwritten hreads).2 hall] at hwritten
    cases hwritten
  · exact freshness_eq hreads

/-- **Freshness is sound over every run** whose windows open together and close in order. -/
theorem memos_trusted (facts : Facts K V) (counter : Nat) (values : K → V)
    (labels : List (Label K V))
    (hwindows : LabelledRuns.everyStep (step facts) (keepsWindows facts) labels
      (State.initial counter values) = true) :
    LabelledRuns.EveryState (step facts) (fun s => ∀ p ∈ s.memos, Trusted facts s p) labels
      (State.initial counter values) := by
  have hinv := LabelledRuns.everyState_of_everyStep (Inv facts) (keepsWindows facts)
    (inv_step facts) labels (State.initial counter values)
    (inv_initial facts counter values) hwindows
  exact hinv.imp (fun s h p hp => h.trusted p hp) labels _

end Runs

/-! ## §4. Two runs -/

/-- The key `true` is read out of the key `false`, whole. -/
def wholePart : Facts Bool Nat where
  base key := if key then some false else none
  base_base key root h := by
    cases key with
    | true =>
      obtain rfl := Option.some.inj h
      rfl
    | false => cases h
  part _ value := value

/-- A loop settles again around one evaluation of its own; the base comes back as it was. -/
def settledAgain : List (Label Bool Nat) :=
  [.intern true 0, .openFrame, .read 0, .closeFrame, .openIn .held false 2,
    .openIn .windowed false 1, .closeIn .windowed fun _ => false, .closeIn .held fun _ => true,
    .reuse 0]

/-- The memo of before holds again. -/
theorem memos_trusted_settledAgain :
    LabelledRuns.everyStep (step wholePart) (keepsWindows wholePart) settledAgain
        (State.initial 0 fun _ => 1) = true ∧
      (run wholePart settledAgain (State.initial 0 fun _ => 1)).map (fun s =>
        s.memos.map fun p => ((p.freshness s.table s.counter).1, p.reads.map Read.value)) =
          some [(.unwritten, [1])] ∧
      LabelledRuns.EveryState (step wholePart)
        (fun s => ∀ p ∈ s.memos, Trusted wholePart s p) settledAgain
        (State.initial 0 fun _ => 1) :=
  have hwindows : LabelledRuns.everyStep (step wholePart) (keepsWindows wholePart) settledAgain
      (State.initial 0 fun _ => 1) = true := by decide +kernel
  ⟨hwindows, by decide +kernel, memos_trusted wholePart 0 (fun _ => 1) settledAgain hwindows⟩

/-- A key is interned while its base is held, read, and held with it; the base comes back. -/
def internedWhileHeld : List (Label Bool Nat) :=
  [.intern false 0, .openIn .held false 2, .intern true 1, .openFrame, .read 1, .closeFrame,
    .openIn .held false 1, .closeIn .held fun _ => true]

/-- **A stale memo reads as fresh**: it read 2, the key holds 1. -/
theorem stale_memo_fresh :
    (run wholePart internedWhileHeld (State.initial 0 fun _ => 1)).map (fun s =>
      s.memos.map fun p => ((p.freshness s.table s.counter).1, p.reads,
        wholePart.value s.values true)) =
          some [(.unwritten, [⟨1, true, 2⟩], 1)] := by
  decide +kernel

end GluaLs.Recompute
