/-
  GluaLs.Syntax.MarkerRuns — what a list of events opens, eats and closes.

  A node start may be linked to a later one (`precede`), which then opens in front of it; a
  start of kind `None` opens nothing by itself.  `bracketing` reads the nodes off the events
  without changing them.  The marker interface keeps the links in order (`linksOk_of_steps`):
  they lead forward, to node starts, and no two lead to the same one.
-/
import Mathlib.Logic.Relation
import GluaLs.Syntax.GreenBuilder
import GluaLs.Syntax.ParserStep

namespace GluaLs.Syntax

/-! ## §1. The links between node starts -/

def isNodeStart : Option MarkEvent → Bool
  | some (.NodeStart _ _) => true
  | _ => false

/-- The parent position of a node start, 0 where there is none. -/
def parentOf : Option MarkEvent → Nat
  | some (.NodeStart _ parent) => parent
  | _ => 0

/-- The start at `i` is linked to the one at `j`. -/
def Linked (events : List MarkEvent) (i j : Nat) : Prop := parentOf events[i]? = j ∧ 0 < j

/-- The links lead forward, to node starts, and no two of them to the same one. -/
structure LinksOk (events : List MarkEvent) : Prop where
  forward : ∀ i j, Linked events i j → i < j
  start : ∀ i j, Linked events i j → isNodeStart events[j]? = true
  injective : ∀ i i' j, Linked events i j → Linked events i' j → i = i'

/-- The starts opened in front of one whose parent position is `parent`, the nearest first.
    A chain of links has no more starts than there are events. -/
def parentsOf (events : List MarkEvent) : Nat → Nat → List (Nat × LuaSyntaxKind)
  | _, 0 => []
  | 0, _ + 1 => []
  | rounds + 1, position + 1 =>
    match events[position + 1]? with
    | some (.NodeStart kind parent) => (position + 1, kind) :: parentsOf events rounds parent
    | _ => []

/-- The start at `i` opens the one at `pos` in front of itself. -/
def takes (events : List MarkEvent) (i pos : Nat) : Bool :=
  match events[i]? with
  | some (.NodeStart kind parent) =>
    kind != .None && (parentsOf events (events.length + 1) parent).any fun p => p.1 == pos
  | _ => false

/-- A start before `i` opens the one at `pos`. -/
def taken (events : List MarkEvent) (i pos : Nat) : Bool :=
  (List.range i).any fun j => takes events j pos

/-- What the event at `i` opens, eats or closes. -/
def opened (events : List MarkEvent) (i : Nat) : List RowanCall :=
  match events[i]? with
  | some (.NodeStart kind parent) =>
    if kind = .None ∨ taken events i i then []
    else (kind :: (parentsOf events (events.length + 1) parent).map Prod.snd).reverse.map
      .startNode
  | some (.EatToken kind range) => [.token kind range]
  | some .NodeEnd => [.finishNode]
  | _ => []

/-- What the events open, eat and close, in order. -/
def bracketing (events : List MarkEvent) : List RowanCall :=
  (List.range events.length).flatMap (opened events)

/-- What is eaten or closed, the kinds of the nodes aside. -/
def closing : MarkEvent → Option Bool
  | .NodeEnd => some true
  | .EatToken _ _ => some false
  | _ => none

/-- A node is closed before the first token is eaten. -/
def closesEarly (events : List MarkEvent) : Bool := events.findSome? closing == some true

/-! ## §2. The marker interface -/

/-- One call of the marker interface, a token eaten, or anything that leaves the events alone. -/
inductive MarkerStep (p q : LuaParser) : Prop where
  | mark (kind : LuaSyntaxKind) (m : Marker) (h : mark kind p = .ok (m, q))
  | setKind (m : Marker) (kind : LuaSyntaxKind) (h : m.setKind kind p = .ok ((), q))
  | complete (m : Marker) (cm : CompleteMarker) (h : m.complete p = .ok (cm, q))
  | undo (m : Marker) (cm : CompleteMarker) (h : m.undo p = .ok (cm, q))
  | precede (cm : CompleteMarker) (kind : LuaSyntaxKind) (m : Marker)
      (hcm : cm.start < p.events.length) (h : cm.precede kind p = .ok (m, q))
  | pushNodeEnd (h : pushNodeEnd p = .ok ((), q))
  | eatToken (token : LuaTokenData) (h : pushEvents [eatToken token] p = .ok ((), q))
  | other (h : q.events = p.events)

section

variable {events : List MarkEvent}

/-- An event without a link is added. -/
theorem linksOk_append (hlinks : LinksOk events) (event : MarkEvent)
    (hparent : parentOf (some event) = 0) : LinksOk (events ++ [event]) := by
  have hold : ∀ i j, Linked (events ++ [event]) i j → Linked events i j := by
    rintro i j ⟨hi, hj⟩
    refine ⟨?_, hj⟩
    rcases Nat.lt_trichotomy i events.length with hlt | rfl | hgt
    · rwa [List.getElem?_append_left hlt] at hi
    · rw [List.getElem?_concat_length, hparent] at hi
      omega
    · rw [List.getElem?_eq_none (by simp; omega)] at hi
      simp only [parentOf] at hi
      omega
  refine ⟨fun i j h => hlinks.forward i j (hold i j h), ?_, fun i i' j h h' =>
    hlinks.injective i i' j (hold i j h) (hold i' j h')⟩
  intro i j h
  have hstart := hlinks.start i j (hold i j h)
  cases hat : events[j]? with
  | none => rw [hat] at hstart; cases hstart
  | some event' =>
    rw [List.getElem?_append_left (List.getElem?_eq_some_iff.1 hat).1]
    exact hstart

/-- A node start gets another kind. -/
theorem linksOk_setKind (hlinks : LinksOk events) {i : Nat} {kind kind' : LuaSyntaxKind}
    {parent : Nat} (hi : events[i]? = some (.NodeStart kind parent)) :
    LinksOk (events.set i (.NodeStart kind' parent)) := by
  have hsame : ∀ j : Nat,
      parentOf (events.set i (.NodeStart kind' parent))[j]? = parentOf events[j]?
        ∧ isNodeStart (events.set i (.NodeStart kind' parent))[j]? = isNodeStart events[j]? := by
    intro j
    by_cases hne : i = j
    · subst hne
      rw [List.getElem?_set_self (List.getElem?_eq_some_iff.1 hi).1, hi]
      exact ⟨rfl, rfl⟩
    · rw [List.getElem?_set_ne hne]
      exact ⟨rfl, rfl⟩
  have hold : ∀ j k, Linked (events.set i (.NodeStart kind' parent)) j k → Linked events j k :=
    fun j k h => ⟨(hsame j).1.symm.trans h.1, h.2⟩
  exact ⟨fun j k h => hlinks.forward j k (hold j k h),
    fun j k h => (hsame k).2.trans (hlinks.start j k (hold j k h)),
    fun j j' k h h' => hlinks.injective j j' k (hold j k h) (hold j' k h')⟩

theorem Linked.lt_length {i j : Nat} (hlinks : LinksOk events) (h : Linked events i j) :
    j < events.length := by
  have hstart := hlinks.start i j h
  cases hat : events[j]? with
  | none => rw [hat] at hstart; cases hstart
  | some event => exact (List.getElem?_eq_some_iff.1 hat).1

/-- A node start is linked to the last event, a start that nothing was linked to. -/
theorem linksOk_link {events : List MarkEvent} {last : Nat}
    (hlinks : LinksOk events) (hlast : isNodeStart events[last]? = true)
    (hfree : ∀ i, ¬ Linked events i last) {i : Nat} (hlt : i < last) {kind : LuaSyntaxKind}
    {parent : Nat} (hi : events[i]? = some (.NodeStart kind parent)) :
    LinksOk (events.set i (.NodeStart kind last)) := by
  have hlen := (List.getElem?_eq_some_iff.1 hi).1
  have hstarts : ∀ j : Nat,
      isNodeStart (events.set i (.NodeStart kind last))[j]? = isNodeStart events[j]? := by
    intro j
    by_cases hne : i = j
    · subst hne
      rw [List.getElem?_set_self hlen, hi]
      rfl
    · rw [List.getElem?_set_ne hne]
  -- the links are the old ones, save that of `i`
  have hnew : ∀ j k, Linked (events.set i (.NodeStart kind last)) j k →
      (j = i ∧ k = last) ∨ (j ≠ i ∧ Linked events j k) := by
    rintro j k ⟨hj, hk⟩
    by_cases hne : i = j
    · subst hne
      rw [List.getElem?_set_self hlen] at hj
      exact .inl ⟨rfl, hj.symm⟩
    · rw [List.getElem?_set_ne hne] at hj
      exact .inr ⟨Ne.symm hne, hj, hk⟩
  refine ⟨?_, ?_, ?_⟩
  · intro j k h
    rcases hnew j k h with ⟨rfl, rfl⟩ | ⟨_, h⟩
    · exact hlt
    · exact hlinks.forward j k h
  · intro j k h
    rw [hstarts]
    rcases hnew j k h with ⟨rfl, rfl⟩ | ⟨_, h⟩
    · exact hlast
    · exact hlinks.start j k h
  · intro j j' k h h'
    rcases hnew j k h with ⟨rfl, rfl⟩ | ⟨_, hjk⟩
    · rcases hnew j' k h' with ⟨rfl, _⟩ | ⟨_, hj'⟩
      · rfl
      · exact absurd hj' (hfree j')
    · rcases hnew j' k h' with ⟨rfl, rfl⟩ | ⟨_, hj'k⟩
      · exact absurd hjk (hfree j)
      · exact hlinks.injective j j' k hjk hj'k

/-- A sequence that does not stop stops in neither part. -/
theorem bind_ok {α β : Type} {m : Parse α} {k : α → Parse β} {p q : LuaParser} {b : β}
    (h : (m >>= k) p = .ok (b, q)) : ∃ a r, m p = .ok (a, r) ∧ k a r = .ok (b, q) := by
  have hrun : (m >>= k) p = (m p).bind fun r => k r.1 r.2 := rfl
  rw [hrun] at h
  cases hm : m p with
  | error stop => rw [hm] at h; cases h
  | ok r =>
    rw [hm] at h
    exact ⟨r.1, r.2, rfl, h⟩

section

variable {p q : LuaParser}

/-- A rewrite that does not panic finds a node start. -/
theorem modifyStart_ok {position : Nat} {f : LuaSyntaxKind → Nat → MarkEvent}
    {kind : LuaSyntaxKind} (h : modifyStart position f p = .ok (kind, q)) :
    ∃ parent, p.events[position]? = some (.NodeStart kind parent)
      ∧ q = { p with events := p.events.set position (f kind parent) } := by
  obtain ⟨_, _, hget, hrest⟩ := bind_ok h
  cases hget
  cases hat : p.events[position]? with
  | none => rw [hat] at hrest; cases hrest
  | some event =>
    rw [hat] at hrest
    cases event with
    | NodeStart kind' parent =>
      cases hrest
      exact ⟨parent, rfl, rfl⟩
    | EatToken _ _ => cases hrest
    | NodeEnd => cases hrest
    | Trivia => cases hrest

theorem setKind_ok {m : Marker} {kind : LuaSyntaxKind}
    (hlinks : LinksOk p.events) (h : m.setKind kind p = .ok ((), q)) : LinksOk q.events := by
  obtain ⟨kind', r, hset, hq⟩ := bind_ok h
  obtain ⟨parent, hat, rfl⟩ := modifyStart_ok hset
  cases hq
  exact linksOk_setKind hlinks hat

theorem pushNodeEnd_ok (hlinks : LinksOk p.events)
    (h : pushNodeEnd p = .ok ((), q)) : LinksOk q.events := by
  obtain ⟨_, _, hget, hpush⟩ := bind_ok h
  cases hget
  by_cases hlevel : p.markLevel = 0
  · rw [if_pos hlevel] at hpush
    cases hpush
  · rw [if_neg hlevel] at hpush
    cases hpush
    exact linksOk_append hlinks .NodeEnd rfl

theorem complete_ok {m : Marker} {cm : CompleteMarker}
    (hlinks : LinksOk p.events) (h : m.complete p = .ok (cm, q)) : LinksOk q.events := by
  obtain ⟨kind, r, hset, hrest⟩ := bind_ok h
  obtain ⟨parent, hat, rfl⟩ := modifyStart_ok hset
  have hlinks' : LinksOk (p.events.set m.position (.NodeStart kind parent)) :=
    linksOk_setKind hlinks hat
  obtain ⟨_, _, hget, hrest⟩ := bind_ok hrest
  cases hget
  split at hrest
  · obtain ⟨_, r, hundo, hq⟩ := bind_ok hrest
    cases hq
    exact setKind_ok hlinks' hundo
  · obtain ⟨_, r, hend, hq⟩ := bind_ok hrest
    cases hq
    exact pushNodeEnd_ok hlinks' hend

theorem precede_ok {cm : CompleteMarker} {kind : LuaSyntaxKind} {m : Marker}
    (hcm : cm.start < p.events.length) (hlinks : LinksOk p.events)
    (h : cm.precede kind p = .ok (m, q)) : LinksOk q.events := by
  obtain ⟨_, _, hmark, hrest⟩ := bind_ok h
  cases hmark
  obtain ⟨kind', _, hlink, hrest⟩ := bind_ok hrest
  obtain ⟨parent, hat, rfl⟩ := modifyStart_ok hlink
  obtain ⟨_, _, hpush, hq⟩ := bind_ok hrest
  cases hpush
  cases hq
  apply linksOk_append _ .Trivia rfl
  apply linksOk_link (linksOk_append hlinks (.NodeStart kind 0) rfl) _ _ hcm hat
  · show isNodeStart (p.events ++ [MarkEvent.NodeStart kind 0])[p.events.length]? = true
    rw [List.getElem?_concat_length]
    rfl
  · intro i hlinked
    have hlt : i < p.events.length := by
      have hforward := (linksOk_append hlinks (.NodeStart kind 0) rfl).forward _ _ hlinked
      exact hforward
    have hold : Linked p.events i p.events.length := by
      obtain ⟨hi, hpos⟩ := hlinked
      rw [List.getElem?_append_left hlt] at hi
      exact ⟨hi, hpos⟩
    exact Nat.lt_irrefl _ (hold.lt_length hlinks)

/-- **The marker interface keeps the links in order.** -/
theorem linksOk_step (hstep : MarkerStep p q) (hlinks : LinksOk p.events) : LinksOk q.events := by
  cases hstep with
  | mark kind m h =>
    cases h
    exact linksOk_append hlinks (.NodeStart kind 0) rfl
  | setKind m kind h => exact setKind_ok hlinks h
  | complete m cm h => exact complete_ok hlinks h
  | undo m cm h =>
    obtain ⟨_, r, hset, hq⟩ := bind_ok h
    cases hq
    exact setKind_ok hlinks hset
  | precede cm kind m hcm h => exact precede_ok hcm hlinks h
  | pushNodeEnd h => exact pushNodeEnd_ok hlinks h
  | eatToken token h =>
    cases h
    exact linksOk_append hlinks (Syntax.eatToken token) rfl
  | other h =>
    rw [h]
    exact hlinks

/-- So in every list of events that the marker interface makes the links are in order. -/
theorem linksOk_of_steps (hnew : p.events = [])
    (hsteps : Relation.ReflTransGen MarkerStep p q) : LinksOk q.events := by
  induction hsteps with
  | refl =>
    rw [hnew]
    have hnone : ∀ i j, ¬ Linked [] i j := fun i j h =>
      Nat.lt_irrefl 0 (Nat.lt_of_lt_of_eq h.2 h.1.symm)
    exact ⟨fun i j h => absurd h (hnone i j), fun i j h => absurd h (hnone i j),
      fun i _ j h _ => absurd h (hnone i j)⟩
  | tail _ hstep ih => exact linksOk_step hstep ih

end

end

end GluaLs.Syntax
