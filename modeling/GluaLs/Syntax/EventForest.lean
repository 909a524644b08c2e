/-
  GluaLs.Syntax.EventForest — the builder makes the calls of the events.

  The loop over the events takes the starts that a start is linked to out of the list, so that
  it passes over them later (`Follows`).  What it does to the trees is what `bracketing` says
  (`buildTree_eq`).
-/
import GluaLs.Syntax.GreenForest
import GluaLs.Syntax.MarkerRuns

namespace GluaLs.Syntax

open GluaLs.Lib Relation LuaTreeBuilder

namespace Forest

/-- The builder's operation for a call. -/
def call (f : Forest) : RowanCall → Option Forest
  | .startNode kind => some (f.startNode kind)
  | .token kind range => some (f.token kind range)
  | .finishNode => f.finishNode

@[simp] theorem call_startNode (f : Forest) (kind : LuaSyntaxKind) :
    f.call (.startNode kind) = some (f.startNode kind) := rfl

@[simp] theorem call_finishNode (f : Forest) : f.call .finishNode = f.finishNode := rfl

def calls (f : Forest) (cs : List RowanCall) : Option Forest := cs.foldlM call f

/-- The trees of a file. -/
def build (cs : List RowanCall) : Option Forest := do
  let f ← calls ⟨[(.Chunk, 0)], []⟩ cs
  f.finishNode

theorem calls_cons (f : Forest) (c : RowanCall) (cs : List RowanCall) :
    f.calls (c :: cs) = (f.call c).bind fun f' => f'.calls cs :=
  List.foldlM_cons

theorem calls_append (f : Forest) (cs cs' : List RowanCall) :
    f.calls (cs ++ cs') = (f.calls cs).bind fun f' => f'.calls cs' :=
  List.foldlM_append

theorem calls_startNodes (f : Forest) (kinds : List LuaSyntaxKind) :
    f.calls (kinds.map .startNode) = some (kinds.foldl startNode f) := by
  induction kinds generalizing f with
  | nil => rfl
  | cons kind kinds ih => exact ih (f.startNode kind)

end Forest

/-! ## §1. Chains of links -/

section

variable {events : List MarkEvent}

theorem le_of_links (hlinks : LinksOk events) {i j : Nat}
    (h : ReflTransGen (Linked events) i j) : i ≤ j := by
  induction h with
  | refl => exact Nat.le_refl i
  | tail _ hlast ih => exact Nat.le_of_lt (Nat.lt_of_le_of_lt ih (hlinks.forward _ _ hlast))

/-- A parent position that the links of a list can lead to, with enough rounds to follow it. -/
def Follow (events : List MarkEvent) (rounds parent : Nat) : Prop :=
  parent = 0 ∨ (events.length < parent + rounds ∧ ∃ i, Linked events i parent)

/-- A start linked to, and the rest of its chain. -/
theorem follow_succ (hlinks : LinksOk events) {rounds position : Nat}
    (hfollow : Follow events rounds (position + 1)) :
    ∃ rounds' kind parent, rounds = rounds' + 1
      ∧ events[position + 1]? = some (.NodeStart kind parent) ∧ Follow events rounds' parent
      ∧ (0 < parent → position + 1 < parent) := by
  rcases hfollow with hzero | ⟨hrounds, i, hlinked⟩
  · cases hzero
  have hlen := hlinked.lt_length hlinks
  have hstart := hlinks.start i _ hlinked
  cases hat : events[position + 1]? with
  | none => rw [hat] at hstart; cases hstart
  | some event =>
    rw [hat] at hstart
    cases event with
    | NodeStart kind parent =>
      have hnext : 0 < parent → Linked events (position + 1) parent := fun hpos =>
        ⟨by rw [hat]; rfl, hpos⟩
      obtain ⟨rounds', rfl⟩ : ∃ rounds', rounds = rounds' + 1 := ⟨rounds - 1, by omega⟩
      refine ⟨rounds', kind, parent, rfl, rfl, ?_, fun hpos =>
        hlinks.forward _ _ (hnext hpos)⟩
      rcases Nat.eq_zero_or_pos parent with hzero | hpos
      · exact .inl hzero
      · have hlt := hlinks.forward _ _ (hnext hpos)
        exact .inr ⟨by omega, _, hnext hpos⟩
    | EatToken _ _ => cases hstart
    | NodeEnd => cases hstart
    | Trivia => cases hstart

theorem follow_first {i parent : Nat} {kind : LuaSyntaxKind}
    (hi : events[i]? = some (.NodeStart kind parent)) :
    Follow events (events.length + 1) parent := by
  rcases Nat.eq_zero_or_pos parent with hzero | hpos
  · exact .inl hzero
  · exact .inr ⟨by omega, i, by rw [hi]; rfl, hpos⟩

section

variable (hlinks : LinksOk events)
include hlinks

/-- The starts of a chain are those that the links lead to. -/
theorem mem_parentsOf {pos : Nat} :
    ∀ (rounds parent : Nat), Follow events rounds parent →
      (pos ∈ (parentsOf events rounds parent).map Prod.fst
        ↔ 0 < parent ∧ ReflTransGen (Linked events) parent pos) := by
  intro rounds
  induction rounds with
  | zero =>
    intro parent hfollow
    cases parent with
    | zero => simp [parentsOf]
    | succ position =>
      obtain ⟨_, _, _, hrounds, -⟩ := follow_succ hlinks hfollow
      cases hrounds
  | succ rounds ih =>
    intro parent hfollow
    cases parent with
    | zero => simp [parentsOf]
    | succ position =>
      obtain ⟨rounds', kind, parent, hrounds, hat, hrest, -⟩ := follow_succ hlinks hfollow
      cases hrounds
      unfold parentsOf
      rw [hat]
      have hhead : ReflTransGen (Linked events) (position + 1) pos ↔ position + 1 = pos
          ∨ ∃ c, Linked events (position + 1) c ∧ ReflTransGen (Linked events) c pos :=
        ReflTransGen.cases_head_iff
      have hnext : (∃ c, Linked events (position + 1) c ∧ ReflTransGen (Linked events) c pos)
          ↔ 0 < parent ∧ ReflTransGen (Linked events) parent pos := by
        constructor
        · rintro ⟨c, ⟨hc, hpos⟩, hgo⟩
          rw [hat] at hc
          cases hc
          exact ⟨hpos, hgo⟩
        · rintro ⟨hpos, hgo⟩
          exact ⟨parent, ⟨by rw [hat]; rfl, hpos⟩, hgo⟩
      rw [List.map_cons, List.mem_cons, ih parent hrest, hhead, hnext]
      simp [eq_comm]

theorem takes_iff {i pos : Nat} :
    takes events i pos = true ↔ (∃ kind parent, events[i]? = some (.NodeStart kind parent)
      ∧ kind ≠ .None) ∧ TransGen (Linked events) i pos := by
  unfold takes
  cases hi : events[i]? with
  | none => simp
  | some event =>
    cases event with
    | NodeStart kind parent =>
      have hmem : pos ∈ (parentsOf events (events.length + 1) parent).map Prod.fst
          ↔ 0 < parent ∧ ReflTransGen (Linked events) parent pos :=
        mem_parentsOf hlinks _ parent (follow_first hi)
      have hchain : TransGen (Linked events) i pos
          ↔ 0 < parent ∧ ReflTransGen (Linked events) parent pos := by
        rw [TransGen.head'_iff]
        constructor
        · rintro ⟨c, ⟨hc, hpos⟩, hgo⟩
          rw [hi] at hc
          cases hc
          exact ⟨hpos, hgo⟩
        · rintro ⟨hpos, hgo⟩
          exact ⟨parent, ⟨by rw [hi]; rfl, hpos⟩, hgo⟩
      rw [hchain, ← hmem]
      simp
    | EatToken _ _ => simp
    | NodeEnd => simp
    | Trivia => simp

/-- A start opens only starts behind it. -/
theorem lt_of_takes {i pos : Nat} (h : takes events i pos = true) : i < pos := by
  obtain ⟨c, hc, hgo⟩ := TransGen.head'_iff.1 ((takes_iff hlinks).1 h).2
  exact Nat.lt_of_lt_of_le (hlinks.forward _ _ hc) (le_of_links hlinks hgo)

theorem takes_trans {i j pos : Nat} (hij : takes events i j = true)
    (hjpos : takes events j pos = true) : takes events i pos = true := by
  rw [takes_iff hlinks] at hij hjpos ⊢
  exact ⟨hij.1, hij.2.trans hjpos.2⟩

/-- Two starts of one chain: the earlier opens the later. -/
theorem takes_earlier {i j pos : Nat} (hjlt : j < i)
    (hi : takes events i pos = true) (hj : takes events j pos = true) :
    takes events j i = true := by
  rw [takes_iff hlinks] at hi hj ⊢
  refine ⟨hj.1, ?_⟩
  have hunique : Relator.RightUnique (Function.swap (Linked events)) :=
    fun _ _ _ h h' => hlinks.injective _ _ _ h h'
  rcases ReflTransGen.total_of_right_unique hunique (reflTransGen_swap.2 hi.2.to_reflTransGen)
    (reflTransGen_swap.2 hj.2.to_reflTransGen) with hgo | hgo
  · rcases reflTransGen_iff_eq_or_transGen.1 (reflTransGen_swap.1 hgo) with heq | hgo
    · exact absurd heq (Nat.ne_of_gt hjlt)
    · exact hgo
  · exact absurd (le_of_links hlinks (reflTransGen_swap.1 hgo)) (Nat.not_le_of_lt hjlt)

end

theorem taken_iff {i pos : Nat} :
    taken events i pos = true ↔ ∃ j, j < i ∧ takes events j pos = true := by
  simp [taken, List.any_eq_true, List.mem_range]

/-- What is taken once one more event is behind. -/
theorem taken_succ (i pos : Nat) :
    taken events (i + 1) pos = (taken events i pos || takes events i pos) := by
  simp [taken, List.range_succ, List.any_append]

/-! ## §2. The loop over the parent positions -/

/-- The starts of a chain are taken out, as far as they are still there. -/
theorem takeParents_eq (hlinks : LinksOk events) :
    ∀ (rounds parent : Nat) (now : List MarkEvent) (kinds : List LuaSyntaxKind),
      Follow events rounds parent →
      (∀ pos ∈ (parentsOf events rounds parent).map Prod.fst, now[pos]? = events[pos]?) →
      ∃ now', takeParents rounds now parent kinds
          = some (now', kinds ++ (parentsOf events rounds parent).map Prod.snd)
        ∧ now'.length = now.length
        ∧ ∀ pos : Nat, now'[pos]? = if pos ∈ (parentsOf events rounds parent).map Prod.fst
            then some .none else now[pos]? := by
  intro rounds
  induction rounds with
  | zero =>
    intro parent now kinds hfollow _
    cases parent with
    | zero => exact ⟨now, by simp [takeParents, parentsOf], rfl, by simp [parentsOf]⟩
    | succ position =>
      obtain ⟨_, _, _, hrounds, -⟩ := follow_succ hlinks hfollow
      cases hrounds
  | succ rounds ih =>
    intro parent now kinds hfollow hnow
    cases parent with
    | zero => exact ⟨now, by simp [takeParents, parentsOf], rfl, by simp [parentsOf]⟩
    | succ position =>
      obtain ⟨rounds', kind, parent, hrounds, hat, hrest, hforward⟩ :=
        follow_succ hlinks hfollow
      cases hrounds
      have hparents : parentsOf events (rounds + 1) (position + 1)
          = (position + 1, kind) :: parentsOf events rounds parent := by
        rw [parentsOf, hat]
      rw [hparents] at hnow ⊢
      have hhere : now[position + 1]? = some (.NodeStart kind parent) :=
        (hnow _ (.head _)).trans hat
      have hbehind : ∀ pos ∈ (parentsOf events rounds parent).map Prod.fst,
          position + 1 < pos := by
        intro pos hpos
        obtain ⟨hpositive, hgo⟩ := (mem_parentsOf hlinks rounds parent hrest).1 hpos
        exact Nat.lt_of_lt_of_le (hforward hpositive) (le_of_links hlinks hgo)
      obtain ⟨now', htake, hlength, hafter⟩ := ih parent (now.set (position + 1) .none)
        (kinds ++ [kind]) hrest (fun pos hpos => by
          rw [List.getElem?_set_ne (Nat.ne_of_lt (hbehind pos hpos))]
          exact hnow pos (.tail _ hpos))
      refine ⟨now', ?_, by rw [hlength, List.length_set], ?_⟩
      · unfold takeParents
        rw [hhere]
        simp only []
        rw [htake]
        simp
      · intro pos
        simp only [List.map_cons, List.mem_cons]
        rw [hafter pos]
        by_cases hpos : pos ∈ (parentsOf events rounds parent).map Prod.fst
        · simp [hpos]
        · by_cases heq : position + 1 = pos
          · subst heq
            simp [List.getElem?_set_self (List.getElem?_eq_some_iff.1 hhere).1]
          · rw [List.getElem?_set_ne heq]
            simp [hpos, Ne.symm heq]

/-! ## §3. The loop over the events -/

/-- The builder behind `i` events: its trees, and ahead of it the events as they were, save the
    starts that were taken. -/
structure Follows (events : List MarkEvent) (i : Nat) (b : LuaTreeBuilder) (f : Forest) :
    Prop where
  shows : Shows b.greenBuilder f
  length_eq : b.events.length = events.length
  ahead : ∀ pos, i ≤ pos →
    b.events[pos]? = if taken events i pos then some .none else events[pos]?

variable {i : Nat} {b : LuaTreeBuilder} {f : Forest}

/-- An event that takes nothing is passed. -/
theorem Follows.pass (hfollows : Follows events i b f)
    (htakes : ∀ pos, takes events i pos = true → taken events i pos = true)
    {b' : LuaGreenNodeBuilder} {f' : Forest} (hshows : Shows b' f') :
    Follows events (i + 1) ⟨b.events.set i .none, b'⟩ f' where
  shows := hshows
  length_eq := by rw [List.length_set, hfollows.length_eq]
  ahead := by
    intro pos hpos
    have hne : i ≠ pos := by omega
    have htaken : taken events (i + 1) pos = taken events i pos := by
      rw [taken_succ]
      cases htake : takes events i pos with
      | false => rw [Bool.or_false]
      | true => rw [htakes pos htake, Bool.true_or]
    show (b.events.set i .none)[pos]? = _
    rw [List.getElem?_set_ne hne, hfollows.ahead pos (by omega), htaken]

theorem takes_of_not_start {i pos : Nat} {event : MarkEvent} (hi : events[i]? = some event)
    (hevent : ∀ kind parent, event ≠ .NodeStart kind parent) : takes events i pos = false := by
  unfold takes
  rw [hi]
  cases event with
  | NodeStart kind parent => exact absurd rfl (hevent kind parent)
  | EatToken _ _ => rfl
  | NodeEnd => rfl
  | Trivia => rfl

theorem shows_startNodes {b : LuaGreenNodeBuilder} (hshows : Shows b f)
    (kinds : List LuaSyntaxKind) :
    Shows (kinds.foldl LuaGreenNodeBuilder.startNode b) (kinds.foldl Forest.startNode f) := by
  induction kinds generalizing b f with
  | nil => exact hshows
  | cons kind kinds ih => exact ih (shows_startNode hshows kind)

section

variable (hlinks : LinksOk events) (hfollows : Follows events i b f)
include hlinks hfollows

/-- A start that was not taken takes its chain. -/
theorem follows_start
    {kind : LuaSyntaxKind} {parent : Nat} (hi : events[i]? = some (.NodeStart kind parent))
    (hkind : kind ≠ .None) (htaken : taken events i i = false) :
    ∃ b', b.step i = some b' ∧ Follows events (i + 1) b'
      (((parentsOf events (events.length + 1) parent).map Prod.snd |>.cons kind).reverse.foldl
        Forest.startNode f) := by
  have hhere : b.events[i]? = some (.NodeStart kind parent) := by
    rw [hfollows.ahead i (Nat.le_refl i), htaken]
    exact hi
  have hmem : ∀ pos, pos ∈ (parentsOf events (events.length + 1) parent).map Prod.fst
      ↔ takes events i pos = true := by
    intro pos
    unfold takes
    rw [hi]
    simp [hkind]
  -- nothing of the chain was taken before: then this start would have been too
  have hfree : ∀ pos, takes events i pos = true → taken events i pos = false := by
    intro pos hpos
    rw [Bool.eq_false_iff]
    intro hpos'
    obtain ⟨j, hj, hjpos⟩ := taken_iff.1 hpos'
    have hji := takes_earlier hlinks hj hpos hjpos
    rw [taken_iff.2 ⟨j, hj, hji⟩] at htaken
    cases htaken
  obtain ⟨now', htake, hlength, hafter⟩ := takeParents_eq hlinks (events.length + 1) parent
    (b.events.set i .none) [kind] (follow_first hi) (fun pos hpos => by
      have hlt := lt_of_takes hlinks ((hmem pos).1 hpos)
      rw [List.getElem?_set_ne (Nat.ne_of_lt hlt), hfollows.ahead pos (Nat.le_of_lt hlt),
        hfree pos ((hmem pos).1 hpos)]
      rfl)
  refine ⟨⟨now', _⟩, ?_, shows_startNodes hfollows.shows _, ?_, ?_⟩
  · unfold step
    rw [hhere]
    cases kind with
    | None => exact absurd rfl hkind
    | _ =>
      simp only [List.length_set, hfollows.length_eq]
      rw [htake]
      rfl
  · rw [hlength, List.length_set, hfollows.length_eq]
  · intro pos hpos
    have hne : i ≠ pos := by omega
    show now'[pos]? = _
    rw [hafter pos, List.getElem?_set_ne hne, hfollows.ahead pos (by omega), taken_succ]
    by_cases hchain : pos ∈ (parentsOf events (events.length + 1) parent).map Prod.fst
    · simp [hchain, (hmem pos).1 hchain]
    · have htakes : takes events i pos = false := by
        rw [Bool.eq_false_iff]
        exact fun h => hchain ((hmem pos).2 h)
      simp [hchain, htakes]

/-- A start that was taken, or that opens nothing, is passed. -/
theorem follows_none
    {kind : LuaSyntaxKind} {parent : Nat} (hi : events[i]? = some (.NodeStart kind parent))
    (hnone : kind = .None ∨ taken events i i = true) :
    ∃ b', b.step i = some b' ∧ Follows events (i + 1) b' f := by
  have hhere : ∃ parent', b.events[i]? = some (.NodeStart .None parent') := by
    rw [hfollows.ahead i (Nat.le_refl i)]
    cases htaken : taken events i i with
    | true => exact ⟨0, rfl⟩
    | false =>
      rcases hnone with rfl | htaken'
      · exact ⟨parent, hi⟩
      · rw [htaken] at htaken'
        cases htaken'
  obtain ⟨parent', hhere⟩ := hhere
  refine ⟨⟨b.events.set i .none, b.greenBuilder⟩, by rw [step, hhere], ?_⟩
  apply hfollows.pass _ hfollows.shows
  intro pos hpos
  rcases hnone with rfl | htaken
  · obtain ⟨⟨kind, _, hkind, hne⟩, -⟩ := (takes_iff hlinks).1 hpos
    rw [hi] at hkind
    cases hkind
    exact absurd rfl hne
  · obtain ⟨j, hj, hji⟩ := taken_iff.1 htaken
    exact taken_iff.2 ⟨j, hj, takes_trans hlinks hji hpos⟩

/-- **What the loop does at an event is what `opened` says.** -/
theorem follows_step (hlt : i < events.length) :
    Option.Rel (Follows events (i + 1)) (b.step i) (f.calls (opened events i)) := by
  have hi : events[i]? = some events[i] := List.getElem?_eq_getElem hlt
  generalize events[i] = event at hi
  -- no start is left where another event stands
  have htaken : ∀ {event'}, events[i]? = some event' →
      (∀ kind parent, event' ≠ .NodeStart kind parent) →
      b.events[i]? = some event' ∧
      ∀ pos, takes events i pos = true → taken events i pos = true := by
    intro event' hi hevent
    have hnot : taken events i i = false := by
      rw [Bool.eq_false_iff]
      intro htaken
      obtain ⟨j, _, hji⟩ := taken_iff.1 htaken
      obtain ⟨_, hprev, hlast⟩ := TransGen.tail'_iff.1 ((takes_iff hlinks).1 hji).2
      have hstart := hlinks.start _ _ hlast
      rw [hi] at hstart
      cases event' with
      | NodeStart kind parent => exact absurd rfl (hevent kind parent)
      | EatToken _ _ => cases hstart
      | NodeEnd => cases hstart
      | Trivia => cases hstart
    refine ⟨?_, fun pos hpos => ?_⟩
    · rw [hfollows.ahead i (Nat.le_refl i), hnot]
      exact hi
    · rw [takes_of_not_start hi hevent] at hpos
      cases hpos
  unfold opened
  rw [hi]
  cases event with
  | NodeStart kind parent =>
    by_cases hnone : kind = .None ∨ taken events i i = true
    · obtain ⟨b', hstep, hfollows'⟩ := follows_none hlinks hfollows hi hnone
      simp only [if_pos hnone]
      rw [hstep]
      exact .some hfollows'
    · rw [not_or, Bool.not_eq_true] at hnone
      obtain ⟨b', hstep, hfollows'⟩ := follows_start hlinks hfollows hi hnone.1 hnone.2
      have hopen : ¬ (kind = .None ∨ taken events i i = true) := by simp [hnone]
      simp only [if_neg hopen]
      rw [hstep, Forest.calls_startNodes]
      exact .some hfollows'
  | EatToken kind range =>
    obtain ⟨hhere, htakes⟩ := htaken hi (fun _ _ h => by cases h)
    rw [step, hhere]
    exact .some (hfollows.pass htakes (shows_token hfollows.shows kind range))
  | NodeEnd =>
    obtain ⟨hhere, htakes⟩ := htaken hi (fun _ _ h => by cases h)
    rw [step, hhere]
    show Option.Rel _ (b.greenBuilder.finishNode.bind _) ((f.finishNode).bind some)
    rcases rel_cases (shows_finishNode hfollows.shows) with
      ⟨hold, hnew⟩ | ⟨b', f', hold, hnew, hshows⟩
    · rw [hold, hnew]
      exact .none
    · rw [hold, hnew]
      exact .some (hfollows.pass htakes hshows)
  | Trivia =>
    obtain ⟨hhere, htakes⟩ := htaken hi (fun _ _ h => by cases h)
    rw [step, hhere]
    exact .some (hfollows.pass htakes hfollows.shows)

end

/-- Behind the first `n` events. -/
theorem follows_run (hlinks : LinksOk events) :
    ∀ n, n ≤ events.length →
      Option.Rel (Follows events n)
        ((List.range n).foldlM step
          { new events with greenBuilder := .startNode .new .Chunk })
        (Forest.calls ⟨[(.Chunk, 0)], []⟩ ((List.range n).flatMap (opened events))) := by
  intro n
  induction n with
  | zero =>
    intro _
    refine .some ⟨shows_startNode shows_new .Chunk, rfl, fun pos _ => rfl⟩
  | succ n ih =>
    intro hn
    rw [List.range_succ, List.foldlM_append, List.flatMap_append, Forest.calls_append]
    rcases rel_cases (ih (Nat.le_of_succ_le hn)) with ⟨hold, hnew⟩ | ⟨b, f, hold, hnew, hfollows⟩
    · rw [hold, hnew]
      exact .none
    · rw [hold, hnew]
      have hstep := follows_step hlinks hfollows hn
      simp only [List.flatMap_cons, List.flatMap_nil, List.append_nil, List.foldlM_cons,
        List.foldlM_nil, bind_pure]
      exact hstep

/-- **The tree of a list of events is the first that its bracketing builds.** -/
theorem buildTree_eq (hlinks : LinksOk events) :
    buildTree events = (Forest.build (bracketing events)).map fun f => rootCalls f.children := by
  have hrun := follows_run hlinks events.length le_rfl
  unfold buildTree build Forest.build bracketing
  show ((((List.range events.length).foldlM step
    { new events with greenBuilder := .startNode .new .Chunk }).bind _).bind _) = _
  rcases rel_cases hrun with ⟨hold, hnew⟩ | ⟨b, f, hold, hnew, hfollows⟩
  · rw [hold, hnew]
    rfl
  · rw [hold, hnew]
    rcases rel_cases (shows_finishNode hfollows.shows) with
      ⟨hold', hnew'⟩ | ⟨b', f', hold', hnew', hshows⟩
    · simp [hold', hnew']
    · simp [hold', hnew', finish_eq hshows]

end

end GluaLs.Syntax
