/-
  GluaLs.Syntax.TreeBuilt — the tree that a list of events becomes.

  Finishing a node is `closeNode` on the children behind its start (`finishNode_eq`), as long
  as a Block does not reach over the start of its parent (`Covered`).  So a balanced list
  becomes the tree of its bracketing with trivia moved (`buildTree_open`).  The builder passes
  over the end of a node while nothing was eaten yet: then the node stays open
  (`buildTree_early`).
-/
import GluaLs.Syntax.EventForest
import GluaLs.Syntax.GrammarStat

namespace GluaLs.Syntax

open Green Relation Green

/-! ## §1. Finishing a node -/

section

variable {α : Type} (trivia : α → Bool)

theorem pullStart_append (front back : List α) :
    pullStart trivia (front ++ back) front.length = (front.rdropWhile trivia).length := by
  induction front using List.reverseRecOn generalizing back with
  | nil => rfl
  | append_singleton front a ih =>
    have hat : (front ++ [a] ++ back)[front.length]? = some a := by
      rw [List.append_assoc, List.getElem?_append_right le_rfl, Nat.sub_self]
      rfl
    rw [List.length_append, List.length_singleton, pullStart, hat, List.rdropWhile_concat]
    simp only [Option.any_some]
    split
    · rw [List.append_assoc]
      exact ih ([a] ++ back)
    · rw [List.length_append, List.length_singleton]

theorem trimStart_append (front back : List α) :
    trimStart trivia (front ++ back) front.length
      = front.length + (back.takeWhile trivia).length := by
  rw [trimStart, List.drop_left]

/-- Behind a child that stays, `child_end` stops at the last one that is no trivia. -/
theorem trimEnd_append (front : List α) (a : α) (inner back : List α) :
    trimEnd trivia (front ++ a :: (inner ++ back)) front.length (front.length + inner.length)
      = front.length + (inner.rdropWhile trivia).length := by
  induction inner using List.reverseRecOn generalizing back with
  | nil =>
    rw [List.rdropWhile_nil, List.length_nil, Nat.add_zero]
    cases hlen : front.length with
    | zero => rfl
    | succ n =>
      rw [trimEnd, if_neg]
      exact fun h => Nat.lt_irrefl _ h.1
  | append_singleton inner b ih =>
    have hat :
        (front ++ a :: (inner ++ [b] ++ back))[front.length + inner.length + 1]? = some b := by
      rw [List.getElem?_append_right (by omega)]
      have hidx : front.length + inner.length + 1 - front.length = inner.length + 1 := by omega
      rw [hidx, List.getElem?_cons_succ, List.append_assoc,
        List.getElem?_append_right le_rfl, Nat.sub_self]
      rfl
    rw [List.length_append, List.length_singleton, ← Nat.add_assoc, trimEnd, hat,
      List.rdropWhile_concat]
    simp only [Option.any_some]
    by_cases hb : trivia b = true
    · rw [if_pos ⟨by omega, hb⟩, if_pos hb, List.append_assoc inner [b] back]
      exact ih ([b] ++ back)
    · rw [if_neg (fun h => hb h.2), if_neg hb, List.length_append, List.length_singleton,
        Nat.add_assoc]

/-- Where there is nothing left to let go of. -/
theorem trimEnd_of_le (children : List α) {start stop : Nat} (hle : stop ≤ start) :
    trimEnd trivia children start stop = stop := by
  cases stop with
  | zero => rfl
  | succ stop =>
    rw [trimEnd, if_neg]
    exact fun h => Nat.not_lt_of_le hle h.1

theorem rdropWhile_cons_neg {a : α} (ha : ¬ trivia a = true) (l : List α) :
    (a :: l).rdropWhile trivia = a :: l.rdropWhile trivia := by
  induction l using List.reverseRecOn with
  | nil => rw [List.rdropWhile_singleton, if_neg ha, List.rdropWhile_nil]
  | append_singleton l b ih =>
    rw [← List.cons_append, List.rdropWhile_concat, List.rdropWhile_concat, ih]
    split <;> rfl

/-- What stays between the trivia at the two ends. -/
theorem trim_both (front inner : List α) (hpos : 0 < front.length + inner.length) :
    trimEnd trivia (front ++ inner) (front.length + (inner.takeWhile trivia).length)
        ((front ++ inner).length - 1) + 1 = front.length + (inner.takeWhile trivia).length
        + ((inner.dropWhile trivia).rdropWhile trivia).length := by
  have hsplit := List.takeWhile_append_dropWhile (p := trivia) (l := inner)
  have hlength := congrArg List.length hsplit
  rw [List.length_append] at hlength ⊢
  cases hrest : inner.dropWhile trivia with
  | nil =>
    rw [hrest, List.length_nil] at hlength
    rw [trimEnd_of_le trivia _ (by omega), List.rdropWhile_nil, List.length_nil]
    omega
  | cons a rest =>
    have ha : ¬ trivia a = true := by
      have hhead := List.head?_dropWhile_not trivia inner
      rw [hrest] at hhead
      simpa using hhead
    rw [hrest, List.length_cons] at hlength
    have hends := trimEnd_append trivia (front ++ inner.takeWhile trivia) a rest []
    rw [List.append_nil, ← hrest, List.append_assoc, hsplit, List.length_append] at hends
    have hstop : front.length + inner.length - 1
        = front.length + (inner.takeWhile trivia).length + rest.length := by omega
    rw [hstop, hends, rdropWhile_cons_neg trivia ha, List.length_cons]
    omega

end

/-- A node is finished where `ownChildren` cuts. -/
theorem finishNode_cut (parents : List (LuaSyntaxKind × Nat)) {kind : LuaSyntaxKind}
    {first childStart childEnd : Nat} {children : List Green} (front own back : List Green)
    (hne : children ≠ []) (hchildren : children = front ++ (own ++ back))
    (hown : ownChildren isTrivia isTriviaWhitespace kind first children
      = some (childStart, childEnd))
    (hstart : childStart = front.length) (hend : childEnd + 1 = front.length + own.length) :
    Forest.finishNode ⟨(kind, first) :: parents, children⟩
      = some ⟨parents, front ++ .node kind own :: back⟩ := by
  have hlength : children.length = front.length + (own.length + back.length) := by
    rw [hchildren, List.length_append, List.length_append]
  have htake : children.take (childEnd + 1) = front ++ own := by
    rw [hend, hchildren, ← List.append_assoc, ← List.length_append, List.take_left]
  have hdrop : children.drop (childEnd + 1) = back := by
    rw [hend, hchildren, ← List.append_assoc, ← List.length_append, List.drop_left]
  have hfront : children.take childStart = front := by
    rw [hstart, hchildren, List.take_left]
  have hdrain : drain children childStart childEnd
      = some (own, children.take childStart ++ children.drop (childEnd + 1)) := by
    rw [drain, if_pos ⟨by omega, by omega⟩, htake, hstart, List.drop_left]
  have hempty : children.isEmpty = false := by
    cases children with
    | nil => exact absurd rfl hne
    | cons => rfl
  simp only [Forest.finishNode, hempty, Bool.false_eq_true, if_false, hown, hdrain,
    Option.bind_eq_bind, Option.bind_some]
  rw [putNode_eq children childStart childEnd (by omega) (by omega), hfront, hdrop]

/-- **Finishing a node moves trivia as `closeNode` says.** -/
theorem finishNode_eq (parents : List (LuaSyntaxKind × Nat)) (kind : LuaSyntaxKind)
    (front inner : List Green) (hne : front ++ inner ≠ []) :
    Forest.finishNode ⟨(kind, front.length) :: parents, front ++ inner⟩
      = some ⟨parents, closeNode kind front inner⟩ := by
  have hpos : 0 < front.length + inner.length := by
    rw [← List.length_append]
    exact List.length_pos_of_ne_nil hne
  unfold closeNode
  split
  · next hpulls =>
      have hsplit := List.rdropWhile_append_rtakeWhile (p := isTrivia) (l := front)
      have hlength := congrArg List.length hsplit
      rw [List.length_append] at hlength
      apply finishNode_cut parents (front.rdropWhile isTrivia)
        (front.rtakeWhile isTrivia ++ inner) [] hne
      · rw [List.append_nil, ← List.append_assoc, hsplit]
      · rw [ownChildren, if_pos hpulls, if_neg (by simp), pullStart_append]
      · rfl
      · rw [List.length_append, List.length_append]
        omega
  · next hpushes =>
      set skipped := if keepsComments kind then isTriviaWhitespace else isTrivia
        with hskipped
      have hown : ownChildren isTrivia isTriviaWhitespace kind front.length
          (front ++ inner) = some (front.length + (inner.takeWhile skipped).length,
            trimEnd skipped (front ++ inner) (front.length + (inner.takeWhile skipped).length)
              ((front ++ inner).length - 1)) := by
        rw [ownChildren, if_neg hpushes, ← hskipped, ← trimStart_append]
      have hcut := finishNode_cut parents (front ++ inner.takeWhile skipped)
        ((inner.dropWhile skipped).rdropWhile skipped)
        ((inner.dropWhile skipped).rtakeWhile skipped) hne
        (by rw [List.rdropWhile_append_rtakeWhile, List.append_assoc,
          List.takeWhile_append_dropWhile])
        hown List.length_append.symm
        (by rw [trim_both skipped front inner hpos, List.length_append])
      rw [hcut, List.append_assoc]

/-! ## §2. The trees of a balanced list -/

mutual

/-- A Block finds a child of its parent in front of it that is no trivia; `seen` says whether
    one was there before. -/
def coveredNode (seen : Bool) : Green → Prop
  | .token _ _ => True
  | .node kind own => (pullsTrivia kind = true → seen = true) ∧ Covered false own
termination_by structural g => g

/-- So do the Blocks in a list of siblings; the children of the root need none. -/
def Covered : Bool → List Green → Prop
  | _, [] => True
  | seen, g :: gs => coveredNode seen g ∧ Covered (seen || !g.isTrivia) gs
termination_by structural _ gs => gs

end

mutual

/-- The first leaf of a tree is an empty node. -/
def startsEmpty : Green → Bool
  | .token _ _ => false
  | .node _ own => own.isEmpty || anyStartsEmpty own
termination_by structural g => g

def anyStartsEmpty : List Green → Bool
  | [] => false
  | g :: _ => startsEmpty g
termination_by structural gs => gs

end

theorem rdropWhile_append_of_mem {α : Type} (trivia : α → Bool) (base acc : List α)
    (hsome : ∃ a ∈ acc, trivia a = false) :
    (base ++ acc).rdropWhile trivia = base ++ acc.rdropWhile trivia
      ∧ (base ++ acc).rtakeWhile trivia = acc.rtakeWhile trivia := by
  have hdrop : ¬ (acc.reverse.dropWhile trivia).isEmpty = true := by simpa using hsome
  have htake : (acc.reverse.takeWhile trivia).length ≠ acc.reverse.length := by
    have hparts := congrArg List.length (acc.reverse.takeWhile_append_dropWhile (p := trivia))
    rw [List.length_append] at hparts
    rw [List.isEmpty_iff_length_eq_zero] at hdrop
    omega
  unfold List.rdropWhile List.rtakeWhile
  rw [List.reverse_append, List.dropWhile_append, if_neg hdrop, List.takeWhile_append,
    if_neg htake, List.reverse_append, List.reverse_reverse]
  exact ⟨rfl, rfl⟩

/-- What a parent has in front of `acc`, a node among its children does not reach. -/
theorem closeNode_append (kind : LuaSyntaxKind) (base acc inner : List Green)
    (hreach : pullsTrivia kind = true → base = [] ∨ ∃ g ∈ acc, g.isTrivia = false) :
    closeNode kind (base ++ acc) inner = base ++ closeNode kind acc inner := by
  unfold closeNode
  split
  · next hpulls =>
      rcases hreach hpulls with rfl | hsome
      · rfl
      · obtain ⟨hdrop, htake⟩ := rdropWhile_append_of_mem isTrivia base acc hsome
        rw [hdrop, htake, List.append_assoc]
  · exact List.append_assoc base acc _

theorem closeNode_ne_nil (kind : LuaSyntaxKind) (acc inner : List Green) :
    closeNode kind acc inner ≠ [] := by
  obtain ⟨kept, pulled, lead, mid, trail, hclose, -⟩ := closeNode_cut acc inner kind
  rw [hclose]
  simp

theorem place_ne_nil (acc : List Green) (g : Green) : place acc g ≠ [] := by
  cases g with
  | token kind range => simp [place]
  | node kind own => exact closeNode_ne_nil kind acc _

theorem placeAll_ne_nil (gs acc : List Green) (h : acc ≠ [] ∨ gs ≠ []) : placeAll acc gs ≠ [] := by
  induction gs generalizing acc with
  | nil =>
    rcases h with h | h
    · exact h
    · exact absurd rfl h
  | cons g gs ih => exact ih _ (.inl (place_ne_nil acc g))

/-- A child that is no trivia is still there when the next is put behind it. -/
theorem place_solid (acc : List Green) (g : Green)
    (hsome : (∃ g' ∈ acc, g'.isTrivia = false) ∨ g.isTrivia = false) :
    ∃ g' ∈ place acc g, g'.isTrivia = false := by
  cases g with
  | token kind range =>
    rcases hsome with ⟨g', hg', hsolid⟩ | hsolid
    · exact ⟨g', List.mem_append_left _ hg', hsolid⟩
    · exact ⟨_, List.mem_append_right _ (.head _), hsolid⟩
  | node kind own =>
    obtain ⟨kept, pulled, lead, mid, trail, hclose, hacc, -, -, hpulled, -⟩ :=
      closeNode_cut acc (placeAll [] own) kind
    rw [place, hclose]
    rcases hsome with ⟨g', hg', hsolid⟩ | hsolid
    · rw [hacc] at hg'
      rcases List.mem_append.1 hg' with hg' | hg'
      · exact ⟨g', List.mem_append_left _ hg', hsolid⟩
      · rw [hpulled g' hg'] at hsolid
        cases hsolid
    · refine ⟨.node kind (pulled ++ mid), ?_, hsolid⟩
      simp

/-- **The builder puts the trees of a balanced list behind the children it has.** -/
theorem calls_callsAll (gs : List Green) :
    ∀ (parents : List (LuaSyntaxKind × Nat)) (base acc : List Green) (seen : Bool),
      Covered seen gs → (seen = true → base = [] ∨ ∃ g ∈ acc, g.isTrivia = false) →
      (base ++ acc ≠ [] ∨ anyStartsEmpty gs = false) →
        (⟨parents, base ++ acc⟩ : Forest).calls (callsAll gs)
          = some ⟨parents, base ++ placeAll acc gs⟩ := by
  induction gs using forest_induction with
  | nil => intro parents base acc seen _ _ _; rfl
  | token kind range gs ih =>
    intro parents base acc seen hcovered hseen _
    show (⟨parents, base ++ acc ++ [.token kind range]⟩ : Forest).calls (callsAll gs) = _
    rw [List.append_assoc]
    apply ih parents base _ _ hcovered.2
    · intro hsolid
      rw [Bool.or_eq_true] at hsolid
      rcases hsolid with hsolid | hsolid
      · exact (hseen hsolid).imp_right fun h => place_solid acc (.token kind range) (.inl h)
      · exact .inr (place_solid acc (.token kind range) (.inr (by simpa using hsolid)))
    · exact .inl (by simp)
  | node kind own gs ihOwn ih =>
    intro parents base acc seen hcovered hseen hopen
    obtain ⟨⟨hpulls, hown⟩, hrest⟩ := hcovered
    have hopen' : base ++ acc ≠ [] ∨ (own ≠ [] ∧ anyStartsEmpty own = false) := by
      apply hopen.imp_right
      intro hfirst
      simpa [anyStartsEmpty, startsEmpty] using hfirst
    -- the children, behind all that is there
    have hinner := ihOwn ((kind, (base ++ acc).length) :: parents) (base ++ acc) [] false hown
      (fun h => by cases h)
      (by rw [List.append_nil]; exact hopen'.imp_right And.right)
    rw [List.append_nil] at hinner
    have hne : base ++ acc ++ placeAll [] own ≠ [] := by
      intro hnil
      rcases hopen' with h | h
      · exact h (List.append_eq_nil_iff.1 hnil).1
      · exact placeAll_ne_nil own [] (.inr h.1) (List.append_eq_nil_iff.1 hnil).2
    have hfinish := finishNode_eq parents kind (base ++ acc) (placeAll [] own) hne
    rw [closeNode_append kind base acc _ fun h => hseen (hpulls h)] at hfinish
    have hgo := ih parents base (closeNode kind acc (placeAll [] own)) _ hrest (fun hsolid => by
        rw [Bool.or_eq_true] at hsolid
        rcases hsolid with hsolid | hsolid
        · exact (hseen hsolid).imp_right fun h => place_solid acc (.node kind own) (.inl h)
        · exact .inr (place_solid acc (.node kind own) (.inr (by simpa using hsolid))))
      (.inl (by simp [closeNode_ne_nil]))
    have hcalls : callsAll (.node kind own :: gs)
        = .startNode kind :: (callsAll own ++ .finishNode :: callsAll gs) := by
      simp [callsAll, calls]
    rw [hcalls, Forest.calls_cons, Forest.call_startNode, Option.bind_some, Forest.startNode,
      Forest.calls_append, hinner, Option.bind_some, Forest.calls_cons, Forest.call_finishNode,
      hfinish, Option.bind_some, hgo]
    rfl

/-! ## §3. A list without an early end -/

section

variable {events : List MarkEvent} {gs : List Green}

theorem filterMap_single {α β : Type} (f : α → Option β) (a : α) :
    [a].filterMap f = (f a).toList := by
  rw [List.filterMap_cons]
  cases f a <;> rfl

theorem flatMap_range {α β : Type} (f : α → Option β) (l : List α) :
    (List.range l.length).flatMap (fun i => (l[i]?.bind f).toList) = l.filterMap f := by
  induction l with
  | nil => rfl
  | cons a l ih =>
    rw [List.length_cons, List.range_succ_eq_map, List.flatMap_cons, List.flatMap_map]
    simp only [List.getElem?_cons_succ, Nat.succ_eq_add_one]
    rw [ih, List.filterMap_cons]
    show (f a).toList ++ _ = _
    cases f a <;> rfl

/-- What a call tells, told by the event it comes from; a node start tells nothing. -/
def toldBy {β : Type} (tell : RowanCall → Option β) : MarkEvent → Option β
  | .NodeEnd => tell .finishNode
  | .EatToken kind range => tell (.token kind range)
  | _ => none

theorem filterMap_bracketing {β : Type} (tell : RowanCall → Option β)
    (hstart : ∀ kind, tell (.startNode kind) = none) (events : List MarkEvent) :
    (bracketing events).filterMap tell = events.filterMap (toldBy tell) := by
  rw [← flatMap_range (toldBy tell), bracketing, List.filterMap_flatMap]
  apply List.flatMap_congr
  intro i _
  unfold opened
  cases events[i]? with
  | none => rfl
  | some event =>
    cases event with
    | NodeStart kind parent =>
      simp only []
      split
      · rfl
      · rw [List.filterMap_map]
        exact List.filterMap_eq_nil_iff.2 fun kind _ => hstart kind
    | EatToken kind range => exact filterMap_single tell _
    | NodeEnd => exact filterMap_single tell _
    | Trivia => rfl

/-- The token of a call. -/
def tokenOf : RowanCall → Option LuaTokenData
  | .token kind range => some ⟨kind, range⟩
  | _ => none

theorem filterMap_callsAll (gs : List Green) : (callsAll gs).filterMap tokenOf = tokensAll gs := by
  induction gs using forest_induction with
  | nil => rfl
  | token kind range gs ih => exact congrArg (_ :: ·) ih
  | node kind own gs ihOwn ih =>
    rw [callsAll, calls, List.filterMap_append, ih]
    show (callsAll own ++ [RowanCall.finishNode]).filterMap tokenOf ++ _ = tokensAll own ++ _
    rw [List.filterMap_append, ihOwn]
    show tokensAll own ++ [] ++ _ = _
    rw [List.append_nil]

/-- The trees of a balanced list hold the tokens that were eaten. -/
theorem tokensAll_eq (hbalanced : bracketing events = callsAll gs) :
    tokensAll gs = eatenBy events := by
  rw [← filterMap_callsAll, ← hbalanced, filterMap_bracketing tokenOf fun _ => rfl]
  apply congrArg (List.filterMap · events)
  funext event
  cases event <;> rfl

def closingCall : RowanCall → Option Bool
  | .startNode _ => none
  | .token _ _ => some false
  | .finishNode => some true

theorem findSome?_callsAll (gs : List Green) : ∀ rest, gs ≠ [] →
    (callsAll gs ++ rest).findSome? closingCall = some (anyStartsEmpty gs) := by
  induction gs using forest_induction with
  | nil => exact fun _ h => absurd rfl h
  | token kind range gs ih => intro rest _; rfl
  | node kind own gs ihOwn _ =>
    intro rest _
    cases own with
    | nil => rfl
    | cons g own =>
      have hown := ihOwn (.finishNode :: (callsAll gs ++ rest)) (List.cons_ne_nil g own)
      rw [callsAll, calls, List.cons_append, List.append_assoc, List.cons_append, List.append_assoc]
      exact hown

/-- A node is closed before the first token is eaten where the first leaf is an empty node. -/
theorem closesEarly_eq (hbalanced : bracketing events = callsAll gs) :
    closesEarly events = anyStartsEmpty gs := by
  have htold : closing = toldBy closingCall := by
    funext event
    cases event <;> rfl
  have hfirst : events.findSome? closing = (callsAll gs).findSome? closingCall := by
    rw [htold, ← List.head?_filterMap, ← filterMap_bracketing closingCall fun _ => rfl, hbalanced,
      List.head?_filterMap]
  unfold closesEarly
  rw [hfirst]
  cases gs with
  | nil => rfl
  | cons g gs =>
    have hfound := findSome?_callsAll (g :: gs) [] (List.cons_ne_nil g gs)
    rw [List.append_nil] at hfound
    rw [hfound]
    cases anyStartsEmpty (g :: gs) <;> rfl

/-- **A balanced list becomes the tree of its bracketing, with trivia moved.** -/
theorem buildTree_open (hlinks : LinksOk events) (hbalanced : bracketing events = callsAll gs)
    (hcovered : Covered true gs) (hopen : anyStartsEmpty gs = false) :
    buildTree events = some (chunkOf gs).calls := by
  have hrun := calls_callsAll gs [(.Chunk, 0)] [] [] true hcovered (fun _ => .inl rfl)
    (.inr hopen)
  rw [buildTree_eq hlinks, hbalanced, Forest.build]
  rw [List.nil_append, List.nil_append] at hrun
  rw [hrun, Option.bind_eq_bind, Option.bind_some]
  cases hplaced : placeAll [] gs with
  | nil =>
    rw [chunkOf, hplaced]
    rfl
  | cons g rest =>
    have hfinish := finishNode_eq [] .Chunk [] (g :: rest) (List.cons_ne_nil _ _)
    rw [List.length_nil, List.nil_append] at hfinish
    rw [hfinish, chunkOf, hplaced]
    rfl

/-! ## §4. A list with an early end -/

/-- Finishing a node does not make an empty node the first leaf. -/
theorem startsEmpty_finishNode {f f' : Forest} (hfinish : f.finishNode = some f')
    (hf : anyStartsEmpty f.children = false) : anyStartsEmpty f'.children = false := by
  unfold Forest.finishNode at hfinish
  split at hfinish
  · cases hfinish
    exact hf
  · split at hfinish
    · cases hfinish
      exact hf
    · next kind first parents _ hne =>
        cases hown : ownChildren isTrivia isTriviaWhitespace kind first f.children with
        | none => rw [hown] at hfinish; cases hfinish
        | some bounds =>
          rw [hown] at hfinish
          simp only [Option.bind_eq_bind, Option.bind_some] at hfinish
          unfold drain at hfinish
          split at hfinish
          · next hrange =>
              cases hfinish
              show anyStartsEmpty (putNode _ _ _ _ _) = false
              rw [putNode_eq _ _ _ hrange.1 hrange.2]
              cases hchildren : f.children with
              | nil => rw [hchildren] at hne; exact absurd rfl hne
              | cons g rest =>
                rw [hchildren] at hf
                cases hstart : bounds.1 with
                | zero =>
                  -- the node takes in the first child
                  simp [anyStartsEmpty, startsEmpty, List.take_succ_cons]
                  exact hf
                | succ start => exact hf
          · cases hfinish

theorem startsEmpty_call {f f' : Forest} {c : RowanCall} (hcall : f.call c = some f')
    (hf : anyStartsEmpty f.children = false) : anyStartsEmpty f'.children = false := by
  cases c with
  | startNode kind => cases hcall; exact hf
  | token kind range =>
    cases hcall
    show anyStartsEmpty (f.children ++ [.token kind range]) = false
    cases hchildren : f.children with
    | nil => rfl
    | cons g rest => rw [hchildren] at hf; exact hf
  | finishNode => exact startsEmpty_finishNode hcall hf

theorem startsEmpty_calls (cs : List RowanCall) :
    ∀ {f f' : Forest}, f.calls cs = some f' → anyStartsEmpty f.children = false →
      anyStartsEmpty f'.children = false := by
  induction cs with
  | nil => intro f f' h hf; cases h; exact hf
  | cons c cs ih =>
    intro f f' h hf
    rw [Forest.calls_cons] at h
    obtain ⟨f'', hcall, hrest⟩ := Option.bind_eq_some_iff.1 h
    exact ih hrest (startsEmpty_call hcall hf)

/-- An empty node stays the first leaf when a node is closed around it or behind it. -/
theorem startsEmpty_closeNode (kind : LuaSyntaxKind) (acc inner : List Green)
    (hfirst : anyStartsEmpty acc = true ∨ (acc = [] ∧ (inner = [] ∨ anyStartsEmpty inner = true))) :
    anyStartsEmpty (closeNode kind acc inner) = true := by
  have hnode : ∀ own trail, own = [] ∨ anyStartsEmpty own = true →
      anyStartsEmpty (.node kind own :: trail) = true := by
    intro own trail hown
    show (own.isEmpty || anyStartsEmpty own) = true
    rcases hown with rfl | hown
    · rfl
    · rw [hown, Bool.or_true]
  obtain ⟨kept, pulled, lead, mid, trail, hclose, rfl, rfl, hone, -⟩ := closeNode_cut acc inner kind
  rw [hclose]
  cases kept with
  | cons g kept =>
    rcases hfirst with hfirst | ⟨hnil, _⟩
    · exact hfirst
    · cases hnil
  | nil =>
    cases lead with
    | cons g lead =>
      -- then nothing is pulled in, and the first child goes out
      rcases hone with rfl | hnil
      · rcases hfirst with hfirst | ⟨_, hnil | hfirst⟩
        · cases hfirst
        · cases hnil
        · exact hfirst
      · cases hnil
    | nil =>
      apply hnode
      cases pulled with
      | cons g pulled =>
        rcases hfirst with hfirst | ⟨hnil, _⟩
        · exact .inr hfirst
        · cases hnil
      | nil =>
        cases mid with
        | nil => exact .inl rfl
        | cons g mid =>
          rcases hfirst with hfirst | ⟨_, hnil | hfirst⟩
          · cases hfirst
          · cases hnil
          · exact .inr hfirst

theorem startsEmpty_placeAll (gs : List Green) :
    ∀ acc, anyStartsEmpty acc = true ∨ (acc = [] ∧ anyStartsEmpty gs = true) →
      anyStartsEmpty (placeAll acc gs) = true := by
  induction gs using forest_induction with
  | nil =>
    rintro acc (hacc | ⟨_, hnil⟩)
    · exact hacc
    · cases hnil
  | token kind range gs ih =>
    rintro acc (hacc | ⟨_, htoken⟩)
    · apply ih
      cases acc with
      | nil => cases hacc
      | cons g acc => exact .inl hacc
    · cases htoken
  | node kind own gs ihOwn ih =>
    intro acc hfirst
    apply ih
    refine .inl (startsEmpty_closeNode kind acc _ ?_)
    apply hfirst.imp_right
    rintro ⟨rfl, hnode⟩
    refine ⟨rfl, ?_⟩
    cases own with
    | nil => exact .inl rfl
    | cons g own => exact .inr (ihOwn [] (.inr ⟨rfl, hnode⟩))

/-- The calls of the builder are those of a tree, which does not begin with an empty node
    unless nothing at all was built. -/
theorem rootCalls_eq (gs : List Green) (hgs : anyStartsEmpty gs = false) :
    ∃ root, rootCalls gs = root.calls ∧ (root = .node .Chunk [] ∨ startsEmpty root = false) := by
  cases gs with
  | nil => exact ⟨.node .Chunk [], rfl, .inl rfl⟩
  | cons g gs =>
    have hwrap : startsEmpty (.node .Chunk [g]) = false := hgs
    cases g with
    | token kind range => exact ⟨.node .Chunk [.token kind range], rfl, .inr hwrap⟩
    | node kind own =>
      by_cases hkind : kind = .Chunk
      · subst hkind
        exact ⟨.node .Chunk own, rfl, .inr hgs⟩
      · refine ⟨.node .Chunk [.node kind own], ?_, .inr hwrap⟩
        cases kind <;> first | exact absurd rfl hkind | simp [rootCalls, calls, callsAll]

/-- **Behind an early end the tree is another one.** -/
theorem buildTree_early (hlinks : LinksOk events) (hbalanced : bracketing events = callsAll gs)
    (hearly : anyStartsEmpty gs = true) : buildTree events ≠ some (chunkOf gs).calls := by
  intro hbuild
  rw [buildTree_eq hlinks, hbalanced] at hbuild
  obtain ⟨f, hf, hroot⟩ := Option.map_eq_some_iff.1 hbuild
  obtain ⟨f', hcalls, hfinish⟩ := Option.bind_eq_some_iff.1 hf
  have hfirst := startsEmpty_finishNode hfinish (startsEmpty_calls _ hcalls rfl)
  obtain ⟨root, hrootCalls, hempty⟩ := rootCalls_eq f.children hfirst
  have hsame : root = chunkOf gs := calls_injective (hrootCalls.symm.trans hroot)
  have hplaced := startsEmpty_placeAll gs [] (.inr ⟨rfl, hearly⟩)
  rcases hempty with rfl | hempty
  · rw [← (node.inj hsame).2] at hplaced
    cases hplaced
  · have hchunk : startsEmpty (chunkOf gs) = true := by
      show ((placeAll [] gs).isEmpty || anyStartsEmpty (placeAll [] gs)) = true
      rw [hplaced, Bool.or_true]
    rw [hsame, hchunk] at hempty
    cases hempty

end

/-! ## §5. The tree of a parse -/

/-- **The tree of a balanced list is built in place exactly if no node is closed before the
    first token is eaten**: it is the tree of the events with trivia moved, it has the eaten
    tokens in order, and none that is no trivia is in another node than before. -/
theorem buildTree_in_place_iff (p₀ p : LuaParser) (hnew : p₀.events = [])
    (hsteps : ReflTransGen MarkerStep p₀ p) (gs : List Green)
    (hbalanced : bracketing p.events = callsAll gs) (hcovered : Covered true gs) :
    (∃ tree, buildTree p.events = some tree.calls ∧ tree = chunkOf gs
      ∧ SameBut (.node .Chunk gs) tree ∧ tree.tokens = eatenBy p.events)
        ↔ closesEarly p.events = false := by
  have hlinks := linksOk_of_steps hnew hsteps
  rw [closesEarly_eq hbalanced]
  constructor
  · rintro ⟨tree, hbuild, rfl, -⟩
    rw [Bool.eq_false_iff]
    exact fun hearly => buildTree_early hlinks hbalanced hearly hbuild
  · intro hopen
    have hsame := sameBut_chunkOf gs
    refine ⟨chunkOf gs, buildTree_open hlinks hbalanced hcovered hopen, rfl, hsame, ?_⟩
    rw [hsame.tokens]
    exact tokensAll_eq hbalanced

/-- A parser with these events behind it. -/
def parserAt (events : List MarkEvent) (markLevel : Nat) : LuaParser :=
  { LuaParser.new [] [] ⟨.Lua51, fun _ => none, false⟩ [] fun _ => false with events, markLevel }

/-- A name that turns out to be called. -/
theorem buildTree_in_place_call :
    ∃ p, ReflTransGen MarkerStep (parserAt [] 0) p ∧ eatenBy p.events
        = [⟨.TkName, ⟨0, 1⟩⟩, ⟨.TkWhitespace, ⟨1, 1⟩⟩, ⟨.TkLeftParen, ⟨2, 1⟩⟩]
      ∧ ∃ tree, buildTree p.events = some tree.calls
        ∧ tree = chunkOf [.node .CallExpr [.node .NameExpr
          [.token .TkName ⟨0, 1⟩, .token .TkWhitespace ⟨1, 1⟩], .token .TkLeftParen ⟨2, 1⟩]]
        ∧ SameBut (.node .Chunk [.node .CallExpr [.node .NameExpr
          [.token .TkName ⟨0, 1⟩, .token .TkWhitespace ⟨1, 1⟩], .token .TkLeftParen ⟨2, 1⟩]]) tree
        ∧ tree.tokens = eatenBy p.events := by
  have hname : ReflTransGen MarkerStep (parserAt [] 0) (parserAt [.NodeStart .NameExpr 0,
      .EatToken .TkName ⟨0, 1⟩, .EatToken .TkWhitespace ⟨1, 1⟩] 1) :=
    ((ReflTransGen.single (.mark .NameExpr _ rfl)).tail (.eatToken ⟨.TkName, ⟨0, 1⟩⟩ rfl)).tail
      (.eatToken ⟨.TkWhitespace, ⟨1, 1⟩⟩ rfl)
  have hcall : ReflTransGen MarkerStep (parserAt [] 0) (parserAt [.NodeStart .NameExpr 4,
      .EatToken .TkName ⟨0, 1⟩, .EatToken .TkWhitespace ⟨1, 1⟩, .NodeEnd, .NodeStart .CallExpr 0,
      .Trivia] 1) :=
    (hname.tail (.complete ⟨0⟩ _ rfl)).tail (.precede ⟨0, .NameExpr⟩ .CallExpr _ (by decide) rfl)
  have hclosed : ReflTransGen MarkerStep (parserAt [] 0) (parserAt [.NodeStart .NameExpr 4,
      .EatToken .TkName ⟨0, 1⟩, .EatToken .TkWhitespace ⟨1, 1⟩, .NodeEnd, .NodeStart .CallExpr 0,
      .Trivia, .EatToken .TkLeftParen ⟨2, 1⟩, .NodeEnd] 0) :=
    (hcall.tail (.eatToken ⟨.TkLeftParen, ⟨2, 1⟩⟩ rfl)).tail (.complete ⟨4⟩ _ rfl)
  refine ⟨_, hclosed, rfl, (buildTree_in_place_iff _ _ rfl hclosed _ rfl ?_).2 (by decide)⟩
  simp [Covered, coveredNode, pullsTrivia]

/-- An assignment without a name, closed before its sign is eaten: the sign ends up in it. -/
theorem buildTree_early_moves_token :
    ¬ ∀ (p₀ p : LuaParser) (gs : List Green), p₀.events = [] → ReflTransGen MarkerStep p₀ p →
      bracketing p.events = callsAll gs → Covered true gs →
      ∃ tree, buildTree p.events = some tree.calls ∧ SameBut (.node .Chunk gs) tree
        ∧ tree.tokens = eatenBy p.events := by
  intro h
  have hopen : ReflTransGen MarkerStep (parserAt [] 0) (parserAt [.NodeStart .Block 0,
      .NodeStart .AssignStat 0, .NodeStart .NameExpr 0] 3) :=
    ((ReflTransGen.single (.mark .Block _ rfl)).tail (.mark .AssignStat _ rfl)).tail
      (.mark .NameExpr _ rfl)
  have hclosed : ReflTransGen MarkerStep (parserAt [] 0) (parserAt [.NodeStart .Block 0,
      .NodeStart .AssignStat 0, .NodeStart .None 0, .NodeEnd, .EatToken .TkAssign ⟨0, 1⟩,
      .NodeEnd] 1) :=
    (((hopen.tail (.complete ⟨2⟩ _ rfl)).tail (.complete ⟨1⟩ _ rfl)).tail
      (.eatToken ⟨.TkAssign, ⟨0, 1⟩⟩ rfl)).tail (.complete ⟨0⟩ _ rfl)
  obtain ⟨tree, hbuild, hsame, -⟩ := h _ _ [.node .Block [.node .AssignStat [],
    .token .TkAssign ⟨0, 1⟩]] rfl hclosed rfl (by simp [Covered, coveredNode, pullsTrivia])
  have hbuilt : buildTree (parserAt [.NodeStart .Block 0, .NodeStart .AssignStat 0,
      .NodeStart .None 0, .NodeEnd, .EatToken .TkAssign ⟨0, 1⟩, .NodeEnd] 1).events
      = some (node .Chunk [.node .Block [.node .AssignStat
        [.token .TkAssign ⟨0, 1⟩]]]).calls := by decide
  rw [hbuilt] at hbuild
  have htree := calls_injective (Option.some.inj hbuild)
  rw [← htree] at hsame
  cases hsame.bare

/-- The parser closes so itself, on a sign of assignment at the start of a file. -/
example : (parseChunk (fun _ => pure ()) 3 (LuaParser.new ['='] [⟨.TkAssign, ⟨0, 1⟩⟩]
    ⟨.Lua51, fun _ => none, false⟩ [] fun _ => false)).map (fun r => closesEarly r.2.events)
      = .ok true := rfl

end GluaLs.Syntax
