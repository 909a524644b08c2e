/-
  GluaLs.Modules.Registration — the workspace of a file, and the order its roots were
  registered in (`extract_module_path`, `add_workspace_root_with_kind` of
  `db_index/module/mod.rs`).

  A root that is the path itself ends the loop.  Otherwise a root above the path is a CANDIDATE
  when a pattern matches the rest, and the first of the shortest module paths is taken, with the
  workspace it is found in: unless that one is a main one and another candidate came before.
  So the order does not count exactly if the candidates agree as far as `OrderFree` says.
-/
import GluaLs.Modules.Index

namespace GluaLs.Modules

namespace Config

/-! ## §1. Registration -/

def addWorkspaceRootWithKind (config : Config) (added : Workspace) : Config :=
  match config.workspaces.find? fun known => known.root = added.root with
  | some known =>
    { config with workspaceKindMap := config.workspaceKindMap.insert known.id known.kind }
  | none =>
    { config with
      workspaces := config.workspaces ++ [added]
      workspaceKindMap := config.workspaceKindMap.insert added.id added.kind }

/-- What is configured, with these roots registered one after the other. -/
def registered (config : Config) (order : List Workspace) : Config :=
  order.foldl addWorkspaceRootWithKind { config with workspaces := [] }

/-- Distinct roots are all kept, in their order. -/
theorem foldl_addWorkspaceRoot (order : List Workspace) : ∀ config : Config,
    ((config.workspaces ++ order).map fun known => known.root).Nodup →
      (order.foldl addWorkspaceRootWithKind config).workspaces = config.workspaces ++ order ∧
        (order.foldl addWorkspaceRootWithKind config).modulePatterns = config.modulePatterns := by
  induction order with
  | nil => exact fun config _ => ⟨(List.append_nil _).symm, rfl⟩
  | cons added order ih =>
    intro config hroots
    have hnew : config.workspaces.find? (fun known => known.root = added.root) = none := by
      rw [List.find?_eq_none]
      intro known hknown hroot
      rw [List.map_append, List.nodup_append] at hroots
      exact hroots.2.2 _ (List.mem_map_of_mem hknown) _ (List.mem_map_of_mem (.head _))
        (of_decide_eq_true hroot)
    have hadd : config.addWorkspaceRootWithKind added = { config with
        workspaces := config.workspaces ++ [added]
        workspaceKindMap := config.workspaceKindMap.insert added.id added.kind } := by
      rw [addWorkspaceRootWithKind, hnew]
    rw [List.append_cons] at hroots ⊢
    rw [List.foldl_cons, hadd]
    exact ih _ hroots

variable (config : Config) (path : Text)

/-! ## §2. The loop -/

/-- The name of a root that is the path itself. -/
def namedBy (workspace : Workspace) : Option Text :=
  if relativeTo (trimSlashes (toSlashes workspace.root)) path = some [] then workspace.filePrefix
  else none

/-- The module path that a pattern reads off the rest below a root. -/
def candidateAt (workspace : Workspace) : Option Text :=
  (relativeTo (trimSlashes (toSlashes workspace.root)) path).bind config.matchPattern

/-- What a root offers, behind its rank: a root that is the path itself comes first of all, and
    the others by the length of the module path. -/
def offer (workspace : Workspace) : Option (Nat × Text) :=
  match namedBy path workspace with
  | some name => some (0, name)
  | none => (config.candidateAt path workspace).map fun modulePath =>
    (utf8Len modulePath + 1, modulePath)

/-- A main workspace is not taken with the module path found in it. -/
def Yields (workspace : Workspace) (new : Nat × Text) : Prop :=
  new.1 ≠ 0 ∧ workspace.kind = .Main

instance (workspace : Workspace) (new : Nat × Text) : Decidable (Yields workspace new) :=
  inferInstanceAs (Decidable (_ ∧ _))

/-- What is matched after one more root. -/
def improved (matched : Option ((Nat × Text) × WorkspaceId)) (workspace : Workspace) :
    Option ((Nat × Text) × WorkspaceId) :=
  match config.offer path workspace, matched with
  | none, _ => matched
  | some new, none => some (new, workspace.id)
  | some new, some (best, bestWorkspace) =>
    if new.1 < best.1 then
      some (new, if Yields workspace new then bestWorkspace else workspace.id)
    else matched

/-- What is found of a path, the roots being looked through in this order. -/
def found (order : List Workspace) : Option (Text × WorkspaceId) :=
  (order.foldl (config.improved path) none).map fun best => (best.1.2, best.2)

/-- Nothing that does not come earlier takes its place. -/
theorem foldl_improved_of_le (best : (Nat × Text) × WorkspaceId) (order : List Workspace)
    (h : ∀ d ∈ order, ∀ other, config.offer path d = some other → best.1.1 ≤ other.1) :
    order.foldl (config.improved path) (some best) = some best := by
  induction order with
  | nil => rfl
  | cons w order ih =>
    have hw : config.improved path (some best) w = some best := by
      unfold improved
      cases hoffer : config.offer path w with
      | none => rfl
      | some other => exact if_neg (not_lt.2 (h w (.head _) other hoffer))
    rw [List.foldl_cons, hw]
    exact ih (List.forall_mem_cons.1 h).2

/-- The loop, from what is matched on: until a root is the path, the rank is the length. -/
theorem extractFrom_eq (order : List Workspace) : ∀ matched : Option ((Nat × Text) × WorkspaceId),
    (∀ best, matched = some best → best.1.1 = utf8Len best.1.2 + 1) →
      config.extractFrom path order (matched.map fun best => (best.1.2, best.2)) =
        (order.foldl (config.improved path) matched).map fun best => (best.1.2, best.2) := by
  induction order with
  | nil => exact fun matched _ => rfl
  | cons w order ih =>
    intro matched hmatched
    rw [extractFrom, List.foldl_cons]
    cases hrel : relativeTo (trimSlashes (toSlashes w.root)) path with
    | none =>
      have hstep : config.improved path matched w = matched := by
        simp [improved, offer, namedBy, candidateAt, hrel]
      rw [hstep]
      exact ih matched hmatched
    | some relative =>
      dsimp only
      cases hname : (if relative = [] then w.filePrefix else none) with
      | some name =>
        have hstep : config.improved path matched w = some ((0, name), w.id) := by
          have hoffer : config.offer path w = some (0, name) := by
            simp [offer, namedBy, hrel, hname]
          unfold improved
          rw [hoffer]
          cases matched with
          | none => rfl
          | some best =>
            have hlt : 0 < best.1.1 := hmatched best rfl ▸ Nat.succ_pos _
            simp [hlt, Yields]
        rw [hstep, foldl_improved_of_le config path _ order fun _ _ _ _ => Nat.zero_le _]
        rfl
      | none =>
        have hoffer : config.offer path w = (config.matchPattern relative).map fun modulePath =>
            (utf8Len modulePath + 1, modulePath) := by
          simp [offer, namedBy, candidateAt, hrel, hname]
        have hnew : ∀ (modulePath : Text) (id : WorkspaceId) best,
            some ((utf8Len modulePath + 1, modulePath), id) = some best →
              best.1.1 = utf8Len best.1.2 + 1 := by
          rintro modulePath id best ⟨⟩
          rfl
        cases hmatch : config.matchPattern relative with
        | none =>
          have hstep : config.improved path matched w = matched := by
            simp [improved, hoffer, hmatch]
          rw [hstep]
          exact ih matched hmatched
        | some modulePath =>
          rw [hmatch] at hoffer
          cases matched with
          | none =>
            have hstep : config.improved path none w =
                some ((utf8Len modulePath + 1, modulePath), w.id) := by
              simp [improved, hoffer]
            rw [hstep]
            exact ih _ (hnew _ _)
          | some best =>
            have hrank := hmatched best rfl
            have hstep : config.improved path (some best) w = if utf8Len modulePath <
                utf8Len best.1.2 then some ((utf8Len modulePath + 1, modulePath),
                  if w.kind = .Main then best.2 else w.id) else some best := by
              simp [improved, hoffer, hrank, Yields]
            rw [hstep]
            dsimp only [Option.map_some]
            split_ifs with hlt
            · exact ih _ (hnew _ _)
            · exact ih _ (hnew _ _)
            · exact ih (some best) hmatched

theorem extractModulePath_registered (order : List Workspace)
    (hroots : (order.map fun known => known.root).Nodup) :
    (config.registered order).extractModulePath path =
      config.found (trimSlashes (toSlashes path)) order := by
  obtain ⟨hworkspaces, hpatterns⟩ :=
    foldl_addWorkspaceRoot order { config with workspaces := [] } hroots
  have himproved : (config.registered order).improved = config.improved := by
    funext path matched workspace
    unfold improved offer candidateAt matchPattern
    rw [registered, hpatterns]
  have hloop := (config.registered order).extractFrom_eq (trimSlashes (toSlashes path)) order none
    fun _ h => by cases h
  rw [himproved] at hloop
  rw [extractModulePath, registered, hworkspaces]
  exact hloop

/-! ## §3. What is chosen -/

/-- An offer than which no other of the roots comes earlier. -/
def First (roots : List Workspace) (c : Workspace) (new : Nat × Text) : Prop :=
  c ∈ roots ∧ config.offer path c = some new ∧
    ∀ d ∈ roots, ∀ other, config.offer path d = some other → new.1 ≤ other.1

/-- One of the first, with its workspace or, where it yields, that of some root. -/
def Chosen (roots : List Workspace) (best : (Nat × Text) × WorkspaceId) : Prop :=
  ∃ c, config.First path roots c best.1 ∧ (best.2 = c.id ∨ Yields c best.1 ∧
    ∃ d ∈ roots, ∃ other, config.offer path d = some other ∧ best.2 = d.id)

section

variable {config : Config} {path : Text} {roots order : List Workspace}
variable {best : (Nat × Text) × WorkspaceId}

theorem Chosen.perm (hperm : order.Perm roots) (h : config.Chosen path order best) :
    config.Chosen path roots best := by
  simpa only [Chosen, First, hperm.mem_iff] using h

/-- One more root keeps to this. -/
theorem Chosen.improved (h : config.Chosen path order best) (w : Workspace) :
    ∃ best', config.improved path (some best) w = some best' ∧
      config.Chosen path (order ++ [w]) best' := by
  obtain ⟨c, ⟨hc, hoffer, hfirst⟩, hid⟩ := h
  have hmem : ∀ d ∈ order, d ∈ order ++ [w] := fun d => List.mem_append_left [w]
  have hstay : (∀ other, config.offer path w = some other → best.1.1 ≤ other.1) →
      config.Chosen path (order ++ [w]) best := by
    intro hw
    have hall := List.forall_mem_append.2 ⟨hfirst, List.forall_mem_singleton.2 hw⟩
    exact ⟨c, ⟨hmem c hc, hoffer, hall⟩, hid.imp_right fun ⟨hyields, d, hd, hrest⟩ =>
      ⟨hyields, d, hmem d hd, hrest⟩⟩
  unfold Config.improved
  cases hw : config.offer path w with
  | none => exact ⟨best, rfl, hstay fun other hother => by rw [hw] at hother; cases hother⟩
  | some new =>
    have hself : ∀ other, config.offer path w = some other → new.1 ≤ other.1 :=
      fun other hother => (congrArg Prod.fst (Option.some.inj (hw.symm.trans hother))).le
    by_cases hlt : new.1 < best.1.1
    · have hall := List.forall_mem_append.2 ⟨fun d hd other hother =>
        hlt.le.trans (hfirst d hd other hother), List.forall_mem_singleton.2 hself⟩
      refine ⟨_, if_pos hlt, w, ⟨by simp, hw, hall⟩, ?_⟩
      by_cases hyields : Yields w new
      · -- the workspace is that of a root before
        refine .inr ⟨hyields, ?_⟩
        rw [if_pos hyields]
        rcases hid with hid | ⟨-, d, hd, hrest⟩
        · exact ⟨c, hmem c hc, best.1, hoffer, hid⟩
        · exact ⟨d, hmem d hd, hrest⟩
      · exact .inl (if_neg hyields)
    · refine ⟨best, if_neg hlt, hstay fun other hother => ?_⟩
      exact (not_lt.1 hlt).trans (hself other hother)

/-- What the loop ends with. -/
theorem foldl_improved (order : List Workspace) :
    (order.foldl (config.improved path) none = none ∧ ∀ d ∈ order, config.offer path d = none) ∨
      ∃ best, order.foldl (config.improved path) none = some best ∧
        config.Chosen path order best := by
  induction order using List.reverseRecOn with
  | nil => exact .inl ⟨rfl, nofun⟩
  | append_singleton order w ih =>
    rw [List.foldl_append, List.foldl_cons, List.foldl_nil]
    rcases ih with ⟨hnone, hall⟩ | ⟨best, hbest, hchosen⟩
    · rw [hnone]
      unfold improved
      cases hw : config.offer path w with
      | none =>
        exact .inl ⟨rfl, List.forall_mem_append.2 ⟨hall, List.forall_mem_singleton.2 hw⟩⟩
      | some new =>
        refine .inr ⟨_, rfl, w, ⟨by simp, hw, List.forall_mem_append.2
          ⟨fun d hd other hother => ?_, List.forall_mem_singleton.2 fun other hother => ?_⟩⟩,
          .inl rfl⟩
        · rw [hall d hd] at hother
          cases hother
        · exact (congrArg Prod.fst (Option.some.inj (hw.symm.trans hother))).le
    · rw [hbest]
      exact .inr (hchosen.improved w)

/-- An offer in front is taken, when none comes earlier, -/
theorem found_first {c : Workspace} {new : Nat × Text} (hc : config.First path roots c new) :
    config.found path (c :: roots.erase c) = some (new.2, c.id) := by
  have hstep : config.improved path none c = some (new, c.id) := by
    unfold improved
    rw [hc.2.1]
  rw [found, List.foldl_cons, hstep, foldl_improved_of_le config path _ _ fun d hd =>
    hc.2.2 d ((List.perm_cons_erase hc.1).mem_iff.2 (.tail c hd))]
  rfl

/-- and one that yields takes the workspace before it. -/
theorem found_second {c d : Workspace} {new other : Nat × Text}
    (hc : config.First path roots c new) (hyields : Yields c new) (hd : d ∈ roots)
    (hother : config.offer path d = some other) (hlt : new.1 < other.1) :
    ∃ order, order.Perm roots ∧ config.found path order = some (new.2, d.id) := by
  have hcd : c ∈ roots.erase d := by
    refine (List.mem_erase_of_ne ?_).2 hc.1
    rintro rfl
    exact hlt.ne (congrArg Prod.fst (Option.some.inj (hc.2.1.symm.trans hother)))
  have hperm : roots.Perm (d :: c :: (roots.erase d).erase c) :=
    (List.perm_cons_erase hd).trans ((List.perm_cons_erase hcd).cons d)
  have hstep : config.improved path none d = some (other, d.id) := by
    unfold improved
    rw [hother]
  have hstep' : config.improved path (some (other, d.id)) c = some (new, d.id) := by
    unfold improved
    rw [hc.2.1]
    exact (if_pos hlt).trans (by rw [if_pos hyields])
  refine ⟨_, hperm.symm, ?_⟩
  rw [found, List.foldl_cons, List.foldl_cons, hstep, hstep',
    foldl_improved_of_le config path _ _ fun w hw => hc.2.2 w (hperm.mem_iff.2
      (.tail d (.tail c hw)))]
  rfl

end

/-! ## §4. Any order -/

/-- The workspace of some root that is not a main one. -/
def NonMain (roots : List Workspace) (workspace : WorkspaceId) : Prop :=
  ∃ w ∈ roots, w.kind ≠ .Main ∧ w.id = workspace

/-- What the roots above a path must agree on. -/
structure OrderFree (roots : List Workspace) : Prop where
  /-- The roots that offer the path itself, or else the shortest of module paths, offer the same
      one and are of one workspace; if one of them is a main one that is not the path itself, so
      are all that offer anything. -/
  agree : ∀ c new, config.First path roots c new →
    ∀ d ∈ roots, ∀ other, config.offer path d = some other →
      (other.1 = new.1 → other.2 = new.2 ∧ d.id = c.id) ∧ (Yields c new → d.id = c.id)
  /-- A root that is the path itself is not of a main workspace, beside a candidate that is
      not. -/
  claimed : ∀ c new, config.First path roots c new → new.1 = 0 →
    ∀ d ∈ roots, d.kind ≠ .Main → config.candidateAt path d ≠ none → NonMain roots c.id

section

variable {config : Config} {path : Text} {roots order : List Workspace}

theorem offer_of_candidateAt {d : Workspace} (h : config.candidateAt path d ≠ none) :
    ∃ other, config.offer path d = some other := by
  unfold offer
  cases namedBy path d with
  | some name => exact ⟨_, rfl⟩
  | none =>
    obtain ⟨modulePath, hcand⟩ := Option.ne_none_iff_exists'.1 h
    rw [hcand]
    exact ⟨_, rfl⟩

/-- The workspace is that of the root whose module path it is. -/
theorem OrderFree.id_eq (h : config.OrderFree path roots) {best : (Nat × Text) × WorkspaceId}
    (hbest : config.Chosen path roots best) :
    ∃ c, config.First path roots c best.1 ∧ best.2 = c.id := by
  obtain ⟨c, hc, hid | ⟨hyields, d, hd, other, hother, hid⟩⟩ := hbest
  · exact ⟨c, hc, hid⟩
  · exact ⟨c, hc, hid.trans ((h.agree c _ hc d hd other hother).2 hyields)⟩

/-- In any order, the result is that of one of the first roots. -/
theorem OrderFree.found_eq (h : config.OrderFree path roots) (hperm : order.Perm roots)
    {c : Workspace} {new : Nat × Text} (hc : config.First path roots c new) :
    config.found path order = some (new.2, c.id) := by
  rcases @foldl_improved config path order with ⟨-, hall⟩ | ⟨best, hfold, hbest⟩
  · have hnone := hall c (hperm.mem_iff.2 hc.1)
    rw [hc.2.1] at hnone
    cases hnone
  · obtain ⟨d, hd, hid⟩ := h.id_eq (hbest.perm hperm)
    have hrank := le_antisymm (hd.2.2 c hc.1 _ hc.2.1) (hc.2.2 d hd.1 _ hd.2.1)
    obtain ⟨hpath, hsame⟩ := (h.agree c _ hc d hd.1 _ hd.2.1).1 hrank
    rw [found, hfold, Option.map_some, hpath, hid, hsame]

theorem found_eq_none (hall : ∀ d ∈ roots, config.offer path d = none)
    (hperm : order.Perm roots) : config.found path order = none := by
  rcases @foldl_improved config path order with ⟨hfold, -⟩ | ⟨best, -, c, hc, -⟩
  · rw [found, hfold]
    rfl
  · have hnone := hall c (hperm.mem_iff.1 hc.1)
    rw [hc.2.1] at hnone
    cases hnone

/-- A root that is not a main one beside the first: its workspace is not a main one either. -/
theorem OrderFree.nonMain (h : config.OrderFree path roots) {c d : Workspace} {new : Nat × Text}
    (hc : config.First path roots c new) (hd : d ∈ roots) (hkind : d.kind ≠ .Main)
    (hcand : config.candidateAt path d ≠ none) : NonMain roots c.id := by
  by_cases hzero : new.1 = 0
  · exact h.claimed c new hc hzero d hd hkind hcand
  · by_cases hmain : c.kind = .Main
    · obtain ⟨other, hother⟩ := offer_of_candidateAt hcand
      exact ⟨d, hd, hkind, (h.agree c new hc d hd other hother).2 ⟨hzero, hmain⟩⟩
    · exact ⟨c, hc.1, hmain, rfl⟩

/-- A result that does not depend on the order. -/
theorem orderFree_of_found_eq
    (hsame : ∀ order, order.Perm roots → config.found path order = config.found path roots)
    (hnonMain : ∀ d ∈ roots, d.kind ≠ .Main → config.candidateAt path d ≠ none →
      ∃ a, config.found path roots = some a ∧ NonMain roots a.2) :
    config.OrderFree path roots := by
  have hfirst : ∀ {c new}, config.First path roots c new →
      config.found path roots = some (new.2, c.id) := fun hc =>
    (hsame _ (List.perm_cons_erase hc.1).symm).symm.trans (found_first hc)
  refine ⟨fun c new hc d hd other hother => ?_, fun c new hc _ d hd hkind hcand => ?_⟩
  · have hequal : other.1 = new.1 → other.2 = new.2 ∧ d.id = c.id := by
      intro hrank
      have hd : config.First path roots d other :=
        ⟨hd, hother, fun w hw m hm => hrank.le.trans (hc.2.2 w hw m hm)⟩
      exact Prod.mk.inj (Option.some.inj ((hfirst hd).symm.trans (hfirst hc)))
    refine ⟨hequal, fun hyields => ?_⟩
    rcases (hc.2.2 d hd other hother).eq_or_lt with hrank | hlt
    · exact (hequal hrank.symm).2
    · obtain ⟨order, hperm, hfound⟩ := found_second hc hyields hd hother hlt
      rw [hsame order hperm, hfirst hc] at hfound
      exact (Prod.mk.inj (Option.some.inj hfound)).2.symm
  · obtain ⟨a, ha, hnon⟩ := hnonMain d hd hkind hcand
    rwa [← Option.some.inj ((hfirst hc).symm.trans ha)] at hnon

end

/-- **The module path and workspace of a file do not depend on the order its roots were
    registered in, and the workspace is not a main one beside a candidate that is not**, exactly
    if the roots above the file agree so far. -/
theorem extractModulePath_registered_iff (config : Config) (path : Text) (roots : List Workspace)
    (hroots : (roots.map fun known => known.root).Nodup) :
    (∀ order, order.Perm roots →
      (config.registered order).extractModulePath path =
          (config.registered roots).extractModulePath path ∧
        ∀ d ∈ roots, d.kind ≠ .Main →
          config.candidateAt (trimSlashes (toSlashes path)) d ≠ none →
          ∃ a, (config.registered order).extractModulePath path = some a ∧ NonMain roots a.2) ↔
      config.OrderFree (trimSlashes (toSlashes path)) roots := by
  have hfound : ∀ order, order.Perm roots → (config.registered order).extractModulePath path =
      config.found (trimSlashes (toSlashes path)) order := fun order hperm =>
    extractModulePath_registered config path order ((hperm.map _).nodup_iff.2 hroots)
  constructor
  · intro h
    refine orderFree_of_found_eq (fun order hperm => ?_) fun d hd hkind hcand => ?_
    · rw [← hfound order hperm, ← hfound roots (.refl roots)]
      exact (h order hperm).1
    · rw [← hfound roots (.refl roots)]
      exact (h roots (.refl roots)).2 d hd hkind hcand
  · intro h order hperm
    rw [hfound order hperm, hfound roots (.refl roots)]
    rcases @foldl_improved config (trimSlashes (toSlashes path)) roots with
      ⟨-, hall⟩ | ⟨best, -, c, hc, -⟩
    · rw [found_eq_none hall hperm, found_eq_none hall (.refl roots)]
      refine ⟨rfl, fun d hd _ hcand => ?_⟩
      obtain ⟨other, hother⟩ := offer_of_candidateAt hcand
      rw [hall d hd] at hother
      cases hother
    · rw [h.found_eq hperm hc, h.found_eq (.refl roots) hc]
      exact ⟨rfl, fun d hd hkind hcand => ⟨_, rfl, h.nonMain hc hd hkind hcand⟩⟩

/-! ## §5. A library inside the main workspace -/

/-- A pattern of a question mark and an ending; `.` does not match a line break. -/
def questionMark (ending path : Text) : Option Text :=
  (stripEnd ending path).filter fun matched => '\n' ∉ matched

/-- `?/init.lua` and `?.lua`, the longer one first. -/
def defaultPatterns : List (Text → Option Text) :=
  [questionMark "/init.lua".toList, questionMark ".lua".toList]

def byDefault : Config := ⟨defaultPatterns, [], ∅, true, [], false⟩

def mainRoot : Workspace := ⟨"/a".toList, some ['a'], WorkspaceId.MAIN, .Main⟩

def libraryRoot : Workspace := ⟨"/a/b".toList, some ['b'], ⟨3⟩, .Library⟩

/-- **An init file of the library is one of the main workspace, if that was registered first.** -/
theorem library_init_file :
    byDefault.candidateAt "/a/b/init.lua".toList libraryRoot = some "init".toList ∧
      (byDefault.registered [libraryRoot, mainRoot]).extractModulePath "/a/b/init.lua".toList =
        some (['b'], ⟨3⟩) ∧
      (byDefault.registered [mainRoot, libraryRoot]).extractModulePath "/a/b/init.lua".toList =
        some (['b'], WorkspaceId.MAIN) := by
  decide

theorem not_orderFree_library_init_file :
    ¬ byDefault.OrderFree (trimSlashes (toSlashes "/a/b/init.lua".toList))
      [libraryRoot, mainRoot] := by
  intro hfree
  have hsame := ((extractModulePath_registered_iff byDefault "/a/b/init.lua".toList
    [libraryRoot, mainRoot] (by decide)).2 hfree [mainRoot, libraryRoot] (.swap _ _ _)).1
  revert hsame
  decide

end Config

end GluaLs.Modules
