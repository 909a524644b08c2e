/-
  GluaLs.Modules.Determined — what a lookup records does not determine what it finds.

  A lookup records the facts it read.  The facts of names and paths cover every module a choice
  is among, with its workspace, but not the path its file was registered from, by which a
  choice breaks ties.  So a lookup whose facts are unchanged finds the same module exactly where
  the modules that stand best keep their first (`lookups_determined`): a module that moves
  to an earlier path takes the place of the one that was found, unseen.

  Lookups of legacy namespaces are determined by what they record.
-/
import GluaLs.Modules.Namespaces

namespace GluaLs.Modules

open GluaLs.Lib GluaLs.Lib.Buckets GluaLs.Lib.LabelledRuns GluaLs.Lib.TieBreak GluaLs.Types
  LuaModuleIndex
/-! ## §1. Last parts -/

theorem splitOnP_congr {A : Type} (p q : A → Bool) (l : List A) (h : ∀ a ∈ l, p a = q a) :
    l.splitOnP p = l.splitOnP q := by
  induction l with
  | nil => rfl
  | cons a l ih =>
    rw [List.splitOnP_cons_eq_if_modifyHead, List.splitOnP_cons_eq_if_modifyHead, h a (.head _),
      ih fun b hb => h b (.tail a hb)]

/-- The name a path is looked up by is its last part. -/
theorem lookupName_toDots (path : Text) : lookupName (toDots path) = lastPart (toDots path) := by
  have hsplit : (toDots path).splitOnP (fun c => c = '.' || c = '/' || c = '\\') =
      moduleParts (toDots path) := by
    apply splitOnP_congr
    intro c hc
    obtain ⟨d, -, rfl⟩ := List.mem_map.1 hc
    split
    · rfl
    · rename_i hd
      rw [not_or] at hd
      simp only [hd.1, hd.2, decide_false, Bool.or_false]
      rfl
  unfold lookupName lastPart
  rw [hsplit, List.getLast?_eq_some_getLast (moduleParts_ne_nil _),
    List.getLastD_eq_getLast?, List.getLast?_eq_some_getLast (moduleParts_ne_nil _)]
  rfl

/-! ## §2. Lookups of modules -/

/-- The modules that stand best in a lookup. -/
def contenders (index : LuaModuleIndex) (modulePath : Text) (workspace : Option WorkspaceId) :
    List ModuleEntry :=
  let path := toDots modulePath
  let atPath := (entriesOf index).filter fun e => decide (e.2.1 = path)
  let atName := (entriesOf index).filter fun e => decide (lastPart e.2.1 = lastPart path)
  if ties (index.config.exactStanding workspace) atPath ≠ [] then
    ties (index.config.exactStanding workspace) atPath
  else if index.config.fuzzySearch then
    ties (index.config.fuzzyStanding path workspace) atName
  else []

variable {hashes : Hashes} {tight : Prop} {index index' : LuaModuleIndex}

/-- Candidates are tied as what they are registered as. -/
theorem registrationKey_of_mem (files : List FileId) (c : Candidate)
    (h : c ∈ index.candidates files) :
    Config.registrationKey c = registered index.fileModulePaths c.entry := by
  obtain ⟨info, -, rfl⟩ := List.mem_map.1 h
  rfl

/-- The module found at a path is the best there. -/
theorem finds_exactFindModule (h : Views hashes tight index) (path : Text)
    (workspace : Option WorkspaceId) :
    Finds (index.config.exactStanding workspace) (registered index.fileModulePaths)
      ((entriesOf index).filter fun e => decide (e.2.1 = path))
      ((index.exactFindModule (moduleParts path) workspace).map Candidate.entry) := by
  rw [exactFindModule_eq]
  apply finds_congr (mem_entries_filesAt h.placed path)
  apply finds_map
  exact finds_tie_congr (registrationKey_of_mem _) (finds_select index workspace _)

/-- The module found under a name is the best of those that end in the path. -/
theorem finds_fuzzyFindModule (h : Views hashes tight index) (path : Text)
    (workspace : Option WorkspaceId) :
    Finds (index.config.fuzzyStanding path workspace) (registered index.fileModulePaths)
      ((entriesOf index).filter fun e => decide (lastPart e.2.1 = lastPart path))
      ((index.fuzzyFindModule path (lastPart path) workspace).map Candidate.entry) := by
  rw [fuzzyFindModule_eq]
  apply finds_congr (mem_entries_listOf h.placed h.named (lastPart path))
  apply finds_map
  exact finds_tie_congr (registrationKey_of_mem _) (finds_fuzzyChoice index.config path workspace _)

/-- What two choices by one standing come to. -/
theorem found_eq_iff {R : Type} [LinearOrder R] (h : Placed index.moduleNodes index.fileModuleMap)
    (rank : ModuleEntry → WithTop R) {l : List ModuleEntry} (hl : ∀ e ∈ l, e ∈ entriesOf index)
    {r r' : Option ModuleEntry} (hr : Finds rank (registered index.fileModulePaths) l r)
    (hr' : Finds rank (registered index'.fileModulePaths) l r') :
    r.map Prod.fst = r'.map Prod.fst ↔
      KeepsFirst (registered index.fileModulePaths) (registered index'.fileModulePaths)
        (ties rank l) := by
  have hinj : ∀ paths : HashMap FileId Text, ∀ e ∈ l, ∀ e' ∈ l,
      registered paths e = registered paths e' → e = e' := by
    intro paths e he e' he' hkey
    exact entriesOf_inj h e e' (hl e he) (hl e' he') (fileId_of_registrationKey _ _ hkey)
  rw [← finds_eq_iff (hinj _) (hinj _) hr hr']
  refine ⟨?_, fun heq => by rw [heq]⟩
  intro hfile
  cases r with
  | none => exact (Option.map_eq_none_iff.1 hfile.symm).symm
  | some e =>
    cases r' with
    | none => cases hfile
    | some e' =>
      exact congrArg some (entriesOf_inj h e e' (hl e hr.mem) (hl e' hr'.mem)
        (Option.some.inj hfile))

/-- What a lookup finds. -/
theorem lookup_found (index : LuaModuleIndex) (modulePath : Text)
    (workspace : Option WorkspaceId) (contents : Bool) :
    (index.lookup modulePath workspace contents).found =
      (((index.exactFindModule (moduleParts (toDots modulePath)) workspace).or
        (if index.config.fuzzySearch then
          index.fuzzyFindModule (toDots modulePath) (lastPart (toDots modulePath)) workspace
        else none)).map Candidate.entry).map Prod.fst := by
  unfold lookup lastPart
  dsimp only
  cases index.exactFindModule (moduleParts (toDots modulePath)) workspace with
  | some c => rfl
  | none =>
    cases (if index.config.fuzzySearch then
      index.fuzzyFindModule (toDots modulePath) ((moduleParts (toDots modulePath)).getLastD [])
        workspace else none) with
    | some c => rfl
    | none => rfl

/-- A lookup that finds a module at its path records the path. -/
theorem modulePath_mem_reads {modulePath : Text} {workspace : Option WorkspaceId}
    {contents : Bool} {c : Candidate}
    (h : index.exactFindModule (moduleParts (toDots modulePath)) workspace = some c) :
    FactKey.ModulePath (toDots modulePath) ∈
      (index.lookup modulePath workspace contents).reads := by
  unfold lookup
  dsimp only
  rw [h]
  exact .head _

/-- Any other records the name. -/
theorem moduleName_mem_reads {modulePath : Text} {workspace : Option WorkspaceId} {contents : Bool}
    (h : index.exactFindModule (moduleParts (toDots modulePath)) workspace = none) :
    FactKey.ModuleName (lastPart (toDots modulePath)) ∈
      (index.lookup modulePath workspace contents).reads := by
  unfold lookup
  dsimp only
  rw [h, ← lookupName_toDots]
  dsimp only
  split
  · exact .head _
  · exact .head _

/-- What the facts a lookup recorded say of the modules it chose among. -/
structure SameChoice (index index' : LuaModuleIndex) (modulePath : Text)
    (workspace : Option WorkspaceId) : Prop where
  atPath : ∀ e : ModuleEntry, e.2.1 = toDots modulePath →
    (e ∈ entriesOf index ↔ e ∈ entriesOf index')
  atName : index.exactFindModule (moduleParts (toDots modulePath)) workspace = none →
    ∀ e : ModuleEntry, lastPart e.2.1 = lastPart (toDots modulePath) →
      (e ∈ entriesOf index ↔ e ∈ entriesOf index')

theorem sameChoice_of_reads (h : Views hashes tight index) (h' : Views hashes tight index')
    {prints prints' : Prints} (modulePath : Text) (workspace : Option WorkspaceId) (contents : Bool)
    (hreads : ∀ key ∈ (index.lookup modulePath workspace contents).reads,
      index.factContent prints key = index'.factContent prints' key) :
    SameChoice index index' modulePath workspace := by
  cases hexact : index.exactFindModule (moduleParts (toDots modulePath)) workspace with
  | some c =>
    have heq := hreads _ (modulePath_mem_reads hexact)
    refine ⟨?_, fun hnone => absurd (hexact.symm.trans hnone) (Option.some_ne_none c)⟩
    intro e hpath
    refine entries_of_namedModules_eq h.placed h.named h'.placed h'.named _
      (fun full => decide (full = toDots modulePath)) heq e ?_ (decide_eq_true hpath)
    rw [hpath, lookupName_toDots]
  | none =>
    have heq := hreads _ (moduleName_mem_reads hexact)
    have hname : ∀ e : ModuleEntry, lastPart e.2.1 = lastPart (toDots modulePath) →
        (e ∈ entriesOf index ↔ e ∈ entriesOf index') := by
      intro e hlast
      exact entries_of_namedModules_eq h.placed h.named h'.placed h'.named _ (fun _ => true)
        heq e hlast rfl
    exact ⟨fun e hpath => hname e (by rw [hpath]), fun _ => hname⟩

/-- **A lookup whose facts are unchanged finds the same module exactly where the modules that
    stand best keep their first.** -/
theorem lookup_found_eq_iff (h : Views hashes tight index) (h' : Views hashes tight index')
    (hconfig : index'.config = index.config) {modulePath : Text} {workspace : Option WorkspaceId}
    (hsame : SameChoice index index' modulePath workspace) (contents : Bool) :
    (index.lookup modulePath workspace contents).found =
        (index'.lookup modulePath workspace contents).found ↔
      KeepsFirst (registered index.fileModulePaths) (registered index'.fileModulePaths)
        (contenders index modulePath workspace) := by
  have hexact := finds_exactFindModule h (toDots modulePath) workspace
  have hexact' := finds_exactFindModule h' (toDots modulePath) workspace
  rw [hconfig] at hexact'
  have hpath : ∀ e, e ∈ ((entriesOf index').filter fun e => decide (e.2.1 = toDots modulePath)) ↔
      e ∈ (entriesOf index).filter fun e => decide (e.2.1 = toDots modulePath) := by
    intro e
    rw [List.mem_filter, List.mem_filter, decide_eq_true_iff]
    exact and_congr_left fun he => (hsame.atPath e he).symm
  replace hexact' := finds_congr hpath hexact'
  have hsub : ∀ keep : ModuleEntry → Bool, ∀ e ∈ (entriesOf index).filter keep,
      e ∈ entriesOf index := fun keep e he => (List.mem_filter.1 he).1
  have hsome := finds_isSome_iff hexact
  have hsome' := finds_isSome_iff hexact'
  rw [lookup_found, lookup_found]
  unfold contenders
  by_cases hties : ties (index.config.exactStanding workspace)
      ((entriesOf index).filter fun e => decide (e.2.1 = toDots modulePath)) ≠ []
  · -- found at the path, in both
    rw [if_pos hties]
    obtain ⟨e, he⟩ := Option.isSome_iff_exists.1 (hsome.2 hties)
    obtain ⟨e', he'⟩ := Option.isSome_iff_exists.1 (hsome'.2 hties)
    obtain ⟨c, hc, rfl⟩ := Option.map_eq_some_iff.1 he
    obtain ⟨c', hc', rfl⟩ := Option.map_eq_some_iff.1 he'
    rw [hc] at hexact ⊢
    rw [hc'] at hexact' ⊢
    rw [Option.some_or, Option.some_or]
    exact found_eq_iff h.placed _ (hsub _) hexact hexact'
  · -- not found at the path, in either
    rw [if_neg hties]
    have hnone : index.exactFindModule (moduleParts (toDots modulePath)) workspace = none := by
      rw [← Option.map_eq_none_iff (f := Candidate.entry), ← Option.not_isSome_iff_eq_none, hsome]
      exact hties
    have hnone' : index'.exactFindModule (moduleParts (toDots modulePath)) workspace = none := by
      rw [← Option.map_eq_none_iff (f := Candidate.entry), ← Option.not_isSome_iff_eq_none, hsome']
      exact hties
    rw [hnone, hnone', Option.none_or, Option.none_or, hconfig]
    cases index.config.fuzzySearch with
    | false => exact ⟨nofun, fun _ => rfl⟩
    | true =>
      have hfuzzy := finds_fuzzyFindModule h (toDots modulePath) workspace
      have hfuzzy' := finds_fuzzyFindModule h' (toDots modulePath) workspace
      rw [hconfig] at hfuzzy'
      refine found_eq_iff h.placed _ (hsub _) hfuzzy (finds_congr ?_ hfuzzy')
      intro e
      rw [List.mem_filter, List.mem_filter, decide_eq_true_iff]
      exact and_congr_left fun he => (hsame.atName hnone e he).symm

/-! ## §3. Queries -/

/-- A lookup. -/
inductive Query where
  | findModule (path : Text)
  | findModuleInWorkspace (path : Text) (workspace : WorkspaceId)
  | findModuleForFile (path : Text) (file : FileId)
  | findModuleFileForFile (path : Text) (file : FileId)

/-- What a lookup finds and records. -/
def ask (index : LuaModuleIndex) : Query → Noted (Option FileId)
  | .findModule path => index.findModule path
  | .findModuleInWorkspace path workspace => index.findModuleInWorkspace path workspace
  | .findModuleForFile path file => index.findModuleForFile path file
  | .findModuleFileForFile path file => index.findModuleFileForFile path file

/-- The path that is looked up. -/
def Query.modulePath : Query → Text
  | .findModule path | .findModuleInWorkspace path _ | .findModuleForFile path _
  | .findModuleFileForFile path _ => path

/-- The workspace it is looked up in. -/
def Query.workspace (index : LuaModuleIndex) : Query → Option WorkspaceId
  | .findModule _ => none
  | .findModuleInWorkspace _ workspace => some workspace
  | .findModuleForFile _ file | .findModuleFileForFile _ file => (index.getWorkspaceId file).found

/-- Whether the module found is read. -/
def Query.contents : Query → Bool
  | .findModuleFileForFile _ _ => false
  | _ => true

theorem findModuleForFile_eq (path : Text) (file : FileId) :
    index.findModuleForFile path file =
      ⟨(index.lookup path (index.getWorkspaceId file).found true).found,
        .ModuleMeta file :: (index.lookup path (index.getWorkspaceId file).found true).reads⟩ := by
  unfold findModuleForFile
  dsimp only
  cases (index.getWorkspaceId file).found with
  | none => rfl
  | some workspace => rfl

theorem ask_found (q : Query) : (ask index q).found =
    (index.lookup q.modulePath (q.workspace index) q.contents).found := by
  cases q with
  | findModule path => rfl
  | findModuleInWorkspace path workspace => rfl
  | findModuleForFile path file =>
    exact congrArg (fun noted => noted.found) (findModuleForFile_eq path file)
  | findModuleFileForFile path file => rfl

theorem mem_ask_reads (q : Query) (key : FactKey)
    (h : key ∈ (index.lookup q.modulePath (q.workspace index) q.contents).reads) :
    key ∈ (ask index q).reads := by
  cases q with
  | findModule path => exact h
  | findModuleInWorkspace path workspace => exact h
  | findModuleForFile path file =>
    show key ∈ (index.findModuleForFile path file).reads
    rw [findModuleForFile_eq]
    exact .tail _ h
  | findModuleFileForFile path file => exact List.mem_append_right _ h

/-- A lookup is made in the workspace it was made in, where its facts are unchanged. -/
theorem workspace_of_reads {prints prints' : Prints} (q : Query)
    (hreads : ∀ key ∈ (ask index q).reads,
      index.factContent prints key = index'.factContent prints' key) :
    q.workspace index = q.workspace index' := by
  cases q with
  | findModule path => rfl
  | findModuleInWorkspace path workspace => rfl
  | findModuleForFile path file =>
    apply getWorkspaceId_of_factContent_eq
    apply hreads (.ModuleMeta file)
    show _ ∈ (index.findModuleForFile path file).reads
    rw [findModuleForFile_eq]
    exact .head _
  | findModuleFileForFile path file =>
    apply getWorkspaceId_of_factContent_eq
    exact hreads (.ModuleMeta file) (List.mem_append_left _ (.head _))

theorem ask_found_eq_iff (h : Views hashes tight index) (h' : Views hashes tight index')
    (hconfig : index'.config = index.config) {prints prints' : Prints} (q : Query)
    (hreads : ∀ key ∈ (ask index q).reads,
      index.factContent prints key = index'.factContent prints' key) :
    (ask index q).found = (ask index' q).found ↔
      KeepsFirst (registered index.fileModulePaths) (registered index'.fileModulePaths)
        (contenders index q.modulePath (q.workspace index)) := by
  rw [ask_found, ask_found, ← workspace_of_reads q hreads]
  apply lookup_found_eq_iff h h' hconfig
  exact sameChoice_of_reads h h' q.modulePath _ q.contents fun key hkey =>
    hreads key (mem_ask_reads q key hkey)

/-! ## §4. Reachable indexes -/

/-- `clear`; ids are not handed out again. -/
def LuaModuleIndex.clear (index : LuaModuleIndex) : LuaModuleIndex :=
  { index with
    moduleNodes := (∅ : HashMap ModuleNodeId ModuleNode).insert moduleRootId ModuleNode.default
    fileModuleMap := ∅
    exportRefs := ∅
    moduleFiles := 0
    fileModulePaths := ∅
    moduleNameToFileIds := ∅
    legacyModuleEnvs := ∅ }

/-- What happens to an index: its modules change, it is configured, it is cleared. -/
inductive Event where
  | module (label : Label)
  | configure (config : Config)
  | clear

def happen (hashes : Hashes) (index : LuaModuleIndex) : Event → Option LuaModuleIndex
  | .module label => step hashes index label
  | .configure config => some { index with config := config }
  | .clear => some index.clear

/-- There are ids for what is registered. -/
def leavesIds (index : LuaModuleIndex) : Event → Bool
  | .module label => hasIds index label
  | _ => true

theorem views_clear (h : Views hashes tight index) : Views hashes tight index.clear := by
  have hnew := views_new hashes tight index.config
  obtain ⟨root, hroot⟩ := Option.isSome_iff_exists.1 h.forest.root
  have hcounter : moduleRootId < index.idCounter := h.forest.below moduleRootId h.forest.root
  refine ⟨⟨hnew.forest.root, hnew.forest.tree, hnew.forest.child, hnew.forest.linked, ?_,
    hnew.forest.used⟩, hnew.placed, hnew.named, hnew.linked, hnew.counted, hnew.pathed⟩
  intro id hid
  exact lt_of_lt_of_le (hnew.forest.below id hid) hcounter

/-- **What happens keeps the views.** -/
theorem views_happen {event : Event} (h : Views hashes False index)
    (hids : leavesIds index event = true) (hhappen : happen hashes index event = some index') :
    Views hashes False index' := by
  cases event with
  | module label => exact views_step h hids (fun hfalse => hfalse.elim) hhappen
  | configure config =>
    cases hhappen
    exact ⟨h.forest, h.placed, h.named, h.linked, h.counted, fun hfalse => hfalse.elim⟩
  | clear =>
    cases hhappen
    exact views_clear h

theorem views_run (hashes : Hashes) (config : Config) (events : List Event) (index : LuaModuleIndex)
    (hids : everyStep (happen hashes) leavesIds events (new config) = true)
    (hrun : run (happen hashes) events (new config) = some index) :
    Views hashes False index := by
  have hevery := everyState_of_everyStep (Views hashes False) leavesIds
    (fun _ _ _ h hids hstep => views_happen h hids hstep) events _
    (views_new hashes False config) hids
  exact hevery.last events _ index hrun

/-! ## §5. What is recorded, and what is found -/

/-- The facts read have the fingerprints they had. -/
def Unchanged (prints prints' : Prints) (hash : FactContent → BitVec 64)
    (index index' : LuaModuleIndex) (reads : List FactKey) : Prop :=
  ∀ key ∈ reads,
    index.factFingerprint prints hash key = index'.factFingerprint prints' hash key

/-- The fingerprints of the facts read do not collide. -/
def CollisionFree (prints prints' : Prints) (hash : FactContent → BitVec 64)
    (index index' : LuaModuleIndex) (reads : List FactKey) : Prop :=
  ∀ key ∈ reads,
    index.factFingerprint prints hash key = index'.factFingerprint prints' hash key →
      index.factContent prints key = index'.factContent prints' key

/-- **What a lookup records does not determine what it finds.**  Between two reachable indexes
    that are configured alike, a lookup of a module whose facts are unchanged finds the same
    file exactly where, of the modules that stand best, the one registered first stays first;
    a lookup of a legacy namespace whose facts are unchanged finds the same. -/
theorem lookups_determined (hashes : Hashes) (config config' : Config)
    (events events' : List Event) (index index' : LuaModuleIndex) (prints prints' : Prints)
    (hash : FactContent → BitVec 64)
    (hids : everyStep (happen hashes) leavesIds events (LuaModuleIndex.new config) = true)
    (hids' : everyStep (happen hashes) leavesIds events' (LuaModuleIndex.new config') = true)
    (hrun : run (happen hashes) events (LuaModuleIndex.new config) = some index)
    (hrun' : run (happen hashes) events' (LuaModuleIndex.new config') = some index')
    (hconfig : index'.config = index.config) :
    (∀ q : Query, Unchanged prints prints' hash index index' (ask index q).reads →
      CollisionFree prints prints' hash index index' (ask index q).reads →
      ((ask index q).found = (ask index' q).found ↔
        KeepsFirst (registered index.fileModulePaths) (registered index'.fileModulePaths)
          (contenders index q.modulePath (q.workspace index)))) ∧
    ∀ (file : FileId) (name : Text)
      (entries entries' : List (Sigma fun _ : FileId => List LegacyModuleEnv)),
      entries.Perm index.legacyModuleEnvs.entries →
      entries'.Perm index'.legacyModuleEnvs.entries →
      Unchanged prints prints' hash index index'
        (index.hasLegacyModuleNamespaceForFile entries file name).reads →
      CollisionFree prints prints' hash index index'
        (index.hasLegacyModuleNamespaceForFile entries file name).reads →
      (index.hasLegacyModuleNamespaceForFile entries file name).found =
        (index'.hasLegacyModuleNamespaceForFile entries' file name).found := by
  have h := views_run hashes config events index hids hrun
  have h' := views_run hashes config' events' index' hids' hrun'
  constructor
  · intro q hsame hfree
    exact ask_found_eq_iff h h' hconfig q fun key hkey => hfree key hkey (hsame key hkey)
  · intro file name entries entries' hentries hentries' hsame hfree
    exact hasLegacyModuleNamespaceForFile_found_eq hconfig file name hentries hentries'
      fun key hkey => hfree key hkey (hsame key hkey)

/-! ## §6. A file that moves before another -/

/-- One workspace, and a second extension beside Lua's. -/
def twoExtensions : Config where
  modulePatterns := [stripEnd ['/', 'i', 'n', 'i', 't', '.', 'l', 'u', 'a'],
    stripEnd ['.', 'g', 'l', 'u', 'a'], stripEnd ['.', 'l', 'u', 'a']]
  workspaces := [⟨['/', 'r'], none, WorkspaceId.MAIN, .Main⟩]
  workspaceKindMap := (∅ : HashMap WorkspaceId WorkspaceKind).insert WorkspaceId.MAIN .Main
  fuzzySearch := true
  moduleReplaceVec := []
  workspaceIsolationEnabled := true

def unhashed : Hashes where
  types := LuaType.plainHashing
  entry := fun _ => 1

def noPrints : Prints := ⟨fun _ => 0, fun _ => 0, fun _ => 0⟩

/-- Two files of one module. -/
def twoFiles : List Event :=
  [.module (.addModuleByPath ⟨1⟩ ['/', 'r', '/', 'a', '.', 'l', 'u', 'a']),
    .module (.addModuleByPath ⟨2⟩
      ['/', 'r', '/', 'a', '/', 'i', 'n', 'i', 't', '.', 'l', 'u', 'a'])]

/-- The second declares an environment. -/
def secondDeclares : List Event :=
  twoFiles ++ [.module (.setLegacyModuleEnv ⟨2⟩ ⟨['b'], 0, true⟩)]

/-- The second moves to a path before the first one's. -/
def secondMoves : List Event :=
  twoFiles ++ [.module (.repathModule ⟨2⟩ ['/', 'r', '/', 'a', '.', 'g', 'l', 'u', 'a'])]

def reached (events : List Event) : LuaModuleIndex :=
  (run (happen unhashed) events (LuaModuleIndex.new twoExtensions)).getD
    (LuaModuleIndex.new twoExtensions)

theorem reads_twoFiles : (ask (reached twoFiles) (.findModule ['a'])).reads =
    [.ModulePath ['a'], .Module ⟨1⟩] := by decide +kernel

/-- The rows under a path and the module found say what the facts recorded cover. -/
theorem factContent_twoFiles (index' : LuaModuleIndex)
    (hrows : (reached twoFiles).rowsNamed (lookupName ['a'])
        (fun info => decide (info.fullModuleName = ['a'])) =
      index'.rowsNamed (lookupName ['a']) fun info => decide (info.fullModuleName = ['a']))
    (hmodule : (reached twoFiles).factContent noPrints (.Module ⟨1⟩) =
      index'.factContent noPrints (.Module ⟨1⟩)) :
    ∀ key ∈ (ask (reached twoFiles) (.findModule ['a'])).reads,
      (reached twoFiles).factContent noPrints key = index'.factContent noPrints key := by
  intro key hkey
  rw [reads_twoFiles] at hkey
  obtain rfl | hkey := List.mem_cons.1 hkey
  · show namedModules _ _ _ = namedModules _ _ _
    unfold namedModules
    rw [hrows]
  · obtain rfl := List.mem_singleton.1 hkey
    exact hmodule

theorem unchanged_of_factContent {prints prints' : Prints} {reads : List FactKey}
    (h : ∀ key ∈ reads, index.factContent prints key = index'.factContent prints' key)
    (hash : FactContent → BitVec 64) :
    Unchanged prints prints' hash index index' reads ∧
      CollisionFree prints prints' hash index index' reads := by
  refine ⟨?_, fun key hkey _ => h key hkey⟩
  intro key hkey
  unfold factFingerprint
  rw [h key hkey]

theorem lookups_determined_secondDeclares :
    (ask (reached twoFiles) (.findModule ['a'])).found =
      (ask (reached secondDeclares) (.findModule ['a'])).found := by
  have hsame := unchanged_of_factContent (factContent_twoFiles (reached secondDeclares)
    (by decide +kernel) (by decide +kernel)) fun _ => 1
  have hdetermined := lookups_determined unhashed twoExtensions twoExtensions twoFiles
    secondDeclares (reached twoFiles) (reached secondDeclares) noPrints noPrints (fun _ => 1)
    (by decide +kernel) (by decide +kernel) rfl rfl rfl
  exact (hdetermined.1 (.findModule ['a']) hsame.1 hsame.2).2 (by decide +kernel)

/-- **A move goes unseen**: the facts the lookup recorded are unchanged, and it finds another
    file. -/
theorem moved_file_unseen :
    (everyStep (happen unhashed) leavesIds twoFiles (LuaModuleIndex.new twoExtensions) = true ∧
      everyStep (happen unhashed) leavesIds secondMoves (LuaModuleIndex.new twoExtensions) = true) ∧
    (run (happen unhashed) twoFiles (LuaModuleIndex.new twoExtensions) =
        some (reached twoFiles) ∧
      run (happen unhashed) secondMoves (LuaModuleIndex.new twoExtensions) =
        some (reached secondMoves)) ∧
    (reached secondMoves).config = (reached twoFiles).config ∧
    (∀ hash : FactContent → BitVec 64,
      Unchanged noPrints noPrints hash (reached twoFiles) (reached secondMoves)
        (ask (reached twoFiles) (.findModule ['a'])).reads ∧
      CollisionFree noPrints noPrints hash (reached twoFiles) (reached secondMoves)
        (ask (reached twoFiles) (.findModule ['a'])).reads) ∧
    (ask (reached twoFiles) (.findModule ['a'])).found = some ⟨1⟩ ∧
    (ask (reached secondMoves) (.findModule ['a'])).found = some ⟨2⟩ := by
  have hsame := factContent_twoFiles (reached secondMoves) (by decide +kernel) (by decide +kernel)
  refine ⟨⟨?_, ?_⟩, ⟨rfl, rfl⟩, rfl, unchanged_of_factContent hsame, ?_, ?_⟩
  · decide +kernel
  · decide +kernel
  · decide +kernel
  · decide +kernel

end GluaLs.Modules
