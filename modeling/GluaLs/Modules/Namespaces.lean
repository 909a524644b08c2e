/-
  GluaLs.Modules.Namespaces — lookups of legacy namespaces are determined by what they record.

  A lookup of a namespace records the namespace's root, and the workspace of every file it
  visits before it finds one.  The root covers which files have an environment below it.  So a
  file that was found is found again, and where none was found every file with an environment
  was visited.
-/
import GluaLs.Lib.TieBreak
import GluaLs.Modules.Choice

namespace GluaLs.Modules

open GluaLs.Lib GluaLs.Lib.TieBreak GluaLs.Types LuaModuleIndex Config

/-! ## §1. Standings

  The choices of a lookup all do the same.  A module STANDS in a lookup by how near its name is
  to the path and by how near its workspace is (`exactStanding`, `fuzzyStanding`); of those
  that stand alike the one that was registered first is taken, by its file's path
  (`registered`).  Each of the four loops finds the best by these two (`finds_select`,
  `finds_fuzzyChoice`).
-/

/-- A module as `module_files_entry` has it: its file, its name and its workspace. -/
abbrev ModuleEntry : Type := FileId × Text × WorkspaceId

def Candidate.entry (c : Candidate) : ModuleEntry := (c.fileId, c.fullModuleName, c.workspaceId)

/-- Where a file was registered from, its name and its id. -/
def registered (paths : HashMap FileId Text) (e : ModuleEntry) :
    Bool ×ₗ (WithBot Text ×ₗ (Text ×ₗ Nat)) :=
  Config.registrationKey ⟨e.1, e.2.1, e.2.2, paths.lookup e.1⟩

/-- How near a name is to the path, and how near a workspace is. -/
abbrev Rank : Type := (Nat ×ₗ Text) ×ₗ (Nat ×ₗ (Bool ×ₗ (Nat ×ₗ Nat)))

namespace Config

variable (config : Config)

/-- How near a module's workspace is. -/
def tier (workspace : Option WorkspaceId) (e : ModuleEntry) :
    Option (Nat ×ₗ (Bool ×ₗ (Nat ×ₗ Nat))) :=
  match workspace with
  | none => some (toLex (config.workspaceKindPriority e.2.2,
      toLex (false, config.workspaceOrderPriority e.2.2)))
  | some current => (config.workspaceResolutionPriority current e.2.2).map fun priority =>
    toLex (priority, toLex (decide (e.2.2 ≠ current), config.workspaceOrderPriority e.2.2))

/-- The standing of a module whose name is `near`, if its workspace is seen. -/
def standingAt (near : Nat ×ₗ Text) (workspace : Option WorkspaceId) (e : ModuleEntry) :
    WithTop Rank :=
  match config.tier workspace e with
  | none => ⊤
  | some tier => ((toLex (near, tier) : Rank) : WithTop Rank)

/-- The standing among the modules of a path. -/
def exactStanding (workspace : Option WorkspaceId) (e : ModuleEntry) : WithTop Rank :=
  config.standingAt (toLex (0, [])) workspace e

/-- The standing among the modules that end in a path. -/
def fuzzyStanding (path : Text) (workspace : Option WorkspaceId) (e : ModuleEntry) : WithTop Rank :=
  match workspace with
  | none =>
    match leadingSegmentCount path e.2.1 with
    | none => ⊤
    | some leading => config.standingAt (toLex (leading, e.2.1)) none e
  | some current => if endsIn path e.2.1 then config.exactStanding (some current) e else ⊤

end Config

/-! ## §2. The loops find the best -/

/-- A key that ends in a tie-break orders by what comes before it, and then by the tie-break. -/
theorem lex_spread {A B C D T : Type} [LinearOrder A] [LinearOrder B] [LinearOrder C]
    [LinearOrder D] [LinearOrder T] {a a' : A} {b b' : B} {c c' : C} {d d' : D} {t t' : T}
    (h : toLex (a, toLex (b, toLex (c, toLex (d, t)))) ≤
      toLex (a', toLex (b', toLex (c', toLex (d', t'))))) :
    toLex (a, toLex (b, toLex (c, d))) ≤ toLex (a', toLex (b', toLex (c', d'))) ∧
      (toLex (a', toLex (b', toLex (c', d'))) = toLex (a, toLex (b, toLex (c, d))) →
        t ≤ t') := by
  simp only [Prod.Lex.toLex_le_toLex, toLex_inj, Prod.mk.injEq] at h ⊢
  grind

/-- What does not differ can be put in front. -/
theorem toLex_le_of_le {A B : Type} [LinearOrder A] [LinearOrder B] (a : A) {b b' : B}
    (h : b ≤ b') : toLex (a, b) ≤ toLex (a, b') :=
  Prod.Lex.toLex_le_toLex.2 (.inr ⟨rfl, h⟩)

section

variable (config : Config)

theorem globalKey_le (c c' : Candidate) (h : config.globalKey c ≤ config.globalKey c') :
    toLex (config.workspaceKindPriority c.workspaceId, toLex (false,
        toLex (config.workspaceOrderPriority c.workspaceId, registrationKey c))) ≤
      toLex (config.workspaceKindPriority c'.workspaceId, toLex (false,
        toLex (config.workspaceOrderPriority c'.workspaceId, registrationKey c'))) := by
  unfold globalKey at h
  rw [Prod.Lex.toLex_le_toLex] at h ⊢
  obtain hlt | ⟨heq, hle⟩ := h
  · exact .inl hlt
  · exact .inr ⟨heq, toLex_le_of_le false hle⟩

/-- Standings are compared as the keys are. -/
theorem standingAt_of_le {near near' : Nat ×ₗ Text} {workspace : Option WorkspaceId}
    {e e' : ModuleEntry} {k k' : Nat} {b b' : Bool} {order order' : Nat ×ₗ Nat}
    {T : Type} [LinearOrder T] {t t' : T}
    (htier : config.tier workspace e = some (toLex (k, toLex (b, order))))
    (htier' : config.tier workspace e' = some (toLex (k', toLex (b', order'))))
    (h : toLex (near, toLex (k, toLex (b, toLex (order, t)))) ≤
      toLex (near', toLex (k', toLex (b', toLex (order', t'))))) :
    config.standingAt near workspace e ≤ config.standingAt near' workspace e' ∧
      (config.standingAt near' workspace e' = config.standingAt near workspace e → t ≤ t') := by
  unfold standingAt
  rw [htier, htier']
  show ((_ : Rank) : WithTop Rank) ≤ ((_ : Rank) : WithTop Rank) ∧
    (((_ : Rank) : WithTop Rank) = ((_ : Rank) : WithTop Rank) → _)
  rw [WithTop.coe_le_coe, WithTop.coe_inj]
  exact lex_spread h

theorem finds_selectModuleGlobally (l : List Candidate) :
    Finds (fun c => config.exactStanding none c.entry) registrationKey l
      (config.selectModuleGlobally l) := by
  unfold selectModuleGlobally
  rw [keepBest_eq_argmin _ _ (isCandidateBetterGlobal_iff config)]
  apply finds_argmin
  · exact fun c => WithTop.coe_ne_top
  · intro c c' hle
    exact standingAt_of_le config rfl rfl (toLex_le_of_le _ (globalKey_le config c c' hle))

theorem tier_eq_none_iff (current : WorkspaceId) (e : ModuleEntry) :
    config.workspaceResolutionPriority current e.2.2 = none ↔
      config.tier (some current) e = none := by
  unfold tier
  rw [Option.map_eq_none_iff]

theorem standingAt_eq_top_iff (near : Nat ×ₗ Text) (workspace : Option WorkspaceId)
    (e : ModuleEntry) :
    config.standingAt near workspace e = ⊤ ↔ config.tier workspace e = none := by
  unfold standingAt
  cases config.tier workspace e with
  | none => exact ⟨fun _ => rfl, fun _ => rfl⟩
  | some tier => exact ⟨fun h => absurd h WithTop.coe_ne_top, fun h => by cases h⟩

theorem finds_selectModuleForWorkspace (current : WorkspaceId) (l : List Candidate) :
    Finds (fun c => config.exactStanding (some current) c.entry) registrationKey l
      (config.selectModuleForWorkspace current l) := by
  unfold selectModuleForWorkspace ranked
  rw [keepBest_eq_argmin _ _ (betterRanked_iff config current)]
  apply finds_argmin_paired
  · intro c
    rw [exactStanding, standingAt_eq_top_iff, ← tier_eq_none_iff]
    exact .rfl
  · intro c priority c' priority' h h' hle
    have htier : config.tier (some current) c.entry = some (toLex (priority, toLex
        (decide (c.workspaceId ≠ current), config.workspaceOrderPriority c.workspaceId))) := by
      show (config.workspaceResolutionPriority current c.workspaceId).map _ = _
      rw [h]
      rfl
    have htier' : config.tier (some current) c'.entry = some (toLex (priority', toLex
        (decide (c'.workspaceId ≠ current), config.workspaceOrderPriority c'.workspaceId))) := by
      show (config.workspaceResolutionPriority current c'.workspaceId).map _ = _
      rw [h']
      rfl
    exact standingAt_of_le config htier htier' (toLex_le_of_le _ hle)

theorem fuzzyStanding_of_some {path : Text} {e : ModuleEntry} {leading : Nat}
    (h : leadingSegmentCount path e.2.1 = some leading) :
    config.fuzzyStanding path none e = config.standingAt (toLex (leading, e.2.1)) none e := by
  unfold fuzzyStanding
  rw [h]

theorem fuzzyStanding_eq_top_iff (path : Text) (e : ModuleEntry) :
    config.fuzzyStanding path none e = ⊤ ↔ leadingSegmentCount path e.2.1 = none := by
  cases h : leadingSegmentCount path e.2.1 with
  | none =>
    refine ⟨fun _ => rfl, fun _ => ?_⟩
    unfold fuzzyStanding
    rw [h]
  | some leading =>
    rw [fuzzyStanding_of_some config h]
    exact ⟨fun htop => absurd htop WithTop.coe_ne_top, fun hnone => by cases hnone⟩

theorem finds_fuzzySelect (path : Text) (l : List Candidate) :
    Finds (fun c => config.fuzzyStanding path none c.entry) registrationKey l
      (config.fuzzySelect path l) := by
  unfold fuzzySelect
  rw [keepBest_eq_argmin _ _ (fuzzyBetter_iff config)]
  apply finds_argmin_paired
  · exact fun c => (fuzzyStanding_eq_top_iff config path c.entry).symm
  · intro c leading c' leading' h h' hle
    rw [fuzzyStanding_of_some config (e := c.entry) h,
      fuzzyStanding_of_some config (e := c'.entry) h']
    apply standingAt_of_le config rfl rfl
    unfold fuzzyKey at hle
    rw [Prod.Lex.toLex_le_toLex] at hle ⊢
    obtain hlt | ⟨heq, hle⟩ := hle
    · exact .inl hlt
    · exact .inr ⟨heq, globalKey_le config c c' hle⟩

theorem finds_fuzzySelectForWorkspace (path : Text) (current : WorkspaceId) (l : List Candidate) :
    Finds (fun c => config.fuzzyStanding path (some current) c.entry) registrationKey l
      (config.fuzzySelectForWorkspace path current l) :=
  finds_filter (finds_selectModuleForWorkspace config current _)

end

section

variable {index : LuaModuleIndex}

/-- **The loops over the modules of a path find the best of them.** -/
theorem finds_select (index : LuaModuleIndex) (workspace : Option WorkspaceId)
    (l : List Candidate) :
    Finds (fun c => index.config.exactStanding workspace c.entry) registrationKey l
      (index.select workspace l) := by
  cases workspace with
  | none => exact finds_selectModuleGlobally index.config l
  | some current => exact finds_selectModuleForWorkspace index.config current l

/-- **The loops over the modules of a name find the best of them.** -/
theorem finds_fuzzyChoice (config : Config) (path : Text) (workspace : Option WorkspaceId)
    (l : List Candidate) :
    Finds (fun c => config.fuzzyStanding path workspace c.entry) registrationKey l
      (fuzzyChoice config path workspace l) := by
  cases workspace with
  | none => exact finds_fuzzySelect config path l
  | some current => exact finds_fuzzySelectForWorkspace config path current l

end

open GluaLs.Lib.Buckets GluaLs.Edit

/-! ## §3. Fingerprints

  A fact's fingerprint is a hash of what the index holds under its key: the modules of a name,
  of a path, one module, the legacy namespaces below a root.  The hash goes through positions
  as they were before the edits at hand, so what it makes of an export, a declaration or a
  list of environments may differ between two times it is taken (`Prints`).

  Two fingerprints that do not collide are equal exactly if they cover the same.  What that
  says of two indexes is read off here, fact by fact.
-/

/-- What the hash makes of the parts that hold positions. -/
structure Prints where
  exportType : Option LuaType → BitVec 64
  semanticId : Option LuaSemanticDeclId → BitVec 64
  envs : Option (List LegacyModuleEnv) → BitVec 64

/-- A module as its own fact covers it. -/
structure ModuleContent where
  fullModuleName : Text
  name : Text
  visible : Bool
  exportType : BitVec 64
  versionConds : Option (List LuaVersionCondition)
  workspaceId : WorkspaceId
  semanticId : BitVec 64
  isMeta : Bool
  deriving DecidableEq

/-- A module as the facts of its name and of its path cover it. -/
structure NamedRow where
  fileId : FileId
  fullModuleName : Text
  visible : Bool
  workspaceId : WorkspaceId
  versionConds : Option (List LuaVersionCondition)
  deriving DecidableEq

def NamedRow.entry (row : NamedRow) : ModuleEntry :=
  (row.fileId, row.fullModuleName, row.workspaceId)

/-- What a fingerprint covers. -/
inductive FactContent where
  | module (info : Option ModuleContent) (path : Option Text) (envs : BitVec 64)
  | moduleMeta (info : Option (WorkspaceId × Bool)) (envs : BitVec 64)
  | named (modules : List NamedRow)
  | namespaceEnvs (envs : List (FileId × Text))
  deriving DecidableEq

namespace LuaModuleIndex

variable (index : LuaModuleIndex)

def namedRow (info : ModuleInfo) : NamedRow :=
  ⟨info.fileId, info.fullModuleName, info.visible, info.workspaceId, info.versionConds⟩

/-- The modules of a name that a filter keeps. -/
def rowsNamed (name : Text) (keep : ModuleInfo → Bool) : List NamedRow :=
  (((listOf index.moduleNameToFileIds name).filterMap index.fileModuleMap.lookup).filter
    keep).map namedRow

/-- `named_modules_fingerprint`; nothing under the name and nothing kept are both `ABSENT`. -/
def namedModules (name : Text) (keep : ModuleInfo → Bool) : Option FactContent :=
  if index.rowsNamed name keep = [] then none
  else some (.named ((index.rowsNamed name keep).mergeSort
    fun a b => decide (a.fileId.id.toNat ≤ b.fileId.id.toNat)))

/-- The environments below a root. -/
def envsBelow (root : Text) : List (FileId × Text) :=
  index.legacyModuleEnvs.entries.flatMap fun entry =>
    (entry.2.filter fun env => namespaceRoot env.modulePath = root).map fun env =>
      (entry.1, env.modulePath)

/-- What `fact_fingerprint` hashes; nothing is `ABSENT`. -/
def factContent (prints : Prints) : FactKey → Option FactContent
  | .Module file =>
    let info := index.fileModuleMap.lookup file
    let envs := index.legacyModuleEnvs.lookup file
    if info.isNone && envs.isNone then none
    else some (.module (info.map fun info =>
        ⟨info.fullModuleName, info.name, info.visible, prints.exportType info.exportType,
          info.versionConds, info.workspaceId, prints.semanticId info.semanticId,
          info.isMeta⟩)
      (index.fileModulePaths.lookup file) (prints.envs envs))
  | .ModuleMeta file =>
    let info := index.fileModuleMap.lookup file
    let envs := index.legacyModuleEnvs.lookup file
    if info.isNone && envs.isNone then none
    else some (.moduleMeta (info.map fun info => (info.workspaceId, info.isMeta))
      (prints.envs envs))
  | .ModuleName name => index.namedModules name fun _ => true
  | .ModulePath path =>
    index.namedModules (lookupName path) fun info => decide (info.fullModuleName = path)
  | .ModuleNamespace root =>
    if index.envsBelow root = [] then none
    else some (.namespaceEnvs ((index.envsBelow root).mergeSort fun a b =>
      decide (toLex (a.1.id.toNat, a.2) ≤ toLex (b.1.id.toNat, b.2))))

/-- `fact_fingerprint`, by the hash of what is covered. -/
def factFingerprint (prints : Prints) (hash : FactContent → BitVec 64) (key : FactKey) :
    BitVec 64 :=
  match index.factContent prints key with
  | none => 0
  | some content => hash content

end LuaModuleIndex

/-! ## §4. What is recorded -/

/-- The modules the index knows of. -/
def entriesOf (index : LuaModuleIndex) : List ModuleEntry :=
  index.fileModuleMap.entries.map fun entry => moduleFilesEntry entry.2

/-- The last part of a module's path. -/
def lastPart (path : Text) : Text := (moduleParts path).getLastD []

section

variable {index index' : LuaModuleIndex}

theorem mem_entriesOf (e : ModuleEntry) : e ∈ entriesOf index ↔
    ∃ file info, index.fileModuleMap.lookup file = some info ∧ moduleFilesEntry info = e := by
  unfold entriesOf
  rw [List.mem_map]
  constructor
  · intro h
    obtain ⟨⟨file, info⟩, hmem, he⟩ := h
    exact ⟨file, info, (mem_entries_iff _ _ _).1 hmem, he⟩
  · intro h
    obtain ⟨file, info, hlookup, he⟩ := h
    exact ⟨⟨file, info⟩, (mem_entries_iff _ _ _).2 hlookup, he⟩

section

variable (h : Placed index.moduleNodes index.fileModuleMap)
include h

/-- A file is one module. -/
theorem entriesOf_inj (e e' : ModuleEntry)
    (he : e ∈ entriesOf index) (he' : e' ∈ entriesOf index) (hfile : e.1 = e'.1) : e = e' := by
  obtain ⟨file, info, hinfo, rfl⟩ := (mem_entriesOf e).1 he
  obtain ⟨file', info', hinfo', rfl⟩ := (mem_entriesOf e').1 he'
  have hsame : file = file' := by
    rw [← h.own file info hinfo, ← h.own file' info' hinfo']
    exact hfile
  rw [hsame, hinfo'] at hinfo
  rw [Option.some.inj hinfo]

/-- The candidates listed at a node are the modules of its path. -/
theorem mem_entries_filesAt (path : Text) (e : ModuleEntry) :
    e ∈ (index.candidates (filesAt index.moduleNodes (moduleParts path))).map Candidate.entry ↔
      e ∈ (entriesOf index).filter fun e => decide (e.2.1 = path) := by
  rw [List.mem_map, List.mem_filter, mem_entriesOf, decide_eq_true_iff]
  constructor
  · intro hc
    obtain ⟨c, hc, rfl⟩ := hc
    obtain ⟨file, hc, hparts⟩ := (mem_candidates_filesAt h _ c).1 hc
    obtain ⟨info, hinfo, rfl⟩ := Option.map_eq_some_iff.1 hc
    exact ⟨⟨file, info, hinfo, rfl⟩, moduleParts_inj _ _ hparts⟩
  · intro he
    obtain ⟨⟨file, info, hinfo, rfl⟩, hpath⟩ := he
    refine ⟨index.candidate info, (mem_candidates_filesAt h _ _).2 ⟨file, ?_, ?_⟩, rfl⟩
    · unfold candidateOf
      rw [hinfo]
      rfl
    · show moduleParts info.fullModuleName = moduleParts path
      rw [show info.fullModuleName = path from hpath]

/-- The candidates of a name are the modules of that name. -/
theorem mem_entries_listOf
    (hnamed : Named index.moduleNameToFileIds index.fileModuleMap) (name : Text) (e : ModuleEntry) :
    e ∈ (index.candidates (listOf index.moduleNameToFileIds name)).map Candidate.entry ↔
      e ∈ (entriesOf index).filter fun e => decide (lastPart e.2.1 = name) := by
  rw [List.mem_map, List.mem_filter, mem_entriesOf, decide_eq_true_iff]
  constructor
  · intro hc
    obtain ⟨c, hc, rfl⟩ := hc
    obtain ⟨file, hc, hname⟩ := (mem_candidates_listOf h hnamed name c).1 hc
    obtain ⟨info, hinfo, rfl⟩ := Option.map_eq_some_iff.1 hc
    exact ⟨⟨file, info, hinfo, rfl⟩, hname⟩
  · intro he
    obtain ⟨⟨file, info, hinfo, rfl⟩, hname⟩ := he
    refine ⟨index.candidate info, (mem_candidates_listOf h hnamed name _).2 ⟨file, ?_, hname⟩, rfl⟩
    unfold candidateOf
    rw [hinfo]
    rfl

end

/-! ## §5. Equal contents -/

/-- The rows under a name are the modules of that name. -/
theorem mem_rowsNamed (h : Placed index.moduleNodes index.fileModuleMap)
    (hnamed : Named index.moduleNameToFileIds index.fileModuleMap) (name : Text)
    (keep : Text → Bool) (e : ModuleEntry) :
    (e ∈ entriesOf index ∧ lastPart e.2.1 = name ∧ keep e.2.1 = true) ↔
      ∃ row ∈ index.rowsNamed name fun info => keep info.fullModuleName, row.entry = e := by
  unfold rowsNamed
  constructor
  · intro he
    obtain ⟨hmem, hname, hkeep⟩ := he
    obtain ⟨file, info, hinfo, rfl⟩ := (mem_entriesOf e).1 hmem
    refine ⟨namedRow info, List.mem_map.2 ⟨info, List.mem_filter.2 ⟨?_, hkeep⟩, rfl⟩, rfl⟩
    apply List.mem_filterMap.2
    refine ⟨file, (hnamed.listed name file).2 ⟨info, hinfo, ?_⟩, hinfo⟩
    exact (h.named file info hinfo).trans hname
  · intro he
    obtain ⟨row, hrow, rfl⟩ := he
    obtain ⟨info, hmem, rfl⟩ := List.mem_map.1 hrow
    obtain ⟨hmem, hkeep⟩ := List.mem_filter.1 hmem
    obtain ⟨file, hfile, hinfo⟩ := List.mem_filterMap.1 hmem
    refine ⟨(mem_entriesOf _).2 ⟨file, info, hinfo, rfl⟩, ?_, hkeep⟩
    obtain ⟨info', hinfo', hname⟩ := (hnamed.listed name file).1 hfile
    rw [hinfo] at hinfo'
    rw [← Option.some.inj hinfo'] at hname
    exact (h.named file info hinfo).symm.trans hname

/-- A list that is sorted before it is hashed, unless it is empty. -/
theorem mem_iff_of_sorted_eq {A C : Type} [DecidableEq A] (f : List A → C)
    (hf : ∀ l l', f l = f l' → l = l') (le le' : A → A → Bool) {l l' : List A}
    (h : (if l = [] then none else some (f (l.mergeSort le))) =
      if l' = [] then none else some (f (l'.mergeSort le'))) (a : A) : a ∈ l ↔ a ∈ l' := by
  by_cases hl : l = []
  · by_cases hl' : l' = []
    · rw [hl, hl']
    · rw [if_pos hl, if_neg hl'] at h
      cases h
  · by_cases hl' : l' = []
    · rw [if_neg hl, if_pos hl'] at h
      cases h
    · rw [if_neg hl, if_neg hl'] at h
      have hsorted := hf _ _ (Option.some.inj h)
      rw [← List.mem_mergeSort, hsorted, List.mem_mergeSort]

theorem named_inj (l l' : List NamedRow) (h : FactContent.named l = .named l') : l = l' :=
  FactContent.named.inj h

/-- **The facts of names and paths cover which modules there are.** -/
theorem entries_of_namedModules_eq (h : Placed index.moduleNodes index.fileModuleMap)
    (hnamed : Named index.moduleNameToFileIds index.fileModuleMap)
    (h' : Placed index'.moduleNodes index'.fileModuleMap)
    (hnamed' : Named index'.moduleNameToFileIds index'.fileModuleMap) (name : Text)
    (keep : Text → Bool) (heq : (index.namedModules name fun info => keep info.fullModuleName) =
      index'.namedModules name fun info => keep info.fullModuleName) (e : ModuleEntry)
    (hname : lastPart e.2.1 = name) (hkeep : keep e.2.1 = true) :
    e ∈ entriesOf index ↔ e ∈ entriesOf index' := by
  have hrows := mem_iff_of_sorted_eq _ named_inj _ _ heq
  have hmem := mem_rowsNamed h hnamed name keep e
  have hmem' := mem_rowsNamed h' hnamed' name keep e
  simp only [hname, hkeep, and_true] at hmem hmem'
  rw [hmem, hmem']
  simp only [hrows]

/-- The workspace a content covers. -/
def contentWorkspace : Option FactContent → Option WorkspaceId
  | some (.moduleMeta info _) => info.map Prod.fst
  | _ => none

/-- The fact of a file's workspace covers the workspace. -/
theorem contentWorkspace_factContent (prints : Prints) (file : FileId) :
    contentWorkspace (index.factContent prints (.ModuleMeta file)) =
      (index.getWorkspaceId file).found := by
  unfold getWorkspaceId factContent
  dsimp only
  cases index.fileModuleMap.lookup file with
  | none =>
    split
    · rfl
    · rfl
  | some info => rfl

theorem getWorkspaceId_of_factContent_eq {prints prints' : Prints} {file : FileId}
    (heq : index.factContent prints (.ModuleMeta file) =
      index'.factContent prints' (.ModuleMeta file)) :
    (index.getWorkspaceId file).found = (index'.getWorkspaceId file).found := by
  rw [← contentWorkspace_factContent prints, heq, contentWorkspace_factContent]

end

/-! ## §6. Environments below a root -/

theorem namespaceRoot_append (name rest : Text) :
    namespaceRoot (name ++ '.' :: rest) = namespaceRoot name := by
  have hhead : ∀ name : Text, (moduleParts (name ++ '.' :: rest)).head? =
      (moduleParts name).head? := by
    intro name
    induction name with
    | nil => rfl
    | cons c name ih =>
      unfold moduleParts List.splitOn at ih ⊢
      rw [List.cons_append, List.splitOnP_cons_eq_if_modifyHead,
        List.splitOnP_cons_eq_if_modifyHead]
      split
      · rfl
      · rw [List.head?_modifyHead, List.head?_modifyHead, ih]
  unfold namespaceRoot
  rw [hhead]
  cases hparts : moduleParts name with
  | nil => exact absurd hparts (moduleParts_ne_nil name)
  | cons part parts => rfl

variable {index index' : LuaModuleIndex}

/-- An environment lies in a namespace by its path. -/
theorem inNamespace_congr (name : Text) {env env' : LegacyModuleEnv}
    (h : env'.modulePath = env.modulePath) : inNamespace name env' = inNamespace name env := by
  unfold inNamespace
  rw [h]

theorem namespaceRoot_of_inNamespace {name : Text} {env : LegacyModuleEnv}
    (h : inNamespace name env = true) : namespaceRoot env.modulePath = namespaceRoot name := by
  unfold inNamespace at h
  rw [Bool.or_eq_true, decide_eq_true_iff] at h
  obtain heq | hbelow := h
  · rw [heq]
  · unfold stripPre at hbelow
    split at hbelow
    · rename_i rest hstrip
      split at hstrip
      · rename_i hpre
        obtain ⟨tail, htail⟩ := List.isPrefixOf_iff_prefix.1 hpre
        rw [← htail] at hstrip ⊢
        rw [List.drop_left, Option.some.injEq] at hstrip
        rw [hstrip]
        cases rest with
        | nil => cases hbelow
        | cons c rest =>
          obtain rfl := Option.some.inj (of_decide_eq_true hbelow)
          exact namespaceRoot_append name rest
      · cases hstrip
    · cases hbelow

/-- A file has an environment of a path. -/
def HasEnv (index : LuaModuleIndex) (file : FileId) (path : Text) : Prop :=
  ∃ envs, index.legacyModuleEnvs.lookup file = some envs ∧ ∃ env ∈ envs, env.modulePath = path

theorem mem_envsBelow (root : Text) (file : FileId) (path : Text) :
    (file, path) ∈ index.envsBelow root ↔ HasEnv index file path ∧ namespaceRoot path = root := by
  unfold envsBelow HasEnv
  rw [List.mem_flatMap]
  constructor
  · intro h
    obtain ⟨entry, hentry, hpath⟩ := h
    obtain ⟨env, henv, heq⟩ := List.mem_map.1 hpath
    obtain ⟨henv, hroot⟩ := List.mem_filter.1 henv
    cases heq
    exact ⟨⟨entry.2, (mem_entries_iff _ _ _).1 hentry, env, henv, rfl⟩, of_decide_eq_true hroot⟩
  · intro h
    obtain ⟨⟨envs, hlookup, env, henv, rfl⟩, hroot⟩ := h
    refine ⟨⟨file, envs⟩, (mem_entries_iff _ _ _).2 hlookup, ?_⟩
    exact List.mem_map.2 ⟨env, List.mem_filter.2 ⟨henv, decide_eq_true hroot⟩, rfl⟩

/-- **The fact of a root covers which files have an environment below it.** -/
theorem hasEnv_of_factContent_eq {prints prints' : Prints} {root : Text}
    (heq : index.factContent prints (.ModuleNamespace root) =
      index'.factContent prints' (.ModuleNamespace root)) (file : FileId) (path : Text)
    (hroot : namespaceRoot path = root) : HasEnv index file path ↔ HasEnv index' file path := by
  have hmem := mem_iff_of_sorted_eq FactContent.namespaceEnvs
    (fun _ _ h => FactContent.namespaceEnvs.inj h) _ _ heq (file, path)
  rw [mem_envsBelow, mem_envsBelow] at hmem
  simpa only [hroot, and_true] using hmem

/-! ## §7. Lookups of namespaces -/

/-- A file has an environment in the namespace. -/
def InNamespace (index : LuaModuleIndex) (name : Text) (file : FileId) : Prop :=
  ∃ envs, index.legacyModuleEnvs.lookup file = some envs ∧ ∃ env ∈ envs, inNamespace name env = true

theorem inNamespace_of_factContent_eq {prints prints' : Prints} {name : Text}
    (heq : index.factContent prints (.ModuleNamespace (namespaceRoot name)) =
      index'.factContent prints' (.ModuleNamespace (namespaceRoot name))) (file : FileId) :
    InNamespace index name file → InNamespace index' name file := by
  intro h
  obtain ⟨envs, hlookup, env, henv, hin⟩ := h
  obtain ⟨envs', hlookup', env', henv', hpath⟩ := (hasEnv_of_factContent_eq heq file
    env.modulePath (namespaceRoot_of_inNamespace hin)).1 ⟨envs, hlookup, env, henv, rfl⟩
  exact ⟨envs', hlookup', env', henv', by rw [inNamespace_congr name hpath]; exact hin⟩

theorem hasLegacyModuleNamespace_iff (name : Text) :
    (index.hasLegacyModuleNamespace name).found = true ↔ ∃ file, InNamespace index name file := by
  unfold hasLegacyModuleNamespace InNamespace
  rw [List.any_eq_true]
  constructor
  · intro h
    obtain ⟨entry, hentry, hany⟩ := h
    exact ⟨entry.1, entry.2, (mem_entries_iff _ _ _).1 hentry, List.any_eq_true.1 hany⟩
  · intro h
    obtain ⟨file, envs, hlookup, hany⟩ := h
    exact ⟨⟨file, envs⟩, (mem_entries_iff _ _ _).2 hlookup, List.any_eq_true.2 hany⟩

/-- A workspace sees another. -/
def SeesWorkspace (index : LuaModuleIndex) (current : WorkspaceId) (file : FileId) : Prop :=
  ∃ workspace, (index.getWorkspaceId file).found = some workspace ∧
    (index.config.workspaceResolutionPriority current workspace).isSome

theorem seesNamespace_iff (current : WorkspaceId) (name : Text) (file : FileId)
    (envs : List LegacyModuleEnv) :
    index.seesNamespace current name file envs = true ↔
      SeesWorkspace index current file ∧ ∃ env ∈ envs, inNamespace name env = true := by
  unfold seesNamespace SeesWorkspace
  cases (index.getWorkspaceId file).found with
  | none => simp
  | some workspace => simp

section

variable (current : WorkspaceId) (name : Text)
  (entries : List (Sigma fun _ : FileId => List LegacyModuleEnv))

/-- What a workspace sees of a namespace. -/
theorem anyNamespace_iff :
    (index.anyNamespace current name entries).found = true ↔
      ∃ entry ∈ entries, index.seesNamespace current name entry.1 entry.2 = true := by
  induction entries with
  | nil => simp [anyNamespace]
  | cons entry entries ih =>
    unfold anyNamespace
    by_cases hsees : index.seesNamespace current name entry.1 entry.2 = true
    · rw [if_pos hsees]
      exact ⟨fun _ => ⟨entry, .head _, hsees⟩, fun _ => rfl⟩
    · rw [if_neg hsees]
      simp only [List.mem_cons, exists_eq_or_imp]
      exact ih.trans ⟨.inr, fun h => h.resolve_left hsees⟩

/-- The workspace of a file that is found is recorded. -/
theorem reads_of_found (h : (index.anyNamespace current name entries).found = true) :
    ∃ entry ∈ entries, index.seesNamespace current name entry.1 entry.2 = true ∧
      FactKey.ModuleMeta entry.1 ∈ (index.anyNamespace current name entries).reads := by
  induction entries with
  | nil => cases h
  | cons entry entries ih =>
    unfold anyNamespace at h ⊢
    by_cases hsees : index.seesNamespace current name entry.1 entry.2 = true
    · rw [if_pos hsees]
      exact ⟨entry, .head _, hsees, .head _⟩
    · rw [if_neg hsees] at h ⊢
      obtain ⟨found, hmem, hfound, hread⟩ := ih h
      exact ⟨found, .tail entry hmem, hfound, List.mem_append_right _ hread⟩

/-- Where none is found, every file's workspace is recorded. -/
theorem reads_of_not_found (h : (index.anyNamespace current name entries).found = false) :
    ∀ entry ∈ entries,
      FactKey.ModuleMeta entry.1 ∈ (index.anyNamespace current name entries).reads := by
  induction entries with
  | nil => exact nofun
  | cons first entries ih =>
    intro entry hentry
    unfold anyNamespace at h ⊢
    by_cases hsees : index.seesNamespace current name first.1 first.2 = true
    · rw [if_pos hsees] at h
      cases h
    · rw [if_neg hsees] at h ⊢
      obtain rfl | hentry := List.mem_cons.1 hentry
      · exact List.mem_append_left _ (.head _)
      · exact List.mem_append_right _ (ih h entry hentry)

end

theorem seesWorkspace_of_factContent_eq {prints prints' : Prints} {file : FileId}
    (hconfig : index'.config = index.config) (heq : index.factContent prints (.ModuleMeta file) =
      index'.factContent prints' (.ModuleMeta file)) (current : WorkspaceId) :
    SeesWorkspace index current file ↔ SeesWorkspace index' current file := by
  unfold SeesWorkspace
  rw [getWorkspaceId_of_factContent_eq heq, hconfig]

section

variable {prints prints' : Prints} (hconfig : index'.config = index.config)
  {entries entries' : List (Sigma fun _ : FileId => List LegacyModuleEnv)}
include hconfig

/-- What a workspace sees of a namespace, by what was recorded of it. -/
theorem anyNamespace_found_eq {name : Text} (current : WorkspaceId)
    (hentries : entries.Perm index.legacyModuleEnvs.entries)
    (hentries' : entries'.Perm index'.legacyModuleEnvs.entries)
    (hroot : index.factContent prints (.ModuleNamespace (namespaceRoot name)) =
      index'.factContent prints' (.ModuleNamespace (namespaceRoot name)))
    (hreads : ∀ key ∈ (index.anyNamespace current name entries).reads,
      index.factContent prints key = index'.factContent prints' key) :
    (index.anyNamespace current name entries).found =
      (index'.anyNamespace current name entries').found := by
  cases hfound : (index.anyNamespace current name entries).found with
  | true =>
    obtain ⟨entry, hentry, hsees, hread⟩ := reads_of_found current name entries hfound
    rw [seesNamespace_iff] at hsees
    have hlookup := (mem_entries_iff _ _ _).1 (hentries.mem_iff.1 hentry)
    obtain ⟨envs', hlookup', hany'⟩ := inNamespace_of_factContent_eq hroot entry.1
      ⟨entry.2, hlookup, hsees.2⟩
    apply Eq.symm
    rw [anyNamespace_iff]
    refine ⟨⟨entry.1, envs'⟩, hentries'.mem_iff.2 ((mem_entries_iff _ _ _).2 hlookup'), ?_⟩
    rw [seesNamespace_iff]
    exact ⟨(seesWorkspace_of_factContent_eq hconfig (hreads _ hread) current).1 hsees.1, hany'⟩
  | false =>
    apply Eq.symm
    rw [← Bool.not_eq_true, anyNamespace_iff]
    intro h
    obtain ⟨entry, hentry, hsees⟩ := h
    rw [seesNamespace_iff] at hsees
    have hlookup := (mem_entries_iff _ _ _).1 (hentries'.mem_iff.1 hentry)
    obtain ⟨envs, hlookup', hany⟩ := inNamespace_of_factContent_eq hroot.symm entry.1
      ⟨entry.2, hlookup, hsees.2⟩
    have hmem : (⟨entry.1, envs⟩ : Sigma fun _ : FileId => List LegacyModuleEnv) ∈ entries :=
      hentries.mem_iff.2 ((mem_entries_iff _ _ _).2 hlookup')
    have hread := reads_of_not_found current name entries hfound _ hmem
    have hsees' : index.seesNamespace current name entry.1 envs = true :=
      (seesNamespace_iff current name entry.1 envs).2
        ⟨(seesWorkspace_of_factContent_eq hconfig (hreads _ hread) current).2 hsees.1, hany⟩
    have htrue := (anyNamespace_iff current name entries).2 ⟨_, hmem, hsees'⟩
    rw [hfound] at htrue
    cases htrue

/-- **Lookups of namespaces are determined by what they record**, in whatever order the files
    are gone through. -/
theorem hasLegacyModuleNamespaceForFile_found_eq (file : FileId) (name : Text)
    (hentries : entries.Perm index.legacyModuleEnvs.entries)
    (hentries' : entries'.Perm index'.legacyModuleEnvs.entries)
    (hreads : ∀ key ∈ (index.hasLegacyModuleNamespaceForFile entries file name).reads,
      index.factContent prints key = index'.factContent prints' key) :
    (index.hasLegacyModuleNamespaceForFile entries file name).found =
      (index'.hasLegacyModuleNamespaceForFile entries' file name).found := by
  unfold hasLegacyModuleNamespaceForFile at hreads ⊢
  dsimp only at hreads ⊢
  have hfirst : ∀ key ∈ .ModuleNamespace (namespaceRoot name) :: (index.getWorkspaceId file).reads,
      index.factContent prints key = index'.factContent prints' key :=
    fun key hkey => hreads key (by split <;> exact List.mem_append_left _ hkey)
  have hroot := hfirst _ (.head _)
  have hmeta := hfirst (.ModuleMeta file) (.tail _ (.head _))
  rw [← getWorkspaceId_of_factContent_eq hmeta]
  cases hworkspace : (index.getWorkspaceId file).found with
  | none =>
    rw [Bool.eq_iff_iff, hasLegacyModuleNamespace_iff, hasLegacyModuleNamespace_iff]
    constructor
    · intro h
      obtain ⟨other, hother⟩ := h
      exact ⟨other, inNamespace_of_factContent_eq hroot other hother⟩
    · intro h
      obtain ⟨other, hother⟩ := h
      exact ⟨other, inNamespace_of_factContent_eq hroot.symm other hother⟩
  | some current =>
    rw [hworkspace] at hreads
    apply anyNamespace_found_eq hconfig current hentries hentries' hroot
    intro key hkey
    exact hreads key (.tail _ (List.mem_append_right _ hkey))

end

end GluaLs.Modules
