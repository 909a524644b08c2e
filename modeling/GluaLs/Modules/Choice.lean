/-
  GluaLs.Modules.Choice — what a lookup finds does not depend on the order of registration.

  A choice keeps the candidate whose KEY is least (`keepBest_eq_argmin`), and no two candidates
  have one key: it ends in the file's id.  So a choice depends on which candidates there are,
  and not on the order they are listed in (`select_congr`).  Which candidates there are is
  what was registered (`lookup_congr`).
-/
import GluaLs.Modules.Calls

namespace GluaLs.Modules

open GluaLs.Lib GluaLs.Lib.Buckets GluaLs.Types LuaModuleIndex Config

/-! ## §1. Least elements -/

/-- **Keeping the better of two is taking the least.** -/
theorem keepBest_eq_argmin {A B : Type} [LinearOrder B] (key : A → B) (better : A → A → Bool)
    (h : ∀ a b, better a b = true ↔ key a < key b) (l : List A) :
    keepBest better l = l.argmin key := by
  unfold keepBest List.argmin
  apply congrArg (fun step => l.foldl step none)
  funext best a
  cases best with
  | none => rfl
  | some b =>
    show (if better a b = true then _ else _) = if key a < key b then _ else _
    rw [if_congr (h a b) rfl rfl]

/-- The least element is one of the list, whatever its order. -/
theorem argmin_congr {A B : Type} [LinearOrder B] (key : A → B) (l l' : List A)
    (hmem : ∀ a, a ∈ l ↔ a ∈ l') (hinj : ∀ a ∈ l, ∀ b ∈ l, key a = key b → a = b) :
    l.argmin key = l'.argmin key := by
  classical
  -- no other element has the least key, so the places in the list do not count
  have hiff : ∀ l : List A, (∀ a ∈ l, ∀ b ∈ l, key a = key b → a = b) → ∀ m,
      m ∈ l.argmin key ↔ m ∈ l ∧ ∀ a ∈ l, key m ≤ key a := by
    intro l hinj m
    rw [List.mem_argmin_iff]
    refine ⟨fun h => ⟨h.1, h.2.1⟩, fun h => ⟨h.1, h.2, fun a ha hle => ?_⟩⟩
    rw [hinj m h.1 a ha (le_antisymm (h.2 a ha) hle)]
  refine Option.ext fun m => ?_
  rw [← Option.mem_def, ← Option.mem_def, hiff l hinj, hiff l' (by simpa only [hmem] using hinj)]
  simp only [hmem]

/-! ## §2. Keys of candidates -/

section

variable (config : Config)

theorem fileId_of_registrationKey (c c' : Candidate)
    (h : registrationKey c = registrationKey c') : c.fileId = c'.fileId := by
  have h' := congrArg (fun key => (ofLex (ofLex (ofLex key).2).2).2) h
  have hid : c.fileId.id.toNat = c'.fileId.id.toNat := h'
  have hfile := UInt32.toNat_inj.1 hid
  calc c.fileId = ⟨c.fileId.id⟩ := rfl
    _ = ⟨c'.fileId.id⟩ := by rw [hfile]
    _ = c'.fileId := rfl

theorem registrationKey_of_globalKey (c c' : Candidate)
    (h : config.globalKey c = config.globalKey c') : registrationKey c = registrationKey c' :=
  congrArg (fun key => (ofLex (ofLex key).2).2) h

theorem registrationKey_of_workspaceKey (current : WorkspaceId) (c c' : Candidate)
    (h : config.workspaceKey current c = config.workspaceKey current c') :
    registrationKey c = registrationKey c' :=
  congrArg (fun key => (ofLex (ofLex key).2).2) h

/-- What the loop for a workspace compares. -/
def rankedKey (current : WorkspaceId) (c : Candidate × Nat) :
    Nat ×ₗ (Bool ×ₗ ((Nat ×ₗ Nat) ×ₗ (Bool ×ₗ (WithBot Text ×ₗ (Text ×ₗ Nat))))) :=
  toLex (c.2, config.workspaceKey current c.1)

/-- What the loop over suffixes compares. -/
def fuzzyKey (c : Candidate × Nat) :
    (Nat ×ₗ Text) ×ₗ (Nat ×ₗ ((Nat ×ₗ Nat) ×ₗ (Bool ×ₗ (WithBot Text ×ₗ (Text ×ₗ Nat))))) :=
  toLex (toLex (c.2, c.1.fullModuleName), config.globalKey c.1)

theorem betterRanked_iff (current : WorkspaceId) (c c' : Candidate × Nat) :
    config.betterRanked current c c' = true ↔
      rankedKey config current c < rankedKey config current c' := by
  unfold betterRanked rankedKey
  rw [Prod.Lex.toLex_lt_toLex]
  show _ ↔ c.2 < c'.2 ∨ c.2 = c'.2 ∧ _
  rw [Bool.not_eq_true', Bool.or_eq_false_iff, decide_eq_false_iff_not, not_lt]
  by_cases heq : c.2 = c'.2
  · simp [heq, isCandidateBetterForWorkspace]
  · simp only [heq, decide_false, Bool.false_and, and_true, false_and, or_false]
    exact ⟨fun hle => lt_of_le_of_ne hle heq, le_of_lt⟩

theorem fuzzyBetter_iff (c c' : Candidate × Nat) :
    config.isCandidateBetterForFuzzyGlobal c.1 c.2 c'.1 c'.2 = true ↔
      fuzzyKey config c < fuzzyKey config c' := by
  unfold isCandidateBetterForFuzzyGlobal fuzzyKey isCandidateBetterGlobal
  rw [Bool.or_eq_true, Bool.and_eq_true, Bool.and_eq_true, decide_eq_true_iff,
    decide_eq_true_iff, decide_eq_true_iff, decide_eq_true_iff, ← Prod.mk.injEq]
  apply Iff.symm
  exact Prod.Lex.toLex_lt_toLex

end

/-! ## §3. Choices -/

section

variable (config : Config) {l l' : List Candidate}

/-- A file is one candidate. -/
def OnePerFile (l : List Candidate) : Prop := ∀ c ∈ l, ∀ c' ∈ l, c.fileId = c'.fileId → c = c'

theorem mem_ranked (current : WorkspaceId) (l : List Candidate) (r : Candidate × Nat) :
    r ∈ config.ranked current l ↔
      r.1 ∈ l ∧ config.workspaceResolutionPriority current r.1.workspaceId = some r.2 := by
  unfold ranked
  rw [List.mem_filterMap]
  constructor
  · intro h
    obtain ⟨c, hc, hr⟩ := h
    obtain ⟨priority, hpriority, hr⟩ := Option.map_eq_some_iff.1 hr
    rw [← hr]
    exact ⟨hc, hpriority⟩
  · intro h
    exact ⟨r.1, h.1, by rw [h.2]; rfl⟩

theorem selectModuleForWorkspace_congr (current : WorkspaceId) (hmem : ∀ c, c ∈ l ↔ c ∈ l')
    (hone : OnePerFile l) :
    config.selectModuleForWorkspace current l = config.selectModuleForWorkspace current l' := by
  unfold selectModuleForWorkspace
  apply congrArg (Option.map Prod.fst)
  rw [keepBest_eq_argmin _ _ (betterRanked_iff config current),
    keepBest_eq_argmin _ _ (betterRanked_iff config current)]
  apply argmin_congr
  · intro r
    rw [mem_ranked, mem_ranked, hmem]
  · intro r hr r' hr' hkey
    rw [mem_ranked] at hr hr'
    have hfile := fileId_of_registrationKey r.1 r'.1 (registrationKey_of_workspaceKey config
      current r.1 r'.1 (congrArg (fun key => (ofLex key).2) hkey))
    exact Prod.ext (hone r.1 hr.1 r'.1 hr'.1 hfile) (congrArg (fun key => (ofLex key).1) hkey)

theorem isCandidateBetterGlobal_iff (c c' : Candidate) :
    config.isCandidateBetterGlobal c c' = true ↔ config.globalKey c < config.globalKey c' :=
  decide_eq_true_iff

theorem selectModuleGlobally_congr (hmem : ∀ c, c ∈ l ↔ c ∈ l') (hone : OnePerFile l) :
    config.selectModuleGlobally l = config.selectModuleGlobally l' := by
  unfold selectModuleGlobally
  rw [keepBest_eq_argmin _ _ (isCandidateBetterGlobal_iff config),
    keepBest_eq_argmin _ _ (isCandidateBetterGlobal_iff config)]
  apply argmin_congr _ _ _ hmem
  intro c hc c' hc' hkey
  exact hone c hc c' hc' (fileId_of_registrationKey c c'
    (registrationKey_of_globalKey config c c' hkey))

theorem fuzzySelect_congr (path : Text) (hmem : ∀ c, c ∈ l ↔ c ∈ l') (hone : OnePerFile l) :
    config.fuzzySelect path l = config.fuzzySelect path l' := by
  unfold fuzzySelect
  apply congrArg (Option.map Prod.fst)
  rw [keepBest_eq_argmin _ _ (fuzzyBetter_iff config),
    keepBest_eq_argmin _ _ (fuzzyBetter_iff config)]
  apply argmin_congr
  · intro r
    simp only [List.mem_filterMap, hmem]
  · intro r hr r' hr' hkey
    obtain ⟨c, hc, hr⟩ := List.mem_filterMap.1 hr
    obtain ⟨c', hc', hr'⟩ := List.mem_filterMap.1 hr'
    obtain ⟨leading, -, rfl⟩ := Option.map_eq_some_iff.1 hr
    obtain ⟨leading', -, rfl⟩ := Option.map_eq_some_iff.1 hr'
    have hfile := fileId_of_registrationKey c c' (registrationKey_of_globalKey config c c'
      (congrArg (fun key => (ofLex key).2) hkey))
    exact Prod.ext (hone c hc c' hc' hfile)
      (congrArg (fun key => (ofLex (ofLex key).1).1) hkey)

theorem fuzzySelectForWorkspace_congr (path : Text) (current : WorkspaceId)
    (hmem : ∀ c, c ∈ l ↔ c ∈ l') (hone : OnePerFile l) :
    config.fuzzySelectForWorkspace path current l =
      config.fuzzySelectForWorkspace path current l' := by
  apply selectModuleForWorkspace_congr
  · intro c
    rw [List.mem_filter, List.mem_filter, hmem]
  · intro c hc c' hc'
    exact hone c (List.mem_filter.1 hc).1 c' (List.mem_filter.1 hc').1

end

/-! ## §4. Lookups -/

/-- What a file is registered as. -/
def candidateOf (index : LuaModuleIndex) (file : FileId) : Option Candidate :=
  (index.fileModuleMap.lookup file).map index.candidate

section

variable {hashes : Hashes} {tight : Prop} {index index' : LuaModuleIndex}

/-- The candidates among listed files are what the files are registered as. -/
theorem mem_candidates (files : List FileId) (c : Candidate) :
    c ∈ index.candidates files ↔ ∃ file ∈ files, candidateOf index file = some c := by
  unfold LuaModuleIndex.candidates candidateOf
  rw [List.mem_map]
  constructor
  · intro h
    obtain ⟨info, hinfo, hc⟩ := h
    obtain ⟨file, hfile, hlookup⟩ := List.mem_filterMap.1 hinfo
    exact ⟨file, hfile, by rw [hlookup, ← hc]; rfl⟩
  · intro h
    obtain ⟨file, hfile, hc⟩ := h
    obtain ⟨info, hlookup, hc⟩ := Option.map_eq_some_iff.1 hc
    exact ⟨info, List.mem_filterMap.2 ⟨file, hfile, hlookup⟩, hc⟩

section

variable (h : Placed index.moduleNodes index.fileModuleMap)
include h

theorem fileId_of_candidateOf {file : FileId}
    {c : Candidate} (hc : candidateOf index file = some c) : c.fileId = file := by
  obtain ⟨info, hlookup, hc⟩ := Option.map_eq_some_iff.1 hc
  rw [← hc]
  exact h.own file info hlookup

theorem onePerFile_candidates (files : List FileId) : OnePerFile (index.candidates files) := by
  intro c hc c' hc' hfile
  obtain ⟨file, -, hc⟩ := (mem_candidates files c).1 hc
  obtain ⟨file', -, hc'⟩ := (mem_candidates files c').1 hc'
  rw [fileId_of_candidateOf h hc, fileId_of_candidateOf h hc'] at hfile
  rw [hfile, hc'] at hc
  exact (Option.some.inj hc).symm

/-- The candidates listed at a node are those of the path. -/
theorem mem_candidates_filesAt (path : List Text) (c : Candidate) :
    c ∈ index.candidates (filesAt index.moduleNodes path) ↔
      ∃ file, candidateOf index file = some c ∧ moduleParts c.fullModuleName = path := by
  rw [mem_candidates]
  constructor
  · intro hc
    obtain ⟨file, hfile, hc⟩ := hc
    obtain ⟨info, hlookup, hpath⟩ := (h.listed path file).1 hfile
    refine ⟨file, hc, ?_⟩
    unfold candidateOf at hc
    rw [hlookup] at hc
    cases hc
    exact hpath
  · intro hc
    obtain ⟨file, hc, hpath⟩ := hc
    refine ⟨file, (h.listed path file).2 ?_, hc⟩
    obtain ⟨info, hlookup, hc⟩ := Option.map_eq_some_iff.1 hc
    rw [← hc] at hpath
    exact ⟨info, hlookup, hpath⟩

/-- The candidates of a name. -/
theorem mem_candidates_listOf
    (hnamed : Named index.moduleNameToFileIds index.fileModuleMap) (name : Text) (c : Candidate) :
    c ∈ index.candidates (listOf index.moduleNameToFileIds name) ↔
      ∃ file, candidateOf index file = some c ∧
        (moduleParts c.fullModuleName).getLastD [] = name := by
  rw [mem_candidates]
  constructor
  · intro hc
    obtain ⟨file, hfile, hc⟩ := hc
    obtain ⟨info, hlookup, hname⟩ := (hnamed.listed name file).1 hfile
    refine ⟨file, hc, ?_⟩
    rw [h.named file info hlookup] at hname
    unfold candidateOf at hc
    rw [hlookup] at hc
    cases hc
    exact hname
  · intro hc
    obtain ⟨file, hc, hname⟩ := hc
    refine ⟨file, (hnamed.listed name file).2 ?_, hc⟩
    obtain ⟨info, hlookup, hc⟩ := Option.map_eq_some_iff.1 hc
    rw [← hc] at hname
    exact ⟨info, hlookup, (h.named file info hlookup).trans hname⟩

end

/-- Finding nothing is choosing among nothing. -/
theorem exactFindModule_eq (index : LuaModuleIndex) (parts : List Text)
    (workspace : Option WorkspaceId) :
    index.exactFindModule parts workspace =
      index.select workspace (index.candidates (filesAt index.moduleNodes parts)) := by
  unfold exactFindModule filesAt
  cases (site index.moduleNodes parts).bind index.moduleNodes.lookup with
  | none => cases workspace <;> rfl
  | some node => rfl

/-- The choice among the modules that end in a path. -/
def fuzzyChoice (config : Config) (path : Text) (workspace : Option WorkspaceId)
    (l : List Candidate) : Option Candidate :=
  match workspace with
  | some current => config.fuzzySelectForWorkspace path current l
  | none => config.fuzzySelect path l

theorem fuzzyFindModule_eq (index : LuaModuleIndex) (path name : Text)
    (workspace : Option WorkspaceId) :
    index.fuzzyFindModule path name workspace =
      fuzzyChoice index.config path workspace
        (index.candidates (listOf index.moduleNameToFileIds name)) := by
  unfold fuzzyFindModule listOf fuzzyChoice
  cases index.moduleNameToFileIds.lookup name with
  | none => cases workspace <;> rfl
  | some files => rfl

theorem select_congr (workspace : Option WorkspaceId) {l l' : List Candidate}
    (hconfig : index'.config = index.config) (hmem : ∀ c, c ∈ l ↔ c ∈ l')
    (hone : OnePerFile l) : index.select workspace l = index'.select workspace l' := by
  unfold LuaModuleIndex.select
  rw [hconfig]
  cases workspace with
  | none => exact selectModuleGlobally_congr index.config hmem hone
  | some current => exact selectModuleForWorkspace_congr index.config current hmem hone

theorem fuzzyChoice_congr (config : Config) (path : Text) (workspace : Option WorkspaceId)
    {l l' : List Candidate} (hmem : ∀ c, c ∈ l ↔ c ∈ l') (hone : OnePerFile l) :
    fuzzyChoice config path workspace l = fuzzyChoice config path workspace l' := by
  cases workspace with
  | none => exact fuzzySelect_congr config path hmem hone
  | some current => exact fuzzySelectForWorkspace_congr config path current hmem hone

/-- **A lookup depends on what is registered.** -/
theorem lookup_congr (h : Views hashes tight index) (h' : Views hashes tight index')
    (hconfig : index'.config = index.config)
    (hsame : ∀ file, candidateOf index' file = candidateOf index file) (modulePath : Text)
    (workspace : Option WorkspaceId) (contents : Bool) :
    index.lookup modulePath workspace contents = index'.lookup modulePath workspace contents := by
  have hexact : index.exactFindModule (moduleParts (toDots modulePath)) workspace =
      index'.exactFindModule (moduleParts (toDots modulePath)) workspace := by
    rw [exactFindModule_eq, exactFindModule_eq]
    apply select_congr workspace hconfig
    · intro c
      rw [mem_candidates_filesAt h.placed, mem_candidates_filesAt h'.placed]
      simp only [hsame]
    · exact onePerFile_candidates h.placed _
  have hfuzzy : ∀ name, index.fuzzyFindModule (toDots modulePath) name workspace =
      index'.fuzzyFindModule (toDots modulePath) name workspace := by
    intro name
    rw [fuzzyFindModule_eq, fuzzyFindModule_eq, hconfig]
    apply fuzzyChoice_congr
    · intro c
      rw [mem_candidates_listOf h.placed h.named, mem_candidates_listOf h'.placed h'.named]
      simp only [hsame]
    · exact onePerFile_candidates h.placed _
  unfold LuaModuleIndex.lookup
  dsimp only
  rw [hexact, hfuzzy, hconfig]

end

/-! ## §5. Registrations -/

/-- How a file was registered: from its path, or under a dotted path. -/
def registration (index : LuaModuleIndex) (file : FileId) : Option (Text ⊕ (Text × WorkspaceId)) :=
  (index.fileModuleMap.lookup file).map fun info =>
    match index.fileModulePaths.lookup file with
    | some path => .inl path
    | none => .inr (info.fullModuleName, info.workspaceId)

/-- **How a file was registered says what it is registered as.** -/
theorem candidateOf_of_registration {hashes : Hashes} {index index' : LuaModuleIndex}
    (h : Views hashes True index) (h' : Views hashes True index')
    (hconfig : index'.config = index.config) (file : FileId)
    (hsame : registration index' file = registration index file) :
    candidateOf index' file = candidateOf index file := by
  unfold registration at hsame
  unfold candidateOf
  cases hold : index.fileModuleMap.lookup file with
  | none =>
    rw [hold] at hsame
    rw [Option.map_eq_none_iff.1 hsame]
    rfl
  | some info =>
    rw [hold] at hsame
    obtain ⟨info', hold', hreg⟩ := Option.map_eq_some_iff.1 hsame
    rw [hold']
    show some (index'.candidate info') = some (index.candidate info)
    unfold LuaModuleIndex.candidate
    rw [h.placed.own file info hold, h'.placed.own file info' hold']
    cases hpath : index.fileModulePaths.lookup file with
    | none =>
      cases hpath' : index'.fileModulePaths.lookup file with
      | none =>
        rw [hpath, hpath'] at hreg
        obtain ⟨hname, hworkspace⟩ := Prod.mk.inj (Sum.inr.inj hreg)
        rw [hname, hworkspace]
      | some path' =>
        rw [hpath, hpath'] at hreg
        cases hreg
    | some path =>
      cases hpath' : index'.fileModulePaths.lookup file with
      | none =>
        rw [hpath, hpath'] at hreg
        cases hreg
      | some path' =>
        rw [hpath, hpath'] at hreg
        obtain rfl := Sum.inl.inj hreg
        obtain ⟨i, hi, hat⟩ := h.pathed trivial file path' hpath
        obtain ⟨i', hi', hat'⟩ := h'.pathed trivial file path' hpath'
        rw [hold] at hi
        rw [hold'] at hi'
        rw [← Option.some.inj hi] at hat
        rw [← Option.some.inj hi', hconfig, hat] at hat'
        obtain ⟨hname, hworkspace⟩ := Prod.mk.inj (Option.some.inj hat')
        rw [hname, hworkspace]

end GluaLs.Modules
