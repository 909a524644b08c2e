/-
  GluaLs.Vfs.Quiet — calls that readers do not see.

  Staging a text, giving a file another path, forgetting a deletion and setting a version leave
  what was taken as it is.  Every call but `take_staged` and `update_config` is made of these.
-/
import GluaLs.Vfs.Consistent

namespace GluaLs.Vfs

open GluaLs.Lib GluaLs.Edit FileContent

variable {h : Host} {vfs vfs' : Vfs h}

/-! ## §1. Staging -/

/-- A parse is that of the text, if there is a text. -/
def Parses (vfs : Vfs h) (content : Option String) (parsed : Option (h.Tree × h.LineIndex)) :
    Prop :=
  ∀ text, content = some text → ∃ runtime, vfs.emmyrc = some runtime ∧
    parsed = some (h.parseLua runtime.getParseConfig text, h.parseLines text)

theorem quiet_stage (hc : Consistent vfs) {id : Nat} (hid : id < vfs.fileData.length)
    {content : Option String} {parsed : Option (h.Tree × h.LineIndex)}
    (hparsed : Parses vfs content parsed) (isRemote : Bool) (version : Option Int) :
    Quiet vfs (vfs.stage id content parsed isRemote version) := by
  have hnew : ∀ other staged, (vfs.stage id content parsed isRemote version).staged.lookup other =
      some staged → vfs.staged.lookup other = some staged ∨
        other = id ∧ ∀ data, staged.content = some data →
          data.revision = vfs.contentRevision + 1 := by
    intro other staged hlookup
    obtain ⟨heq, rfl⟩ | ⟨-, hlookup⟩ := lookup_insert_some hlookup
    · refine .inr ⟨heq, ?_⟩
      intro data hdata
      obtain ⟨text, -, rfl⟩ := Option.map_eq_some_iff.1 hdata
      rfl
    · exact .inl hlookup
  refine ⟨⟨hc.paths.keep rfl rfl rfl rfl rfl rfl, ⟨hc.texts.taken, ?_⟩, ⟨?_, ?_, ?_, ?_⟩⟩,
    fun _ => rfl, rfl, rfl, ⟨Nat.le_succ _, ?_⟩⟩
  · intro other staged hlookup
    obtain ⟨-, rfl⟩ | ⟨-, hlookup⟩ := lookup_insert_some hlookup
    · cases content with
      | none => rfl
      | some text => exact hparsed text rfl
    · exact hc.texts.staged other staged hlookup
  · intro other staged hlookup
    obtain hold | ⟨heq, -⟩ := hnew other staged hlookup
    · exact hc.revised.numbered other staged hold
    · rw [heq]
      exact hid
  · intro other data hdata
    exact Nat.le_succ_of_le (hc.revised.taken other data hdata)
  · intro other staged data hlookup hdata
    obtain hold | ⟨-, hrevision⟩ := hnew other staged hlookup
    · exact Nat.le_succ_of_le (hc.revised.staged other staged data hold hdata)
    · exact le_of_eq (hrevision data hdata)
  · intro other staged data old hlookup hdata hold
    obtain hbefore | ⟨-, hrevision⟩ := hnew other staged hlookup
    · exact hc.revised.newer other staged data old hbefore hdata hold
    · rw [hrevision data hdata]
      exact Nat.lt_succ_of_le (hc.revised.taken other old hold)
  · intro other data hdata
    obtain htaken | ⟨staged, hlookup, hcontent⟩ := hdata
    · exact .inr ⟨data, .inl htaken, rfl, rfl⟩
    · obtain hold | ⟨-, hrevision⟩ := hnew other staged hlookup
      · exact .inr ⟨data, .inr ⟨staged, hold, hcontent⟩, rfl, rfl⟩
      · rw [hrevision data hcontent]
        exact .inl (Nat.lt_succ_self _)

theorem parses_none (vfs : Vfs h) (parsed : Option (h.Tree × h.LineIndex)) :
    Parses vfs none parsed := by
  intro text htext
  cases htext

theorem parses_parse {text : String} {parsed : h.Tree × h.LineIndex}
    (hparse : vfs.parse text = some parsed) : Parses vfs (some text) (some parsed) := by
  intro text' htext
  obtain ⟨runtime, hruntime, hparsed⟩ := Option.map_eq_some_iff.1 hparse
  rw [← Option.some.inj htext, ← hparsed]
  exact ⟨runtime, hruntime, rfl⟩

theorem quiet_stageParsed (hc : Consistent vfs) {id : Nat} (hid : id < vfs.fileData.length)
    (data : Option String) (isRemote : Bool)
    (hstaged : vfs.stageParsed id data isRemote = some vfs') : Quiet vfs vfs' := by
  cases data with
  | none =>
    cases hstaged
    exact quiet_stage hc hid (parses_none vfs none) isRemote none
  | some text =>
    obtain ⟨parsed, hparse, rfl⟩ := Option.map_eq_some_iff.1 hstaged
    exact quiet_stage hc hid (parses_parse hparse) isRemote none

/-! ## §2. Paths -/

/-- The file has no path. -/
def Unplaced (vfs : Vfs h) (id : Nat) : Prop := vfs.filePathMap.lookup id = none

theorem erase_paths (hc : Consistent vfs) {id : Nat} {path : h.Path}
    (hpath : vfs.filePathMap.lookup id = some path)
    (hids : vfs'.fileIdMap = vfs.fileIdMap.erase (h.pathKey path))
    (hpaths : vfs'.filePathMap = vfs.filePathMap.erase id) (hkeys : ∀ other, other ≠ id →
      vfs'.fileOrderKeys.lookup other = vfs.fileOrderKeys.lookup other)
    (hroots : vfs'.orderRoots = vfs.orderRoots) (hdata : vfs'.fileData = vfs.fileData)
    (hremote : vfs'.remoteFileIdMap = vfs.remoteFileIdMap) : PathsAgree vfs' := by
  have hold : ∀ other otherPath, vfs'.filePathMap.lookup other = some otherPath →
      other ≠ id ∧ vfs.filePathMap.lookup other = some otherPath := by
    intro other otherPath hlookup
    rw [hpaths] at hlookup
    exact lookup_erase_some hlookup
  refine ⟨?_, ?_, ?_, ?_⟩
  · rw [hids, hpaths]
    exact inverse_erase hc.paths.inverse hpath
  · intro other otherPath hlookup
    obtain ⟨hne, hlookup⟩ := hold other otherPath hlookup
    rw [hkeys other hne, hroots]
    exact hc.paths.ordered other otherPath hlookup
  · intro other otherPath hlookup
    rw [hdata]
    exact hc.paths.numbered other otherPath (hold other otherPath hlookup).2
  · rw [hdata, hremote]
    exact hc.paths.remote

theorem quiet_leavePath (hc : Consistent vfs) (id : Nat) :
    Quiet vfs (vfs.leavePath id) ∧ Unplaced (vfs.leavePath id) id := by
  unfold leavePath Unplaced
  cases hpath : vfs.filePathMap.lookup id with
  | none => exact ⟨.refl hc, hpath⟩
  | some path =>
    refine ⟨quiet_of_paths hc ?_ (fun _ => rfl) le_rfl rfl rfl rfl rfl rfl, ?_⟩
    · exact erase_paths hc hpath rfl rfl (fun _ _ => rfl) rfl rfl rfl
    · exact AList.lookup_erase id _

theorem leavePath_fileIdMap {key : h.PathKey} (hnone : vfs.fileIdMap.lookup key = none)
    (id : Nat) : (vfs.leavePath id).fileIdMap.lookup key = none := by
  unfold leavePath
  cases vfs.filePathMap.lookup id with
  | none => exact hnone
  | some path =>
    show (vfs.fileIdMap.erase (h.pathKey path)).lookup key = none
    rw [lookup_erase_ite, hnone, ite_self]

section

variable (hc : Consistent vfs)
include hc

theorem quiet_takePath {id : Nat} (hid : id < vfs.fileData.length)
    (hunplaced : Unplaced vfs id) {path : h.Path}
    (hfree : vfs.fileIdMap.lookup (h.pathKey path) = none) : Quiet vfs (vfs.takePath id path) := by
  refine quiet_of_paths hc ⟨inverse_insert hc.paths.inverse hfree hunplaced, ?_, ?_,
    hc.paths.remote⟩ (fun _ => rfl) le_rfl rfl rfl rfl rfl rfl
  · intro other otherPath hlookup
    show (vfs.fileOrderKeys.insert id _).lookup other = _
    rw [lookup_insert_ite]
    obtain ⟨rfl, rfl⟩ | ⟨hne, hlookup⟩ := lookup_insert_some hlookup
    · exact if_pos rfl
    · rw [if_neg hne]
      exact hc.paths.ordered other otherPath hlookup
  · intro other otherPath hlookup
    obtain ⟨rfl, -⟩ | ⟨-, hlookup⟩ := lookup_insert_some hlookup
    · exact hid
    · exact hc.paths.numbered other otherPath hlookup

/-- The order key of a file without a path goes. -/
theorem quiet_dropKey {id : Nat} (hunplaced : Unplaced vfs id) :
    Quiet vfs { vfs with fileOrderKeys := vfs.fileOrderKeys.erase id } := by
  refine quiet_of_paths hc ⟨hc.paths.inverse, ?_, hc.paths.numbered, hc.paths.remote⟩
    (fun _ => rfl) le_rfl rfl rfl rfl rfl rfl
  intro other path hlookup
  show (vfs.fileOrderKeys.erase id).lookup other = _
  rw [lookup_erase_ite, if_neg]
  · exact hc.paths.ordered other path hlookup
  · intro heq
    rw [heq] at hlookup
    exact absurd (hunplaced.symm.trans hlookup) (Option.some_ne_none path).symm

theorem quiet_forgetDeletion (id : Nat) : Quiet vfs (vfs.forgetDeletion id) := by
  have hdeleted : Quiet vfs { vfs with deleted := vfs.deleted.erase id } :=
    quiet_of_paths hc
      ⟨hc.paths.inverse, hc.paths.ordered, hc.paths.numbered, hc.paths.remote⟩
      (fun _ => rfl) le_rfl rfl rfl rfl rfl rfl
  unfold forgetDeletion
  dsimp only
  split
  · cases hpath : vfs.filePathMap.lookup id with
    | none => exact hdeleted
    | some path =>
      refine quiet_of_paths hc ?_ (fun _ => rfl) le_rfl rfl rfl rfl rfl rfl
      refine erase_paths hc hpath rfl rfl ?_ rfl rfl rfl
      intro other hne
      exact AList.lookup_erase_ne hne
  · exact hdeleted

theorem quiet_forgetTakenDeletions : Quiet vfs vfs.forgetTakenDeletions := by
  unfold forgetTakenDeletions
  generalize vfs.deleted.keys.filter (fun id => (vfs.staged.lookup id).isNone) = ids
  have hloop : ∀ (ids : List Nat) (vfs : Vfs h), Consistent vfs →
      Quiet vfs (ids.foldl forgetDeletion vfs) := by
    intro ids
    induction ids with
    | nil => exact fun vfs hc => .refl hc
    | cons id ids ih =>
      intro vfs hc
      have hone := quiet_forgetDeletion hc id
      exact hone.trans (ih _ hone.consistent)
  exact hloop ids vfs hc

theorem quiet_setOrderRoots (roots : List (h.Path × Nat)) :
    Quiet vfs (vfs.setOrderRoots roots) := by
  refine quiet_of_paths hc ⟨hc.paths.inverse, ?_, hc.paths.numbered, hc.paths.remote⟩
    (fun _ => rfl) le_rfl rfl rfl rfl rfl rfl
  intro id path hlookup
  unfold setOrderRoots
  rw [lookup_foldl_insertSome (fun _ path => some (orderKeyForPath h _ path)) _ (fun _ _ => rfl) _
    vfs.filePathMap.nodupKeys]
  have hpath : vfs.filePathMap.entries.dlookup id = some path := hlookup
  rw [hpath]
  rfl

end

/-! ## §3. Versions -/

theorem seen_setVersion (version : Option Int) (content : Option FileContent) :
    (content.map (setVersion version)).map seen =
      content.map seen := by
  cases content <;> rfl

/-- The version of one file's taken text. -/
theorem seen_modify (id : Nat) (version : Option Int) (other : Nat) :
    (((vfs.fileData.modify id fun data => data.map (setVersion version))[other]?).join).map
      seen = (vfs.taken other).map seen := by
  unfold taken
  rw [List.getElem?_modify]
  cases vfs.fileData[other]? with
  | none => rfl
  | some data =>
    show Option.map _ (if id = other then data.map _ else data) = _
    split
    · exact seen_setVersion version data
    · rfl

theorem quiet_updateFileVersion (hc : Consistent vfs) (id : Nat) (version : Option Int) :
    Quiet vfs (vfs.updateFileVersion id version) := by
  unfold updateFileVersion
  cases hold : vfs.staged.lookup id with
  | none =>
    exact quiet_of_seen hc (hc.paths.keep rfl rfl rfl rfl rfl (List.length_modify ..))
      (seen_modify id version) (fun _ staged hlookup => ⟨staged, hlookup, rfl, rfl⟩)
      (le_of_eq (List.length_modify ..).symm) rfl rfl rfl rfl
  | some old =>
    refine quiet_of_seen hc (hc.paths.keep rfl rfl rfl rfl rfl rfl) (fun _ => rfl) ?_ le_rfl
      rfl rfl rfl rfl
    intro other staged hlookup
    obtain ⟨rfl, rfl⟩ | ⟨-, hlookup⟩ := lookup_insert_some hlookup
    · exact ⟨old, hold, rfl, seen_setVersion version old.content⟩
    · exact ⟨staged, hlookup, rfl, rfl⟩

theorem quiet_forgetFileVersion (hc : Consistent vfs) (id : Nat) :
    Quiet vfs (vfs.forgetFileVersion id) := by
  refine quiet_of_seen hc (hc.paths.keep rfl rfl rfl rfl rfl (List.length_modify ..))
    (seen_modify id none) ?_ (le_of_eq (List.length_modify ..).symm) rfl rfl rfl rfl
  intro other staged hlookup
  have hlookup' := (AList.lookup_filterMapEntries _ _ _).symm.trans hlookup
  obtain ⟨old, hold, heq⟩ := Option.bind_eq_some_iff.1 hlookup'
  have hstaged := Option.some.inj heq
  split at hstaged
  · rw [← hstaged]
    exact ⟨old, hold, rfl, seen_setVersion none old.content⟩
  · rw [← hstaged]
    exact ⟨old, hold, rfl, rfl⟩

/-! ## §4. Taking

  These are the two calls readers see.  Taking makes the staged text of each listed file the one
  that is read, with its parse.  A configuration that parses differently parses every text
  again, the taken and the staged; one that parses alike leaves the trees, which are its own.
-/

/-- The parse of a file's latest text. -/
def latestParse (vfs : Vfs h) (id : Nat) : Option h.Tree × Option h.LineIndex :=
  match vfs.staged.lookup id with
  | some staged => (staged.parsed.map Prod.fst, staged.parsed.map Prod.snd)
  | none => (vfs.treeMap.lookup id, vfs.lineIndexMap.lookup id)

/-- What taking listed files changes. -/
structure Takes (ids : List Nat) (vfs vfs' : Vfs h) : Prop where
  consistent : Consistent vfs'
  since : Since vfs vfs'
  taken : ∀ id, vfs'.taken id = if id ∈ ids then vfs.latest id else vfs.taken id
  trees : ∀ id, vfs'.treeMap.lookup id =
    if id ∈ ids then (vfs.latestParse id).1 else vfs.treeMap.lookup id
  lines : ∀ id, vfs'.lineIndexMap.lookup id =
    if id ∈ ids then (vfs.latestParse id).2 else vfs.lineIndexMap.lookup id
  staged : ∀ id, vfs'.staged.lookup id = if id ∈ ids then none else vfs.staged.lookup id

theorem latest_of_unstaged {id : Nat} (hnone : vfs.staged.lookup id = none) :
    vfs.latest id = vfs.taken id ∧
      vfs.latestParse id = (vfs.treeMap.lookup id, vfs.lineIndexMap.lookup id) := by
  unfold latest latestParse
  rw [hnone]
  exact ⟨rfl, rfl⟩

theorem latest_of_staged {id : Nat} {staged : Staged h}
    (hstaged : vfs.staged.lookup id = some staged) :
    vfs.latest id = staged.content ∧
      vfs.latestParse id = (staged.parsed.map Prod.fst, staged.parsed.map Prod.snd) := by
  unfold latest latestParse
  rw [hstaged]
  exact ⟨rfl, rfl⟩

/-- What one file reads as and the others keep. -/
theorem eq_ite_singleton {A : Type} {id : Nat} {a : A} {f g k : Nat → A}
    (hf : ∀ other, f other = if other = id then a else k other) (hg : g id = a) (other : Nat) :
    f other = if other ∈ [id] then g other else k other := by
  rw [hf]
  simp only [List.mem_singleton]
  split
  · rename_i heq
    rw [heq, hg]
  · rfl

/-- A file with nothing staged is read as it was. -/
theorem takes_of_unstaged (hc : Consistent vfs) {id : Nat}
    (hstaged : vfs.staged.lookup id = none) : Takes [id] vfs vfs := by
  obtain ⟨hlatest, hparse⟩ := latest_of_unstaged hstaged
  have hsame : ∀ {A : Type} (f : Nat → A) (other : Nat),
      f other = if other = id then f id else f other := by
    intro A f other
    split
    · rename_i heq
      rw [heq]
    · rfl
  exact ⟨hc, .refl vfs, eq_ite_singleton (hsame vfs.taken) hlatest,
    eq_ite_singleton (hsame vfs.treeMap.lookup) (congrArg Prod.fst hparse),
    eq_ite_singleton (hsame vfs.lineIndexMap.lookup) (congrArg Prod.snd hparse),
    eq_ite_singleton (hsame vfs.staged.lookup) hstaged.symm⟩

/-- The part of what was parsed that a map holds once a file is taken. -/
theorem lookup_parsed {W : Type} (map : HashMap Nat W) (id : Nat)
    (parsed : Option (h.Tree × h.LineIndex)) (part : h.Tree × h.LineIndex → W) (other : Nat) :
    (match parsed with
      | some parsed => map.insert id (part parsed)
      | none => map.erase id).lookup other =
        if other = id then parsed.map part else map.lookup other := by
  cases parsed with
  | none => exact lookup_erase_ite _ _ _
  | some parsed => exact lookup_insert_ite _ _ _ _

theorem takes_takeOne (hc : Consistent vfs) (id : Nat) : Takes [id] vfs (vfs.takeOne id).1 := by
  unfold takeOne
  cases hstaged : vfs.staged.lookup id with
  | none => exact takes_of_unstaged hc hstaged
  | some staged =>
    obtain ⟨hlatest, hparse⟩ := latest_of_staged hstaged
    have hid : id < vfs.fileData.length := hc.revised.numbered id staged hstaged
    have htaken : ∀ other, ((vfs.fileData.set id staged.content)[other]?).join =
        if other = id then staged.content else vfs.taken other := by
      intro other
      rw [List.getElem?_set]
      by_cases heq : id = other
      · rw [if_pos heq, if_pos hid, if_pos heq.symm]
        rfl
      · rw [if_neg heq, if_neg (Ne.symm heq)]
        rfl
    have htrees := lookup_parsed vfs.treeMap id staged.parsed Prod.fst
    have hlines := lookup_parsed vfs.lineIndexMap id staged.parsed Prod.snd
    have hrest : ∀ other kept, (vfs.staged.erase id).lookup other = some kept →
        other ≠ id ∧ vfs.staged.lookup other = some kept := fun _ _ => lookup_erase_some
    refine ⟨⟨hc.paths.keep rfl rfl rfl rfl rfl List.length_set, ⟨?_, ?_⟩, ⟨?_, ?_, ?_, ?_⟩⟩,
      ⟨le_rfl, ?_⟩, eq_ite_singleton htaken hlatest,
      eq_ite_singleton htrees (congrArg Prod.fst hparse),
      eq_ite_singleton hlines (congrArg Prod.snd hparse),
      eq_ite_singleton (lookup_erase_ite vfs.staged id) rfl⟩
    · intro other
      by_cases heq : other = id
      · refine ⟨staged.parsed, ?_, ?_, ?_⟩
        · show ParsedAs vfs.emmyrc ((vfs.fileData.set id staged.content)[other]?).join _
          rw [htaken, if_pos heq]
          exact hc.texts.staged id staged hstaged
        · exact (htrees other).trans (if_pos heq)
        · exact (hlines other).trans (if_pos heq)
      · obtain ⟨parsed, hold, htree, hline⟩ := hc.texts.taken other
        refine ⟨parsed, ?_, ?_, ?_⟩
        · show ParsedAs vfs.emmyrc ((vfs.fileData.set id staged.content)[other]?).join _
          rw [htaken, if_neg heq]
          exact hold
        · exact ((htrees other).trans (if_neg heq)).trans htree
        · exact ((hlines other).trans (if_neg heq)).trans hline
    · intro other kept hlookup
      exact hc.texts.staged other kept (hrest other kept hlookup).2
    · intro other kept hlookup
      rw [List.length_set]
      exact hc.revised.numbered other kept (hrest other kept hlookup).2
    · intro other data hdata
      have hdata' := (htaken other).symm.trans hdata
      split at hdata'
      · exact hc.revised.staged id staged data hstaged hdata'
      · exact hc.revised.taken other data hdata'
    · intro other kept data hlookup hdata
      exact hc.revised.staged other kept data (hrest other kept hlookup).2 hdata
    · intro other kept data old hlookup hdata hold
      obtain ⟨hne, hlookup⟩ := hrest other kept hlookup
      have hold' := (htaken other).symm.trans hold
      rw [if_neg hne] at hold'
      exact hc.revised.newer other kept data old hlookup hdata hold'
    · intro other data hdata
      refine .inr ⟨data, ?_, rfl, rfl⟩
      obtain hnow | ⟨kept, hlookup, hcontent⟩ := hdata
      · have hnow' := (htaken other).symm.trans hnow
        split at hnow'
        · rename_i heq
          rw [heq]
          exact .inr ⟨staged, hstaged, hnow'⟩
        · exact .inl hnow'
      · exact .inr ⟨kept, (hrest other kept hlookup).2, hcontent⟩

/-- Taking one file and then others takes them all. -/
theorem Takes.cons {id : Nat} {ids : List Nat} {vfs vfs' vfs'' : Vfs h}
    (hone : Takes [id] vfs vfs') (hrest : Takes ids vfs' vfs'') : Takes (id :: ids) vfs vfs'' := by
  have hlatest : ∀ other, vfs'.latest other = vfs.latest other ∧
      vfs'.latestParse other = vfs.latestParse other := by
    intro other
    by_cases heq : other = id
    · have hstaged := (hone.staged other).trans (if_pos (List.mem_singleton.2 heq))
      have hmem : other ∈ [id] := List.mem_singleton.2 heq
      obtain ⟨hunstaged, hparse⟩ := latest_of_unstaged hstaged
      rw [hunstaged, hparse, hone.taken, hone.trees, hone.lines, if_pos hmem, if_pos hmem,
        if_pos hmem]
      exact ⟨rfl, rfl⟩
    · have hmem : other ∉ [id] := fun hmem => heq (List.mem_singleton.1 hmem)
      have hstaged := (hone.staged other).trans (if_neg hmem)
      unfold latest latestParse
      rw [hstaged, hone.taken, hone.trees, hone.lines, if_neg hmem, if_neg hmem, if_neg hmem]
      exact ⟨rfl, rfl⟩
  have hmem : ∀ {A : Type} (other : Nat) (a b : A),
      (if other ∈ ids then a else if other ∈ [id] then a else b) =
        if other ∈ id :: ids then a else b := by
    intro A other a b
    by_cases hin : other ∈ ids
    · rw [if_pos hin, if_pos (List.mem_cons_of_mem id hin)]
    · rw [if_neg hin]
      by_cases heq : other = id
      · rw [if_pos (List.mem_singleton.2 heq), if_pos (heq ▸ List.mem_cons_self)]
      · rw [if_neg fun hmem => heq (List.mem_singleton.1 hmem), if_neg]
        exact fun hmem => (List.mem_cons.1 hmem).elim heq hin
  refine ⟨hrest.consistent, hone.since.trans hrest.since, ?_, ?_, ?_, ?_⟩
  · intro other
    rw [hrest.taken, (hlatest other).1, hone.taken, hmem]
  · intro other
    rw [hrest.trees, (hlatest other).2, hone.trees, hmem]
  · intro other
    rw [hrest.lines, (hlatest other).2, hone.lines, hmem]
  · intro other
    rw [hrest.staged, hone.staged, hmem]

/-- **Taking makes each listed file's latest text the one that is read.** -/
theorem takes_takeStaged (ids : List Nat) : ∀ vfs : Vfs h, Consistent vfs →
    Takes ids vfs (takeStaged ids vfs).1 := by
  induction ids with
  | nil =>
    intro vfs hc
    refine ⟨hc, .refl vfs, ?_, ?_, ?_, ?_⟩
    · exact fun id => (if_neg List.not_mem_nil).symm
    · exact fun id => (if_neg List.not_mem_nil).symm
    · exact fun id => (if_neg List.not_mem_nil).symm
    · exact fun id => (if_neg List.not_mem_nil).symm
  | cons id ids ih =>
    intro vfs hc
    have hone := takes_takeOne hc id
    exact hone.cons (ih _ hone.consistent)

end GluaLs.Vfs
