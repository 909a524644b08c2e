/-
  GluaLs.Vfs.Readers — what readers see of the store, over whole runs.

  In every store that calls lead to, the paths agree and every text comes with its parse
  (`Consistent`).  Readers see a file's text, its revision and its lines change only where the
  file is taken, and then they see what was staged last; its tree changes there and where the
  configuration does.  A revision a file has had is of one text, however long ago it had it.
  And a text whose version is older than that of the file's latest one is refused.
-/
import Mathlib.Logic.Relation
import GluaLs.Vfs.Quiet

namespace GluaLs.Vfs

open GluaLs.Lib GluaLs.Edit

variable {h : Host} {vfs vfs' : Vfs h}

/-! ## §1. Configurations -/

/-- The trees after everything was parsed again. -/
theorem treeMap_reparseAll (runtime : EmmyrcRuntime) (id : Nat) :
    (vfs.reparseAll runtime).treeMap.lookup id =
      ((vfs.treeMap.lookup id).bind fun _ => (vfs.taken id).map fun data =>
        h.parseLua runtime.getParseConfig data.content).or (vfs.treeMap.lookup id) := by
  apply lookup_foldl_insertSome (fun id (_ : h.Tree) => (vfs.taken id).map fun data =>
    h.parseLua runtime.getParseConfig data.content) _ _ vfs.treeMap.entries vfs.treeMap.nodupKeys
  intro trees entry
  cases vfs.taken entry.1 with
  | none => rfl
  | some data => rfl

theorem consistent_reparseAll (hc : Consistent vfs) {runtime : EmmyrcRuntime} :
    Consistent (Vfs.reparseAll { vfs with emmyrc := some runtime } runtime) ∧
      Since vfs (Vfs.reparseAll { vfs with emmyrc := some runtime } runtime) := by
  have hstaged : ∀ id staged,
      (Vfs.reparseAll { vfs with emmyrc := some runtime } runtime).staged.lookup id = some staged →
      ∃ old, vfs.staged.lookup id = some old ∧ staged.content = old.content ∧
        ParsedAs (some runtime) staged.content staged.parsed := by
    intro id staged hlookup
    have hlookup' := (AList.lookup_filterMapEntries _ _ _).symm.trans hlookup
    obtain ⟨old, hold, heq⟩ := Option.bind_eq_some_iff.1 hlookup'
    refine ⟨old, hold, ?_⟩
    have hparsed := hc.texts.staged id old hold
    cases hcontent : old.content with
    | none =>
      rw [hcontent] at heq hparsed
      rw [← Option.some.inj heq, hcontent]
      exact ⟨rfl, hparsed⟩
    | some data =>
      rw [hcontent] at heq
      cases heq
      exact ⟨rfl, runtime, rfl, rfl⟩
  refine ⟨⟨⟨hc.paths.inverse, hc.paths.ordered, hc.paths.numbered, hc.paths.remote⟩,
    ⟨?_, ?_⟩, ⟨?_, hc.revised.taken, ?_, ?_⟩⟩, ⟨le_rfl, ?_⟩⟩
  · intro id
    obtain ⟨parsed, hold, htree, hline⟩ := hc.texts.taken id
    have htrees := @treeMap_reparseAll h { vfs with emmyrc := some runtime } runtime id
    have htaken : Vfs.taken { vfs with emmyrc := some runtime } id = vfs.taken id := rfl
    rw [htaken] at htrees
    show ∃ parsed, ParsedAs (some runtime) (vfs.taken id) parsed ∧ _
    cases hdata : vfs.taken id with
    | none =>
      rw [hdata] at hold htrees
      rw [show parsed = none from hold] at htree hline
      refine ⟨none, rfl, ?_, hline⟩
      rw [htrees]
      show (Option.bind (vfs.treeMap.lookup id) _).or (vfs.treeMap.lookup id) = _
      rw [htree]
      rfl
    | some data =>
      rw [hdata] at hold htrees
      obtain ⟨before, -, rfl⟩ := hold
      refine ⟨some (h.parseLua runtime.getParseConfig data.content,
        h.parseLines data.content), ⟨runtime, rfl, rfl⟩, ?_, hline⟩
      rw [htrees]
      show (Option.bind (vfs.treeMap.lookup id) _).or (vfs.treeMap.lookup id) = _
      rw [htree]
      rfl
  · intro id staged hlookup
    obtain ⟨old, -, -, hparsed⟩ := hstaged id staged hlookup
    exact hparsed
  · intro id staged hlookup
    obtain ⟨old, hold, -⟩ := hstaged id staged hlookup
    exact hc.revised.numbered id old hold
  · intro id staged data hlookup hdata
    obtain ⟨old, hold, hcontent, -⟩ := hstaged id staged hlookup
    rw [hcontent] at hdata
    exact hc.revised.staged id old data hold hdata
  · intro id staged data before hlookup hdata htaken
    obtain ⟨old, hold, hcontent, -⟩ := hstaged id staged hlookup
    rw [hcontent] at hdata
    exact hc.revised.newer id old data before hold hdata htaken
  · intro id data hdata
    refine .inr ⟨data, ?_, rfl, rfl⟩
    obtain hnow | ⟨staged, hlookup, hcontent⟩ := hdata
    · exact .inl hnow
    · obtain ⟨old, hold, hsame, -⟩ := hstaged id staged hlookup
      exact .inr ⟨old, hold, hsame.symm.trans hcontent⟩

/-- A configuration that parses alike makes the same parses. -/
theorem parsedAs_of_parsesLike {old runtime : EmmyrcRuntime}
    (hlike : old.parsesLike runtime = true) {content : Option FileContent}
    {parsed : Option (h.Tree × h.LineIndex)} (hparsed : ParsedAs (some old) content parsed) :
    ParsedAs (some runtime) content parsed := by
  cases content with
  | none => exact hparsed
  | some data =>
    obtain ⟨before, hbefore, hparse⟩ := hparsed
    rw [← Option.some.inj hbefore, getParseConfig_congr hlike] at hparse
    exact ⟨runtime, rfl, hparse⟩

/-- Without a configuration there is no text yet. -/
theorem parsedAs_of_none {runtime : EmmyrcRuntime} {content : Option FileContent}
    {parsed : Option (h.Tree × h.LineIndex)} (hparsed : ParsedAs none content parsed) :
    ParsedAs (some runtime) content parsed := by
  cases content with
  | none => exact hparsed
  | some data =>
    obtain ⟨before, hbefore, -⟩ := hparsed
    cases hbefore

/-- What a change of the configuration alone keeps. -/
theorem consistent_setConfig (hc : Consistent vfs) {runtime : EmmyrcRuntime}
    (hsame : ∀ content (parsed : Option (h.Tree × h.LineIndex)),
      ParsedAs vfs.emmyrc content parsed → ParsedAs (some runtime) content parsed) :
    Consistent { vfs with emmyrc := some runtime } := by
  refine ⟨⟨hc.paths.inverse, hc.paths.ordered, hc.paths.numbered, hc.paths.remote⟩, ⟨?_, ?_⟩,
    ⟨hc.revised.numbered, hc.revised.taken, hc.revised.staged, hc.revised.newer⟩⟩
  · intro id
    obtain ⟨parsed, hparsed, hmaps⟩ := hc.texts.taken id
    exact ⟨parsed, hsame _ _ hparsed, hmaps⟩
  · intro id staged hlookup
    exact hsame _ _ (hc.texts.staged id staged hlookup)

/-- **A configuration leaves every text with its parse.** -/
theorem consistent_updateConfig (hc : Consistent vfs) (runtime : EmmyrcRuntime) :
    Consistent (vfs.updateConfig runtime) ∧ Since vfs (vfs.updateConfig runtime) := by
  have hsince : Since vfs { vfs with emmyrc := some runtime } :=
    ⟨le_rfl, fun _ data hdata => .inr ⟨data, hdata, rfl, rfl⟩⟩
  unfold updateConfig
  cases hold : vfs.emmyrc with
  | none =>
    refine ⟨consistent_setConfig hc ?_, hsince⟩
    rw [hold]
    exact fun content parsed => parsedAs_of_none
  | some old =>
    show Consistent (if (!old.parsesLike runtime) = true then _ else _) ∧
      Since vfs (if (!old.parsesLike runtime) = true then _ else _)
    by_cases hlike : old.parsesLike runtime = true
    · rw [if_neg (by rw [hlike]; decide)]
      refine ⟨consistent_setConfig hc ?_, hsince⟩
      rw [hold]
      exact fun content parsed => parsedAs_of_parsesLike hlike
    · rw [if_pos (by rw [Bool.not_eq_true] at hlike; rw [hlike]; rfl)]
      exact consistent_reparseAll hc

theorem updateConfig_reads (runtime : EmmyrcRuntime) :
    (vfs.updateConfig runtime).fileData = vfs.fileData ∧
      (vfs.updateConfig runtime).lineIndexMap = vfs.lineIndexMap := by
  unfold updateConfig
  dsimp only
  split
  · exact ⟨rfl, rfl⟩
  · exact ⟨rfl, rfl⟩

/-! ## §2. Calls -/

/-- A parse handed in is that of its text under the configuration at hand. -/
def ParsedRight (vfs : Vfs h) : Label h → Prop
  | .setFileContentPreparsed _ text tree lineIndex _ =>
    Parses vfs text (some (tree, lineIndex))
  | _ => True

/-- The file is taken. -/
def Label.takes (id : Nat) : Label h → Prop
  | .takeStaged ids => id ∈ ids
  | _ => False

/-- Texts may be parsed again. -/
def Label.reparses : Label h → Prop
  | .updateConfig _ => True
  | _ => False

/-- What readers see of a file that is not taken stays, but for its path and its parse. -/
structure ReadsStay (label : Label h) (vfs vfs' : Vfs h) (id : Nat) : Prop where
  content : vfs'.getFileContent id = vfs.getFileContent id
  revision : vfs'.getFileRevision id = vfs.getFileRevision id
  tree : ¬ label.reparses → vfs'.getSyntaxTree id = vfs.getSyntaxTree id
  document : ∀ path, vfs'.documentAt id path = vfs.documentAt id path

theorem readsStay_of_seen {label : Label h} {id : Nat}
    (hseen : (vfs'.taken id).map FileContent.seen = (vfs.taken id).map FileContent.seen)
    (htree : ¬ label.reparses → vfs'.treeMap.lookup id = vfs.treeMap.lookup id)
    (hline : vfs'.lineIndexMap.lookup id = vfs.lineIndexMap.lookup id) :
    ReadsStay label vfs vfs' id := by
  have hcontent : vfs'.getFileContent id = vfs.getFileContent id := by
    have hfst := congrArg (Option.map Prod.fst) hseen
    rw [Option.map_map, Option.map_map] at hfst
    exact hfst
  have hrevision : vfs'.getFileRevision id = vfs.getFileRevision id := by
    have hsnd := congrArg (Option.map Prod.snd) hseen
    rw [Option.map_map, Option.map_map] at hsnd
    exact hsnd
  refine ⟨hcontent, hrevision, htree, ?_⟩
  intro path
  unfold documentAt
  rw [hcontent, hline]

/-- What a call does. -/
structure Steps (label : Label h) (vfs vfs' : Vfs h) : Prop where
  consistent : Consistent vfs'
  since : Since vfs vfs'
  reads : ∀ id, ¬ label.takes id → ReadsStay label vfs vfs' id
  takes : ∀ id, label.takes id →
    vfs'.getFileContent id = vfs.latestContent id ∧ vfs'.staged.lookup id = none

theorem Quiet.steps {label : Label h} (hq : Quiet vfs vfs') (htakes : ∀ id, ¬ label.takes id) :
    Steps label vfs vfs' := by
  refine ⟨hq.consistent, hq.since, ?_, fun id htake => absurd htake (htakes id)⟩
  intro id _
  apply readsStay_of_seen (hq.seen id)
  · exact fun _ => by rw [hq.trees]
  · rw [hq.lines]

section

variable (hc : Consistent vfs)
include hc

theorem quiet_setFileContent {uri : h.Uri} {data : Option String}
    {id : Nat} (hset : vfs.setFileContent uri data = some (vfs', id)) : Quiet vfs vfs' := by
  have hnames := names_fileId hc uri
  obtain ⟨staged, hstaged, hpair⟩ := Option.map_eq_some_iff.1 hset
  rw [← (Prod.mk.inj hpair).1]
  exact hnames.quiet.trans
    (quiet_stageParsed hnames.quiet.consistent hnames.numbered data false hstaged)

theorem quiet_setRemoteFileContent {uri : h.Uri} {data : Option String}
    {id : Nat} (hset : vfs.setRemoteFileContent uri data = some (vfs', id)) : Quiet vfs vfs' := by
  have hnames := names_virtualFileId hc uri
  obtain ⟨staged, hstaged, hpair⟩ := Option.map_eq_some_iff.1 hset
  rw [← (Prod.mk.inj hpair).1]
  exact hnames.quiet.trans
    (quiet_stageParsed hnames.quiet.consistent hnames.numbered data true hstaged)

/-- A file that a path names has a number. -/
theorem numbered_of_getFileId {uri : h.Uri} {id : Nat}
    (hid : vfs.getFileId uri = some id) : id < vfs.fileData.length := by
  obtain ⟨path, -, hknown⟩ := Option.bind_eq_some_iff.1 hid
  obtain ⟨known, hpath, -⟩ := (hc.paths.inverse (h.pathKey path) id).1 hknown
  exact hc.paths.numbered id known hpath

theorem numbered_leavePath {uri : h.Uri} {id : Nat} (hid : vfs.getFileId uri = some id) :
    id < (vfs.leavePath id).fileData.length := by
  have hdata : (vfs.leavePath id).fileData = vfs.fileData := by
    unfold leavePath
    cases vfs.filePathMap.lookup id <;> rfl
  rw [hdata]
  exact numbered_of_getFileId hc hid

theorem quiet_setFileContentPreparsed (uri : h.Uri)
    {text : Option String} {tree : h.Tree} {lineIndex : h.LineIndex} (version : Option Int)
    (hright : Parses vfs text (some (tree, lineIndex))) :
    Quiet vfs (vfs.setFileContentPreparsed uri text tree lineIndex version).1 := by
  have hstage : ∀ named : Vfs h × Nat, Names vfs named →
      Quiet vfs (if olderVersion version (named.1.latestVersion named.2) then (named.1, none)
        else (named.1.stage named.2 text (some (tree, lineIndex)) false version,
          some named.2)).1 := by
    intro named hnames
    split
    · exact hnames.quiet
    · refine hnames.quiet.trans (quiet_stage hnames.quiet.consistent hnames.numbered ?_ false
        version)
      unfold Parses
      rw [hnames.emmyrc]
      exact hright
  unfold setFileContentPreparsed
  dsimp only
  split
  · exact .refl hc
  · cases hid : vfs.getFileId uri with
    | none => exact hstage _ (names_fileId hc uri)
    | some id => exact hstage (vfs, id) ⟨.refl hc, numbered_of_getFileId hc hid, rfl⟩

/-- A parse that is used again is that of the text. -/
theorem parses_reusableParse {id : Nat} {text : String}
    {parsed : h.Tree × h.LineIndex} (hreused : vfs.reusableParse id text = some parsed) :
    Parses vfs (some text) (some parsed) := by
  unfold reusableParse at hreused
  dsimp only at hreused
  split at hreused
  · rename_i hlatest
    have hparsed : ParsedAs vfs.emmyrc (vfs.latest id) (some parsed) := by
      cases hstaged : vfs.staged.lookup id with
      | some staged =>
        rw [hstaged] at hreused
        rw [(latest_of_staged hstaged).1, ← show staged.parsed = some parsed from hreused]
        exact hc.texts.staged id staged hstaged
      | none =>
        rw [hstaged] at hreused
        rw [(latest_of_unstaged hstaged).1]
        obtain ⟨known, hknown, htree, hline⟩ := hc.texts.taken id
        have hboth : known = some parsed := by
          rw [← show (vfs.treeMap.lookup id).bind _ = some parsed from hreused, htree, hline]
          cases known with
          | none => rfl
          | some known => rfl
        rw [← hboth]
        exact hknown
    intro text' htext'
    obtain ⟨data, hdata, hcontent⟩ := Option.map_eq_some_iff.1 hlatest
    rw [hdata] at hparsed
    obtain ⟨runtime, hruntime, hparse⟩ := hparsed
    rw [← Option.some.inj htext', ← hcontent]
    exact ⟨runtime, hruntime, hparse⟩
  · cases hreused

theorem quiet_moveFile {old new : h.Uri} {text : String} {id : Option Nat}
    (hmove : vfs.moveFile old new text = some (vfs', id)) : Quiet vfs vfs' := by
  unfold moveFile at hmove
  split at hmove
  · rename_i id newPath hid hnew
    split at hmove
    · rw [← (Prod.mk.inj (Option.some.inj hmove)).1]
      exact .refl hc
    · rename_i hfree
      rw [Option.not_isSome_iff_eq_none] at hfree
      obtain ⟨hleave, hunplaced⟩ := quiet_leavePath hc id
      have hnumbered := numbered_leavePath hc hid
      have htake := quiet_takePath hleave.consistent hnumbered hunplaced
        (leavePath_fileIdMap hfree id)
      obtain ⟨parsed, hparsed, hpair⟩ := Option.map_eq_some_iff.1 hmove
      rw [← (Prod.mk.inj hpair).1]
      refine (hleave.trans htake).trans (quiet_stage htake.consistent hnumbered ?_ false none)
      obtain hreused | ⟨-, hparse⟩ := Option.or_eq_some_iff.1 hparsed
      · exact parses_reusableParse htake.consistent hreused
      · exact parses_parse hparse
  · rw [← (Prod.mk.inj (Option.some.inj hmove)).1]
    exact .refl hc

theorem quiet_removeFile (uri : h.Uri) : Quiet vfs (vfs.removeFile uri).1 := by
  unfold removeFile
  cases hid : vfs.getFileId uri with
  | none => exact .refl hc
  | some id =>
    obtain ⟨hleave, hunplaced⟩ := quiet_leavePath hc id
    have hdrop := quiet_dropKey hleave.consistent hunplaced
    have hnumbered := numbered_leavePath hc hid
    exact (hleave.trans hdrop).trans
      (quiet_stage hdrop.consistent hnumbered (parses_none _ none) false none)

end

/-- **What one call does**: the store stays consistent, and readers see nothing but what is
    taken. -/
theorem steps_step {label : Label h} (hc : Consistent vfs) (hright : ParsedRight vfs label)
    (hstep : step vfs label = some vfs') : Steps label vfs vfs' := by
  cases label with
  | updateConfig runtime =>
    cases hstep
    obtain ⟨hconsistent, hsince⟩ := consistent_updateConfig hc runtime
    refine ⟨hconsistent, hsince, ?_, fun id htakes => htakes.elim⟩
    intro id _
    obtain ⟨hdata, hlines⟩ := @updateConfig_reads h vfs runtime
    apply readsStay_of_seen
    · unfold taken
      rw [hdata]
    · exact fun hnot => absurd trivial hnot
    · rw [hlines]
  | setOrderRoots roots =>
    cases hstep
    exact (quiet_setOrderRoots hc roots).steps fun _ htakes => htakes
  | setFileContent uri data =>
    obtain ⟨result, hset, rfl⟩ := Option.map_eq_some_iff.1 hstep
    exact (quiet_setFileContent hc hset).steps fun _ htakes => htakes
  | setFileContentPreparsed uri text tree lineIndex version =>
    cases hstep
    exact (quiet_setFileContentPreparsed hc uri version hright).steps fun _ htakes => htakes
  | setRemoteFileContent uri data =>
    obtain ⟨result, hset, rfl⟩ := Option.map_eq_some_iff.1 hstep
    exact (quiet_setRemoteFileContent hc hset).steps fun _ htakes => htakes
  | deleteFileContent uri =>
    obtain ⟨result, hdelete, rfl⟩ := Option.map_eq_some_iff.1 hstep
    refine Quiet.steps ?_ fun _ htakes => htakes
    unfold deleteFileContent at hdelete
    cases hid : vfs.getFileId uri with
    | none =>
      rw [hid] at hdelete
      cases hdelete
      exact .refl hc
    | some id =>
      rw [hid] at hdelete
      obtain ⟨set, hset, rfl⟩ := Option.map_eq_some_iff.1 hdelete
      exact quiet_setFileContent hc hset
  | moveFile old new text =>
    obtain ⟨result, hmove, rfl⟩ := Option.map_eq_some_iff.1 hstep
    exact (quiet_moveFile hc hmove).steps fun _ htakes => htakes
  | removeFile uri =>
    cases hstep
    exact (quiet_removeFile hc uri).steps fun _ htakes => htakes
  | takeStaged ids =>
    cases hstep
    have htakes := takes_takeStaged ids vfs hc
    refine ⟨htakes.consistent, htakes.since, ?_, ?_⟩
    · intro id hid
      have hnot : id ∉ ids := hid
      apply readsStay_of_seen
      · rw [htakes.taken, if_neg hnot]
      · exact fun _ => by rw [htakes.trees, if_neg hnot]
      · rw [htakes.lines, if_neg hnot]
    · intro id hid
      have hmem : id ∈ ids := hid
      unfold getFileContent latestContent
      rw [htakes.taken, htakes.staged, if_pos hmem, if_pos hmem]
      exact ⟨rfl, rfl⟩
  | forgetTakenDeletions =>
    cases hstep
    exact (quiet_forgetTakenDeletions hc).steps fun _ htakes => htakes
  | updateFileVersion id version =>
    cases hstep
    exact (quiet_updateFileVersion hc id version).steps fun _ htakes => htakes
  | forgetFileVersion id =>
    cases hstep
    exact (quiet_forgetFileVersion hc id).steps fun _ htakes => htakes

/-- A text older than the latest is refused. -/
theorem step_of_olderVersion {uri : h.Uri} {id : Nat} {version current : Int}
    (hid : vfs.getFileId uri = some id) (hcurrent : vfs.latestVersion id = some current)
    (holder : version < current) (text : Option String) (tree : h.Tree) (lineIndex : h.LineIndex) :
    vfs.setFileContentPreparsed uri text tree lineIndex (some version) = (vfs, none) := by
  unfold setFileContentPreparsed
  rw [hid]
  dsimp only
  rw [hcurrent, Option.isNone_some, Bool.and_false, if_neg Bool.false_ne_true, if_pos]
  exact decide_eq_true holder

/-! ## §3. Runs -/

/-- One call leads to the other. -/
def Leads (vfs vfs' : Vfs h) : Prop :=
  ∃ label, ParsedRight vfs label ∧ step vfs label = some vfs'

/-- Calls lead to the other. -/
def Reaches (vfs vfs' : Vfs h) : Prop := Relation.ReflTransGen Leads vfs vfs'

theorem consistent_of_reaches (hc : Consistent vfs) (hreaches : Reaches vfs vfs') :
    Consistent vfs' ∧ Since vfs vfs' := by
  induction hreaches with
  | refl => exact ⟨hc, .refl vfs⟩
  | tail _ hlast ih =>
    obtain ⟨label, hright, hstep⟩ := hlast
    have hsteps := steps_step ih.1 hright hstep
    exact ⟨hsteps.consistent, ih.2.trans hsteps.since⟩

/-- A revision is of one text, however much later it is seen. -/
theorem content_of_revision (hc : Consistent vfs) (hsince : Since vfs vfs') {id revision : Nat}
    (hrevision : vfs.getFileRevision id = some revision)
    (hrevision' : vfs'.getFileRevision id = some revision) :
    vfs'.getFileContent id = vfs.getFileContent id := by
  obtain ⟨data, hdata, rfl⟩ := Option.map_eq_some_iff.1 hrevision
  obtain ⟨data', hdata', hsame⟩ := Option.map_eq_some_iff.1 hrevision'
  unfold getFileContent
  rw [hdata, hdata']
  have hbound := hc.revised.taken id data hdata
  obtain hnew | ⟨old, hold, holdRevision, hcontent⟩ := hsince.text id data' (.inl hdata')
  · rw [hsame] at hnew
    exact absurd hbound (not_le_of_gt hnew)
  · obtain htaken | ⟨staged, hlookup, hstaged⟩ := hold
    · rw [hdata] at htaken
      rw [Option.some.inj htaken]
      exact congrArg some hcontent.symm
    · -- what was staged then is newer than what was taken then
      have hnewer := hc.revised.newer id staged old data hlookup hstaged hdata
      rw [holdRevision, hsame] at hnewer
      exact absurd hnewer (lt_irrefl _)

/-- **The virtual file system is consistent.**  Of every store that calls lead to: its paths
    and parses agree; a call shows readers nothing of a file but what it takes, and the latest
    staged text where it takes it; a revision of a file is of one text; and an older version
    of a file's text is refused. -/
theorem vfs_consistent (h : Host) (vfs : Vfs h) (hreached : Reaches (Vfs.new h) vfs) :
    Consistent vfs ∧
    (∀ label vfs', ParsedRight vfs label → step vfs label = some vfs' →
      (∀ id, ¬ label.takes id → ReadsStay label vfs vfs' id) ∧
      ∀ id, label.takes id →
        vfs'.getFileContent id = vfs.latestContent id ∧ vfs'.staged.lookup id = none) ∧
    (∀ vfs' id revision, Reaches vfs vfs' → vfs.getFileRevision id = some revision →
      vfs'.getFileRevision id = some revision →
        vfs'.getFileContent id = vfs.getFileContent id) ∧
    ∀ uri id version current text tree lineIndex, vfs.getFileId uri = some id →
      vfs.latestVersion id = some current → version < current →
      vfs.setFileContentPreparsed uri text tree lineIndex (some version) = (vfs, none) := by
  have hc := (consistent_of_reaches (consistent_new h) hreached).1
  refine ⟨hc, ?_, ?_, ?_⟩
  · intro label vfs' hright hstep
    have hsteps := steps_step hc hright hstep
    exact ⟨hsteps.reads, hsteps.takes⟩
  · intro vfs' id revision hreaches hrevision hrevision'
    exact content_of_revision hc (consistent_of_reaches hc hreaches).2 hrevision hrevision'
  · intro uri id version current text tree lineIndex hid hcurrent holder
    exact step_of_olderVersion hid hcurrent holder text tree lineIndex

/-! ## §4. One file -/

/-- A host whose paths are numbers and whose trees are texts. -/
def plainHost : Host where
  Uri := Nat
  Path := Nat
  PathKey := Nat
  Tree := String
  LineIndex := String
  uriToFilePath := some
  uriText := fun _ => []
  pathText := fun path => ['/', Char.ofNat (97 + path)]
  pathKey := fun path => path
  toLowercase := fun text => text
  parseLua := fun _ text => text
  parseLines := fun text => text

/-- A file whose text was taken, and a newer one staged. -/
def oneFile : List (Label plainHost) :=
  [.updateConfig ⟨[], [], ∅⟩, .setFileContent (0 : Nat) (some "local a = 1"), .takeStaged [0],
    .setFileContentPreparsed (0 : Nat) (some "local a = 2") "local a = 2" "local a = 2" (some 2)]

def storeAfter (labels : List (Label plainHost)) : Vfs plainHost :=
  (labels.foldlM step (Vfs.new plainHost)).getD (Vfs.new plainHost)

theorem reaches_oneFile : Reaches (Vfs.new plainHost) (storeAfter oneFile) := by
  have hconfigured : Leads (Vfs.new plainHost) (storeAfter (oneFile.take 1)) :=
    ⟨.updateConfig ⟨[], [], ∅⟩, trivial, rfl⟩
  have hstaged : Leads (storeAfter (oneFile.take 1)) (storeAfter (oneFile.take 2)) :=
    ⟨.setFileContent (0 : Nat) (some "local a = 1"), trivial, rfl⟩
  have htaken : Leads (storeAfter (oneFile.take 2)) (storeAfter (oneFile.take 3)) :=
    ⟨.takeStaged [0], trivial, rfl⟩
  have hnewer : Leads (storeAfter (oneFile.take 3)) (storeAfter oneFile) := by
    refine ⟨.setFileContentPreparsed (0 : Nat) (some "local a = 2") "local a = 2" "local a = 2"
      (some 2), ?_, rfl⟩
    intro text htext
    cases htext
    exact ⟨⟨[], [], ∅⟩, rfl, rfl⟩
  exact (((Relation.ReflTransGen.single hconfigured).tail hstaged).tail htaken).tail hnewer

theorem vfs_consistent_oneFile :
    Consistent (storeAfter oneFile) ∧
      (storeAfter oneFile).setFileContentPreparsed (0 : Nat) (some "local a = 3") "local a = 3"
        "local a = 3" (some 1) = (storeAfter oneFile, none) := by
  have hconsistent := vfs_consistent plainHost (storeAfter oneFile) reaches_oneFile
  exact ⟨hconsistent.1, hconsistent.2.2.2 (0 : Nat) 0 1 2 (some "local a = 3") "local a = 3"
    "local a = 3" rfl rfl (by decide)⟩

end GluaLs.Vfs
