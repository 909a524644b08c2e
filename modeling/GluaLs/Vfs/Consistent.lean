/-
  GluaLs.Vfs.Consistent — what every store holds.

    • `PathsAgree` — the paths find the files that lie there, and every file that has a path is
      ordered by it,
    • `TextsParsed` — a text comes with its parse under the configuration at hand, and there
      is no parse without a text,
    • `Revised` — a revision is of one text, and what is staged is newer than what was taken.

  Each is kept by what the calls are made of: a file is named, a path goes or comes, a text is
  staged or taken, a deletion is forgotten.
-/
import GluaLs.Vfs.Store

namespace GluaLs.Vfs

open GluaLs.Lib GluaLs.Edit FileContent

variable {h : Host}

/-! ## §1. The invariant -/

/-- The parse of a text, if there is a text. -/
def ParsedAs (emmyrc : Option EmmyrcRuntime) (content : Option FileContent)
    (parsed : Option (h.Tree × h.LineIndex)) : Prop :=
  match content with
  | none => parsed = none
  | some data => ∃ runtime, emmyrc = some runtime ∧
      parsed = some (h.parseLua runtime.getParseConfig data.content, h.parseLines data.content)

structure PathsAgree (vfs : Vfs h) : Prop where
  inverse : Inverse h.pathKey vfs.fileIdMap vfs.filePathMap
  ordered : ∀ id path, vfs.filePathMap.lookup id = some path →
    vfs.fileOrderKeys.lookup id = some (orderKeyForPath h vfs.orderRoots path)
  numbered : ∀ id path, vfs.filePathMap.lookup id = some path → id < vfs.fileData.length
  remote : ∀ uri id, vfs.remoteFileIdMap.lookup uri = some id → id < vfs.fileData.length

structure TextsParsed (vfs : Vfs h) : Prop where
  taken : ∀ id, ∃ parsed, ParsedAs vfs.emmyrc (vfs.taken id) parsed ∧
    vfs.treeMap.lookup id = parsed.map Prod.fst ∧
    vfs.lineIndexMap.lookup id = parsed.map Prod.snd
  staged : ∀ id staged, vfs.staged.lookup id = some staged →
    ParsedAs vfs.emmyrc staged.content staged.parsed

structure Revised (vfs : Vfs h) : Prop where
  numbered : ∀ id staged, vfs.staged.lookup id = some staged → id < vfs.fileData.length
  taken : ∀ id data, vfs.taken id = some data → data.revision ≤ vfs.contentRevision
  staged : ∀ id staged data, vfs.staged.lookup id = some staged → staged.content = some data →
    data.revision ≤ vfs.contentRevision
  newer : ∀ id staged data old, vfs.staged.lookup id = some staged →
    staged.content = some data → vfs.taken id = some old → old.revision < data.revision

/-- **The store is consistent.** -/
structure Consistent (vfs : Vfs h) : Prop where
  paths : PathsAgree vfs
  texts : TextsParsed vfs
  revised : Revised vfs

theorem consistent_new (h : Host) : Consistent (Vfs.new h) where
  paths := by
    refine ⟨inverse_empty _, ?_, ?_, ?_⟩
    · exact nofun
    · exact nofun
    · exact nofun
  texts := ⟨fun _ => ⟨none, rfl, rfl, rfl⟩, nofun⟩
  revised := by
    refine ⟨?_, ?_, ?_, ?_⟩
    · exact nofun
    · exact nofun
    · exact nofun
    · exact nofun

/-! ## §2. What becomes of texts -/

/-- A text of a file, taken or staged. -/
def HasText (vfs : Vfs h) (id : Nat) (data : FileContent) : Prop :=
  vfs.taken id = some data ∨
    ∃ staged, vfs.staged.lookup id = some staged ∧ staged.content = some data

/-- A text is an old one, or has a new revision. -/
structure Since (vfs vfs' : Vfs h) : Prop where
  revision : vfs.contentRevision ≤ vfs'.contentRevision
  text : ∀ id data, HasText vfs' id data → vfs.contentRevision < data.revision ∨
    ∃ old, HasText vfs id old ∧ old.revision = data.revision ∧ old.content = data.content

theorem Since.refl (vfs : Vfs h) : Since vfs vfs where
  revision := le_rfl
  text := fun _ data hdata => .inr ⟨data, hdata, rfl, rfl⟩

theorem Since.trans {vfs vfs' vfs'' : Vfs h} (hs : Since vfs vfs') (hs' : Since vfs' vfs'') :
    Since vfs vfs'' where
  revision := le_trans hs.revision hs'.revision
  text := by
    intro id data hdata
    obtain hnew | ⟨old, hold, hrevision, hcontent⟩ := hs'.text id data hdata
    · exact .inl (lt_of_le_of_lt hs.revision hnew)
    · obtain hnew | ⟨older, holder, hrevision', hcontent'⟩ := hs.text id old hold
      · rw [hrevision] at hnew
        exact .inl hnew
      · exact .inr ⟨older, holder, hrevision'.trans hrevision, hcontent'.trans hcontent⟩

/-- What readers see of a text. -/
def FileContent.seen (data : FileContent) : String × Nat := (data.content, data.revision)

/-- **A change readers do not see**, but for the paths. -/
structure Quiet (vfs vfs' : Vfs h) : Prop where
  consistent : Consistent vfs'
  seen : ∀ id, (vfs'.taken id).map FileContent.seen = (vfs.taken id).map FileContent.seen
  trees : vfs'.treeMap = vfs.treeMap
  lines : vfs'.lineIndexMap = vfs.lineIndexMap
  since : Since vfs vfs'

theorem Quiet.refl {vfs : Vfs h} (hc : Consistent vfs) : Quiet vfs vfs :=
  ⟨hc, fun _ => rfl, rfl, rfl, .refl vfs⟩

theorem Quiet.trans {vfs vfs' vfs'' : Vfs h} (hq : Quiet vfs vfs') (hq' : Quiet vfs' vfs'') :
    Quiet vfs vfs'' :=
  ⟨hq'.consistent, fun id => (hq'.seen id).trans (hq.seen id), hq'.trees.trans hq.trees,
    hq'.lines.trans hq.lines, hq.since.trans hq'.since⟩

variable {vfs vfs' : Vfs h}

/-- The parse of a text is that of any other seen alike. -/
theorem ParsedAs.of_seen {emmyrc : Option EmmyrcRuntime} {content content' : Option FileContent}
    {parsed : Option (h.Tree × h.LineIndex)} (hold : ParsedAs emmyrc content parsed)
    (hseen : content'.map seen = content.map seen) :
    ParsedAs emmyrc content' parsed := by
  cases content with
  | none =>
    cases content' with
    | none => exact hold
    | some data' => cases hseen
  | some data =>
    cases content' with
    | none => cases hseen
    | some data' =>
      obtain ⟨runtime, hruntime, hparse⟩ := hold
      refine ⟨runtime, hruntime, ?_⟩
      rw [show data'.content = data.content from congrArg Prod.fst (Option.some.inj hseen)]
      exact hparse

theorem old_of_seen {content content' : Option FileContent} {data : FileContent}
    (hseen : content'.map seen = content.map seen) (hdata : content' = some data) :
    ∃ old, content = some old ∧ old.revision = data.revision ∧ old.content = data.content := by
  rw [hdata] at hseen
  obtain ⟨old, hold, hsame⟩ := Option.map_eq_some_iff.1 hseen.symm
  exact ⟨old, hold, congrArg Prod.snd hsame, congrArg Prod.fst hsame⟩

/-- A change that shows no text to be another. -/
theorem quiet_of_seen (hc : Consistent vfs) (hpaths : PathsAgree vfs')
    (htaken : ∀ id, (vfs'.taken id).map seen = (vfs.taken id).map seen)
    (hstaged : ∀ id staged, vfs'.staged.lookup id = some staged →
      ∃ old, vfs.staged.lookup id = some old ∧ staged.parsed = old.parsed ∧
        staged.content.map seen = old.content.map seen)
    (hlength : vfs.fileData.length ≤ vfs'.fileData.length) (hemmyrc : vfs'.emmyrc = vfs.emmyrc)
    (htrees : vfs'.treeMap = vfs.treeMap) (hlines : vfs'.lineIndexMap = vfs.lineIndexMap)
    (hrevision : vfs'.contentRevision = vfs.contentRevision) : Quiet vfs vfs' := by
  have hstagedOf : ∀ id staged data, vfs'.staged.lookup id = some staged →
      staged.content = some data → ∃ before old, vfs.staged.lookup id = some before ∧
        before.content = some old ∧ old.revision = data.revision ∧
          old.content = data.content := by
    intro id staged data hlookup hdata
    obtain ⟨before, hbefore, -, hseen⟩ := hstaged id staged hlookup
    obtain ⟨old, hold, hsame⟩ := old_of_seen hseen hdata
    exact ⟨before, old, hbefore, hold, hsame⟩
  refine ⟨⟨hpaths, ⟨?_, ?_⟩, ⟨?_, ?_, ?_, ?_⟩⟩, htaken, htrees, hlines,
    ⟨le_of_eq hrevision.symm, ?_⟩⟩
  · intro id
    obtain ⟨parsed, hold, hread⟩ := hc.texts.taken id
    rw [hemmyrc, htrees, hlines]
    exact ⟨parsed, hold.of_seen (htaken id), hread⟩
  · intro id staged hlookup
    obtain ⟨before, hbefore, hsame, hseen⟩ := hstaged id staged hlookup
    rw [hemmyrc, hsame]
    exact (hc.texts.staged id before hbefore).of_seen hseen
  · intro id staged hlookup
    obtain ⟨before, hbefore, -⟩ := hstaged id staged hlookup
    exact lt_of_lt_of_le (hc.revised.numbered id before hbefore) hlength
  · intro id data hdata
    obtain ⟨old, hold, hsame, -⟩ := old_of_seen (htaken id) hdata
    rw [hrevision, ← hsame]
    exact hc.revised.taken id old hold
  · intro id staged data hlookup hdata
    obtain ⟨before, old, hbefore, hold, hsame, -⟩ := hstagedOf id staged data hlookup hdata
    rw [hrevision, ← hsame]
    exact hc.revised.staged id before old hbefore hold
  · intro id staged data other hlookup hdata hother
    obtain ⟨before, old, hbefore, hold, hsame, -⟩ := hstagedOf id staged data hlookup hdata
    obtain ⟨old', hold', hsame', -⟩ := old_of_seen (htaken id) hother
    rw [← hsame, ← hsame']
    exact hc.revised.newer id before old old' hbefore hold hold'
  · rintro id data (hnow | ⟨staged, hlookup, hcontent⟩)
    · obtain ⟨old, hold, hsame⟩ := old_of_seen (htaken id) hnow
      exact .inr ⟨old, .inl hold, hsame⟩
    · obtain ⟨before, old, hbefore, hold, hsame⟩ := hstagedOf id staged data hlookup hcontent
      exact .inr ⟨old, .inr ⟨before, hbefore, hold⟩, hsame⟩

/-- A change of the paths alone. -/
theorem quiet_of_paths (hc : Consistent vfs) (hpaths : PathsAgree vfs')
    (htaken : ∀ id, vfs'.taken id = vfs.taken id)
    (hlength : vfs.fileData.length ≤ vfs'.fileData.length) (hemmyrc : vfs'.emmyrc = vfs.emmyrc)
    (htrees : vfs'.treeMap = vfs.treeMap) (hlines : vfs'.lineIndexMap = vfs.lineIndexMap)
    (hstaged : vfs'.staged = vfs.staged) (hrevision : vfs'.contentRevision = vfs.contentRevision) :
    Quiet vfs vfs' := by
  refine quiet_of_seen hc hpaths (fun id => by rw [htaken]) ?_ hlength hemmyrc htrees hlines
    hrevision
  intro id staged hlookup
  exact ⟨staged, hstaged ▸ hlookup, rfl, rfl⟩

/-- A change of the texts alone. -/
theorem PathsAgree.keep (hp : PathsAgree vfs) (hids : vfs'.fileIdMap = vfs.fileIdMap)
    (hpaths : vfs'.filePathMap = vfs.filePathMap) (hkeys : vfs'.fileOrderKeys = vfs.fileOrderKeys)
    (hroots : vfs'.orderRoots = vfs.orderRoots)
    (hremote : vfs'.remoteFileIdMap = vfs.remoteFileIdMap)
    (hlength : vfs'.fileData.length = vfs.fileData.length) : PathsAgree vfs' := by
  refine ⟨?_, ?_, ?_, ?_⟩
  · rw [hids, hpaths]
    exact hp.inverse
  · rw [hpaths, hkeys, hroots]
    exact hp.ordered
  · rw [hpaths, hlength]
    exact hp.numbered
  · rw [hremote, hlength]
    exact hp.remote

/-! ## §3. A file is named -/

theorem join_getElem?_append_none (data : List (Option FileContent)) (id : Nat) :
    ((data ++ [none])[id]?).join = (data[id]?).join := by
  rw [List.getElem?_append]
  split
  · rfl
  · rename_i hlt
    rw [List.getElem?_eq_none (Nat.le_of_not_lt hlt), List.getElem?_singleton]
    split
    · rfl
    · rfl

theorem taken_append_none (hdata : vfs'.fileData = vfs.fileData ++ [none]) (id : Nat) :
    vfs'.taken id = vfs.taken id := by
  unfold taken
  rw [hdata]
  exact join_getElem?_append_none _ id

theorem length_lt_append_none (data : List (Option FileContent)) :
    data.length < (data ++ [none]).length := by
  rw [List.length_append]
  exact Nat.lt_succ_self _

/-- Naming a file keeps what readers see, and the file has a number. -/
structure Names (vfs : Vfs h) (named : Vfs h × Nat) : Prop where
  quiet : Quiet vfs named.1
  numbered : named.2 < named.1.fileData.length
  emmyrc : named.1.emmyrc = vfs.emmyrc

/-- A new id that no path has. -/
theorem names_unpathed (hc : Consistent vfs) (orderKey : Text)
    (remote : HashMap h.Uri Nat) (hremote : ∀ uri id, remote.lookup uri = some id →
      id = vfs.fileData.length ∨ vfs.remoteFileIdMap.lookup uri = some id) :
    Names vfs ({ vfs with
      fileOrderKeys := vfs.fileOrderKeys.insert vfs.fileData.length orderKey
      remoteFileIdMap := remote
      fileData := vfs.fileData ++ [none] }, vfs.fileData.length) := by
  refine ⟨quiet_of_paths hc ?_ (fun id => taken_append_none rfl id) ?_ rfl rfl rfl rfl rfl, ?_, rfl⟩
  · refine ⟨hc.paths.inverse, ?_, ?_, ?_⟩
    · intro id path hpath
      rw [lookup_insert_ite, if_neg (ne_of_lt (hc.paths.numbered id path hpath))]
      exact hc.paths.ordered id path hpath
    · intro id path hpath
      exact lt_trans (hc.paths.numbered id path hpath) (length_lt_append_none _)
    · intro other id hlookup
      obtain rfl | hknown := hremote other id hlookup
      · exact length_lt_append_none _
      · exact lt_trans (hc.paths.remote other id hknown) (length_lt_append_none _)
  · exact le_of_lt (length_lt_append_none _)
  · exact length_lt_append_none _

theorem names_fileId (hc : Consistent vfs) (uri : h.Uri) : Names vfs (vfs.fileId uri) := by
  unfold fileId
  cases h.uriToFilePath uri with
  | none => exact names_unpathed hc _ _ fun _ _ => .inr
  | some path =>
    dsimp only
    cases hknown : vfs.fileIdMap.lookup (h.pathKey path) with
    | some known =>
      refine ⟨.refl hc, ?_, rfl⟩
      obtain ⟨known', hpath, -⟩ := (hc.paths.inverse (h.pathKey path) known).1 hknown
      exact hc.paths.numbered known known' hpath
    | none =>
      have hfresh : vfs.filePathMap.lookup vfs.fileData.length = none := by
        cases hlookup : vfs.filePathMap.lookup vfs.fileData.length with
        | none => rfl
        | some other => exact absurd (hc.paths.numbered _ other hlookup) (lt_irrefl _)
      refine ⟨quiet_of_paths hc ?_ (fun id => taken_append_none rfl id) ?_ rfl rfl rfl rfl rfl,
        ?_, rfl⟩
      · refine ⟨inverse_insert hc.paths.inverse hknown hfresh, ?_, ?_, ?_⟩
        · intro id other hother
          rw [lookup_insert_ite]
          obtain ⟨rfl, rfl⟩ | ⟨hne, hother⟩ := lookup_insert_some hother
          · exact if_pos rfl
          · rw [if_neg hne]
            exact hc.paths.ordered id other hother
        · intro id other hother
          obtain ⟨rfl, -⟩ | ⟨-, hother⟩ := lookup_insert_some hother
          · exact length_lt_append_none _
          · exact lt_trans (hc.paths.numbered id other hother) (length_lt_append_none _)
        · intro other id hremote
          exact lt_trans (hc.paths.remote other id hremote) (length_lt_append_none _)
      · exact le_of_lt (length_lt_append_none _)
      · exact length_lt_append_none _

theorem names_virtualFileId (hc : Consistent vfs) (uri : h.Uri) :
    Names vfs (vfs.virtualFileId uri) := by
  unfold virtualFileId
  cases hknown : vfs.remoteFileIdMap.lookup uri with
  | some known => exact ⟨.refl hc, hc.paths.remote uri known hknown, rfl⟩
  | none =>
    exact names_unpathed hc _ _ fun _ _ hremote =>
      (lookup_insert_some hremote).imp (fun hnew => hnew.2.symm) And.right

end GluaLs.Vfs
