/-
  GluaLs.Vfs.Store — the virtual file system (`vfs/mod.rs`).

  A file has a number, and the store says under it what the file's text is, how it parses and
  where it lies.  A change is first STAGED: readers see the text that was TAKEN last, until an
  analysis takes the staged one.

    • `file_id_map`, `file_path_map`, `file_order_keys` — the paths,
    • `file_data`, `tree_map`, `line_index_map` — what was taken,
    • `staged`, `deleted`, `left_paths` — what was not.

  Files are numbered as `file_data` grows.  What the host decides (how a URI names a path, when
  two paths are one, how text parses) is taken as it comes (`Host`).
-/
import Mathlib.Data.Char
import Mathlib.Data.List.DropRight
import Mathlib.Data.Prod.Lex
import GluaLs.Edit.Diff
import GluaLs.Lib.Buckets
import GluaLs.Lib.TextPosition
import GluaLs.Syntax.Parser

namespace GluaLs.Vfs

open GluaLs.Lib

section

open GluaLs.Syntax

/-! ## §1. Settings

  Only some of the runtime settings reach the parser.  `parses_like` compares just these, so
  that a change of the others parses nothing again: two runtimes that parse alike give the
  parser one configuration (`getParseConfig_congr`).
-/

inductive EmmyrcNonStdSymbol where
  | DoubleSlash | SlashStar | Backtick | PlusAssign | MinusAssign | StarAssign | SlashAssign
  | PercentAssign | CaretAssign | DoubleSlashAssign | PipeAssign | AmpAssign | ShiftLeftAssign
  | ShiftRightAssign | DoublePipe | DoubleAmp | Exclamation | NotEqual | Continue
  deriving DecidableEq

/-- `From<EmmyrcNonStdSymbol> for LuaNonStdSymbol` -/
def EmmyrcNonStdSymbol.toSymbol : EmmyrcNonStdSymbol → LuaNonStdSymbol
  | .DoubleSlash => .DoubleSlash
  | .SlashStar => .SlashStar
  | .Backtick => .Backtick
  | .PlusAssign => .PlusAssign
  | .MinusAssign => .MinusAssign
  | .StarAssign => .StarAssign
  | .SlashAssign => .SlashAssign
  | .PercentAssign => .PercentAssign
  | .CaretAssign => .CaretAssign
  | .DoubleSlashAssign => .DoubleSlashAssign
  | .PipeAssign => .PipeAssign
  | .AmpAssign => .AmpAssign
  | .ShiftLeftAssign => .ShiftLeftAssign
  | .ShiftRightAssign => .ShiftRightAssign
  | .DoublePipe => .DoublePipe
  | .DoubleAmp => .DoubleAmp
  | .Exclamation => .Exclamation
  | .NotEqual => .NotEqual
  | .Continue => .Continue

inductive EmmyrcSpecialSymbol where
  | None | Require | Error | Assert | Type | Setmetatable
  deriving DecidableEq

/-- `From<EmmyrcSpecialSymbol> for Option<SpecialFunction>` -/
def EmmyrcSpecialSymbol.toSpecial : EmmyrcSpecialSymbol → Option SpecialFunction
  | .None => none
  | .Require => some .Require
  | .Error => some .Error
  | .Assert => some .Assert
  | .Type => some .Type
  | .Setmetatable => some .Setmetaatable

/-- `EmmyrcRuntime`, as far as it reaches the parser. -/
structure EmmyrcRuntime where
  requireLikeFunction : List String
  nonstandardSymbol : List EmmyrcNonStdSymbol
  special : HashMap String EmmyrcSpecialSymbol

/-- `HashMap::eq` -/
def sameMap {K V : Type} [DecidableEq K] [DecidableEq V] (s t : HashMap K V) : Bool :=
  decide (s.entries.length = t.entries.length) &&
    s.entries.all fun entry => decide (t.lookup entry.1 = some entry.2)

def EmmyrcRuntime.parsesLike (runtime other : EmmyrcRuntime) : Bool :=
  sameMap runtime.special other.special &&
    decide (runtime.requireLikeFunction = other.requireLikeFunction) &&
    decide (runtime.nonstandardSymbol = other.nonstandardSymbol)

/-- What the parser is given. -/
structure ParseConfig where
  parser : ParserConfig
  nonStdSymbols : LuaNonStdSymbolSet

/-- A symbol's name, if it is special. -/
def addSpecial (names : HashMap String SpecialFunction)
    (entry : Sigma fun _ : String => EmmyrcSpecialSymbol) : HashMap String SpecialFunction :=
  match entry.2.toSpecial with
  | some func => names.insert entry.1 func
  | none => names

/-- The functions treated as special, by their names. -/
def EmmyrcRuntime.specialLike (runtime : EmmyrcRuntime) : HashMap String SpecialFunction :=
  runtime.requireLikeFunction.foldl (fun names name => names.insert name .Require)
    (runtime.special.entries.foldl addSpecial ∅)

/-- `get_parse_config`; the level is LuaJIT whatever is configured. -/
def EmmyrcRuntime.getParseConfig (runtime : EmmyrcRuntime) : ParseConfig where
  parser := ⟨.LuaJIT, runtime.specialLike.lookup, true⟩
  nonStdSymbols := runtime.nonstandardSymbol.foldl (fun set symbol => set.add symbol.toSymbol)
    LuaNonStdSymbolSet.new

/-! ## §2. Runtimes that parse alike -/

/-- Equal maps look up the same. -/
theorem lookup_of_sameMap {K V : Type} [DecidableEq K] [DecidableEq V] {s t : HashMap K V}
    (h : sameMap s t = true) (k : K) : s.lookup k = t.lookup k := by
  unfold sameMap at h
  rw [Bool.and_eq_true, decide_eq_true_iff, List.all_eq_true] at h
  obtain ⟨hlength, hall⟩ := h
  have hsub : s.entries ⊆ t.entries := by
    intro entry hentry
    exact (mem_entries_iff t entry.1 entry.2).2 (of_decide_eq_true (hall entry hentry))
  have hnodup : s.entries.Nodup := s.nodupKeys.nodup
  have hperm : s.entries.Perm t.entries :=
    (hnodup.subperm hsub).perm_of_length_le (le_of_eq hlength.symm)
  apply Option.ext
  intro v
  rw [← mem_entries_iff, ← mem_entries_iff, hperm.mem_iff]

theorem lookup_foldl_insert_congr {K V : Type} [DecidableEq K] (keys : List K) (v : V) :
    ∀ s t : HashMap K V, (∀ k, s.lookup k = t.lookup k) → ∀ k,
      (keys.foldl (fun m key => m.insert key v) s).lookup k =
        (keys.foldl (fun m key => m.insert key v) t).lookup k := by
  induction keys with
  | nil => exact fun s t h => h
  | cons key keys ih =>
    intro s t h
    apply ih
    intro k
    rw [lookup_insert_ite, lookup_insert_ite, h]

/-- What the loop over the special symbols leaves under a name. -/
theorem lookup_foldl_addSpecial (special : HashMap String EmmyrcSpecialSymbol)
    (names : HashMap String SpecialFunction) (name : String) :
    (special.entries.foldl addSpecial names).lookup name =
      ((special.lookup name).bind EmmyrcSpecialSymbol.toSpecial).or (names.lookup name) := by
  apply lookup_foldl_insertSome (fun (_ : String) (symbol : EmmyrcSpecialSymbol) =>
    symbol.toSpecial) addSpecial _ special.entries special.nodupKeys
  intro names entry
  unfold addSpecial
  cases entry.2.toSpecial with
  | none => rfl
  | some func => rfl

/-- **Runtimes that parse alike give the parser one configuration.** -/
theorem getParseConfig_congr {runtime other : EmmyrcRuntime} (h : runtime.parsesLike other = true) :
    runtime.getParseConfig = other.getParseConfig := by
  unfold EmmyrcRuntime.parsesLike at h
  rw [Bool.and_eq_true, Bool.and_eq_true, decide_eq_true_iff, decide_eq_true_iff] at h
  obtain ⟨⟨hspecial, hrequire⟩, hsymbols⟩ := h
  have hlike : runtime.specialLike.lookup = other.specialLike.lookup := by
    funext name
    unfold EmmyrcRuntime.specialLike
    rw [hrequire]
    apply lookup_foldl_insert_congr
    intro name
    rw [lookup_foldl_addSpecial runtime.special, lookup_foldl_addSpecial other.special]
    rw [lookup_of_sameMap hspecial]
  unfold EmmyrcRuntime.getParseConfig
  rw [hlike, hsymbols]

end

open GluaLs.Edit

/-! ## §3. Paths -/

/-- What the store is run with.  Paths are compared by their components (`pathKey`); letter
    case is folded on Windows only. -/
structure Host where
  Uri : Type
  Path : Type
  PathKey : Type
  Tree : Type
  LineIndex : Type
  [decUri : DecidableEq Uri]
  [decPathKey : DecidableEq PathKey]
  uriToFilePath : Uri → Option Path
  uriText : Uri → Text
  pathText : Path → Text
  pathKey : Path → PathKey
  toLowercase : Text → Text
  parseLua : ParseConfig → String → Tree
  parseLines : String → LineIndex

attribute [instance] Host.decUri Host.decPathKey

section

variable (h : Host)

def normalizePathForOrdering (path : Text) : Text :=
  h.toLowercase ((path.map fun c => if c = '\\' then '/' else c).rdropWhile fun c => c = '/')

/-- `WorkspaceKind::MERGE_RANK_NONE` -/
def MERGE_RANK_NONE : Nat := 4

/-- A root lies above a normalized path. -/
def rootAbove (normalized root : Text) : Bool :=
  decide (normalized.length > root.length) && root.isPrefixOf normalized &&
    decide (normalized[root.length]? = some '/')

def orderKeyForPath (orderRoots : List (Text × Nat)) (path : h.Path) : Text :=
  let normalized := normalizePathForOrdering h (h.pathText path)
  let known := (orderRoots.find? fun root => rootAbove normalized root.1).getD
    ([], MERGE_RANK_NONE)
  (toString known.2).toList ++ ['\x01'] ++ known.1 ++ ['\x01'] ++
    normalized.drop known.1.length

def orderKeyForUri (orderRoots : List (Text × Nat)) (uri : h.Uri) : Text :=
  match h.uriToFilePath uri with
  | some path => orderKeyForPath h orderRoots path
  | none => (toString (MERGE_RANK_NONE + 1)).toList ++ ['\x01'] ++ h.uriText uri

/-- The longest root first, and then by name and tier. -/
def rootLe (a b : Text × Nat) : Bool :=
  decide (byteLen b.1 < byteLen a.1) ||
    (decide (byteLen a.1 = byteLen b.1) && decide (toLex (a.1, a.2) ≤ toLex (b.1, b.2)))

end

/-! ## §4. The store -/

structure FileContent where
  content : String
  isRemote : Bool
  version : Option Int
  revision : Nat
  deriving DecidableEq

/-- `Staged`; no content is a deletion. -/
structure Staged (h : Host) where
  content : Option FileContent
  parsed : Option (h.Tree × h.LineIndex)

end GluaLs.Vfs

namespace GluaLs

open GluaLs.Lib GluaLs.Vfs

structure Vfs (h : Host) where
  fileIdMap : HashMap h.PathKey Nat
  filePathMap : HashMap Nat h.Path
  fileOrderKeys : HashMap Nat Text
  orderRoots : List (Text × Nat)
  remoteFileIdMap : HashMap h.Uri Nat
  fileData : List (Option FileContent)
  lineIndexMap : HashMap Nat h.LineIndex
  treeMap : HashMap Nat h.Tree
  emmyrc : Option EmmyrcRuntime
  contentRevision : Nat
  staged : HashMap Nat (Staged h)
  deleted : HashSet Nat
  leftPaths : HashMap Nat (List h.Path)

end GluaLs

namespace GluaLs.Vfs

open GluaLs.Lib GluaLs.Edit

variable {h : Host}

/-- `Vfs::new` -/
def new (h : Host) : Vfs h where
  fileIdMap := ∅
  filePathMap := ∅
  fileOrderKeys := ∅
  orderRoots := []
  remoteFileIdMap := ∅
  fileData := []
  lineIndexMap := ∅
  treeMap := ∅
  emmyrc := none
  contentRevision := 0
  staged := ∅
  deleted := ∅
  leftPaths := ∅

variable (vfs : Vfs h)

/-- What was taken of a file. -/
def taken (id : Nat) : Option FileContent := (vfs.fileData[id]?).join

def fileId (uri : h.Uri) : Vfs h × Nat :=
  let id := vfs.fileData.length
  match h.uriToFilePath uri with
  | none =>
    ({ vfs with
      fileOrderKeys := vfs.fileOrderKeys.insert id (orderKeyForUri h vfs.orderRoots uri)
      fileData := vfs.fileData ++ [none] }, id)
  | some path =>
    match vfs.fileIdMap.lookup (h.pathKey path) with
    | some known => (vfs, known)
    | none =>
      ({ vfs with
        fileIdMap := vfs.fileIdMap.insert (h.pathKey path) id
        fileOrderKeys := vfs.fileOrderKeys.insert id (orderKeyForPath h vfs.orderRoots path)
        filePathMap := vfs.filePathMap.insert id path
        fileData := vfs.fileData ++ [none] }, id)

def virtualFileId (uri : h.Uri) : Vfs h × Nat :=
  match vfs.remoteFileIdMap.lookup uri with
  | some known => (vfs, known)
  | none =>
    let id := vfs.fileData.length
    ({ vfs with
      remoteFileIdMap := vfs.remoteFileIdMap.insert uri id
      fileOrderKeys := vfs.fileOrderKeys.insert id (orderKeyForUri h vfs.orderRoots uri)
      fileData := vfs.fileData ++ [none] }, id)

def getFileId (uri : h.Uri) : Option Nat :=
  (h.uriToFilePath uri).bind fun path => vfs.fileIdMap.lookup (h.pathKey path)

def setOrderRoots (roots : List (h.Path × Nat)) : Vfs h :=
  let orderRoots := (roots.map fun root =>
    (normalizePathForOrdering h (h.pathText root.1), root.2)).mergeSort rootLe
  { vfs with
    orderRoots := orderRoots
    fileOrderKeys := vfs.filePathMap.entries.foldl
      (fun keys entry => keys.insert entry.1 (orderKeyForPath h orderRoots entry.2))
      vfs.fileOrderKeys }

/-- `parse`; without a configuration it panics. -/
def parse (text : String) : Option (h.Tree × h.LineIndex) :=
  vfs.emmyrc.map fun runtime => (h.parseLua runtime.getParseConfig text, h.parseLines text)

def stage (id : Nat) (content : Option String) (parsed : Option (h.Tree × h.LineIndex))
    (isRemote : Bool) (version : Option Int) : Vfs h :=
  let revision := vfs.contentRevision + 1
  { vfs with
    contentRevision := revision
    deleted := if content.isNone && !isRemote then vfs.deleted.insert id () else vfs.deleted
    staged := vfs.staged.insert id
      { content := content.map fun content => ⟨content, isRemote, version, revision⟩
        parsed := if content.isSome then parsed else none } }

/-- The text of a file, parsed and staged. -/
def stageParsed (id : Nat) (data : Option String) (isRemote : Bool) : Option (Vfs h) :=
  match data with
  | none => some (vfs.stage id none none isRemote none)
  | some text => (vfs.parse text).map fun parsed =>
    vfs.stage id (some text) (some parsed) isRemote none

def setFileContent (uri : h.Uri) (data : Option String) : Option (Vfs h × Nat) :=
  let named := vfs.fileId uri
  (named.1.stageParsed named.2 data false).map fun vfs => (vfs, named.2)

def latest (id : Nat) : Option FileContent :=
  match vfs.staged.lookup id with
  | some staged => staged.content
  | none => vfs.taken id

def latestContent (id : Nat) : Option String := (vfs.latest id).map FileContent.content

def latestVersion (id : Nat) : Option Int := (vfs.latest id).bind FileContent.version

/-- A version comes before another. -/
def olderVersion (incoming current : Option Int) : Bool :=
  match incoming, current with
  | some incoming, some current => decide (incoming < current)
  | _, _ => false

def setFileContentPreparsed (uri : h.Uri) (text : Option String) (tree : h.Tree)
    (lineIndex : h.LineIndex) (version : Option Int) : Vfs h × Option Nat :=
  let existing := vfs.getFileId uri
  if text.isNone && existing.isNone then (vfs, none)
  else
    let named :=
      match existing with
      | some id => (vfs, id)
      | none => vfs.fileId uri
    if olderVersion version (named.1.latestVersion named.2) then (named.1, none)
    else (named.1.stage named.2 text (some (tree, lineIndex)) false version, some named.2)

def setRemoteFileContent (uri : h.Uri) (data : Option String) : Option (Vfs h × Nat) :=
  let named := vfs.virtualFileId uri
  (named.1.stageParsed named.2 data true).map fun vfs => (vfs, named.2)

def deleteFileContent (uri : h.Uri) : Option (Vfs h × Option Nat) :=
  match vfs.getFileId uri with
  | none => some (vfs, none)
  | some id => (vfs.setFileContent uri none).map fun result => (result.1, some id)

/-- The body of the loop of `forget_taken_deletions`. -/
def forgetDeletion (id : Nat) : Vfs h :=
  let vfs := { vfs with deleted := vfs.deleted.erase id }
  if vfs.fileData[id]? = some none then
    match vfs.filePathMap.lookup id with
    | none => vfs
    | some path =>
      { vfs with
        filePathMap := vfs.filePathMap.erase id
        fileIdMap := vfs.fileIdMap.erase (h.pathKey path)
        fileOrderKeys := vfs.fileOrderKeys.erase id }
  else vfs

def forgetTakenDeletions : Vfs h :=
  (vfs.deleted.keys.filter fun id => (vfs.staged.lookup id).isNone).foldl forgetDeletion vfs

/-- A file's path goes, and is remembered. -/
def leavePath (id : Nat) : Vfs h :=
  match vfs.filePathMap.lookup id with
  | none => vfs
  | some path =>
    { vfs with
      filePathMap := vfs.filePathMap.erase id
      fileIdMap := vfs.fileIdMap.erase (h.pathKey path)
      leftPaths := Buckets.pushTo vfs.leftPaths id path }

/-- The file takes a path. -/
def takePath (id : Nat) (path : h.Path) : Vfs h :=
  { vfs with
    fileIdMap := vfs.fileIdMap.insert (h.pathKey path) id
    fileOrderKeys := vfs.fileOrderKeys.insert id (orderKeyForPath h vfs.orderRoots path)
    filePathMap := vfs.filePathMap.insert id path }

/-- The parse a move may use again. -/
def reusableParse (id : Nat) (text : String) : Option (h.Tree × h.LineIndex) :=
  let reused :=
    match vfs.staged.lookup id with
    | some staged => staged.parsed
    | none => (vfs.treeMap.lookup id).bind fun tree =>
      (vfs.lineIndexMap.lookup id).map fun lineIndex => (tree, lineIndex)
  if vfs.latestContent id = some text then reused else none

def moveFile (old new : h.Uri) (text : String) : Option (Vfs h × Option Nat) :=
  match vfs.getFileId old, h.uriToFilePath new with
  | some id, some newPath =>
    if (vfs.fileIdMap.lookup (h.pathKey newPath)).isSome then some (vfs, none)
    else
      let vfs := (vfs.leavePath id).takePath id newPath
      ((vfs.reusableParse id text).or (vfs.parse text)).map fun parsed =>
        (vfs.stage id (some text) (some parsed) false none, some id)
  | _, _ => some (vfs, none)

def removeFile (uri : h.Uri) : Vfs h × Option Nat :=
  match vfs.getFileId uri with
  | none => (vfs, none)
  | some id =>
    let vfs := vfs.leavePath id
    let vfs := { vfs with fileOrderKeys := vfs.fileOrderKeys.erase id }
    (vfs.stage id none none false none, some id)

/-- The body of the loop of `take_staged`. -/
def takeOne (id : Nat) : Vfs h × List (Nat × PositionMap) :=
  match vfs.staged.lookup id with
  | none => (vfs, [])
  | some staged =>
    ({ vfs with
      staged := vfs.staged.erase id
      fileData := vfs.fileData.set id staged.content
      treeMap :=
        match staged.parsed with
        | some parsed => vfs.treeMap.insert id parsed.1
        | none => vfs.treeMap.erase id
      lineIndexMap :=
        match staged.parsed with
        | some parsed => vfs.lineIndexMap.insert id parsed.2
        | none => vfs.lineIndexMap.erase id },
      match vfs.taken id, staged.content with
      | some old, some new => [(id, PositionMap.new old.content new.content)]
      | _, _ => [])

def takeStaged : List Nat → Vfs h → Vfs h × List (Nat × PositionMap)
  | [], vfs => (vfs, [])
  | id :: ids, vfs =>
    let one := vfs.takeOne id
    let rest := takeStaged ids one.1
    (rest.1, one.2 ++ rest.2)

/-- `reparse_all`, under the configuration at hand. -/
def reparseAll (runtime : EmmyrcRuntime) : Vfs h :=
  { vfs with
    treeMap := vfs.treeMap.entries.foldl (fun trees entry =>
      match vfs.taken entry.1 with
      | none => trees
      | some data =>
        trees.insert entry.1 (h.parseLua runtime.getParseConfig data.content)) vfs.treeMap
    staged := vfs.staged.filterMapEntries fun _ staged =>
      match staged.content with
      | none => some staged
      | some data =>
        some { staged with
          parsed := some (h.parseLua runtime.getParseConfig data.content,
            h.parseLines data.content) } }

def updateConfig (runtime : EmmyrcRuntime) : Vfs h :=
  let reparse := vfs.emmyrc.any fun old => !old.parsesLike runtime
  let vfs := { vfs with emmyrc := some runtime }
  if reparse then vfs.reparseAll runtime else vfs

/-- The version of a text. -/
def FileContent.setVersion (version : Option Int) (data : FileContent) : FileContent :=
  { data with version := version }

def updateFileVersion (id : Nat) (version : Option Int) : Vfs h :=
  match vfs.staged.lookup id with
  | some staged =>
    { vfs with
      staged := vfs.staged.insert id
        { staged with content := staged.content.map (FileContent.setVersion version) } }
  | none =>
    { vfs with
      fileData := vfs.fileData.modify id fun data => data.map (FileContent.setVersion version) }

def forgetFileVersion (id : Nat) : Vfs h :=
  { vfs with
    staged := vfs.staged.filterMapEntries fun other staged =>
      some (if other = id then
        { staged with content := staged.content.map (FileContent.setVersion none) } else staged)
    fileData := vfs.fileData.modify id fun data => data.map (FileContent.setVersion none) }

/-! ## §5. Readers -/

def getFileContent (id : Nat) : Option String := (vfs.taken id).map FileContent.content

def getFileRevision (id : Nat) : Option Nat := (vfs.taken id).map FileContent.revision

def getSyntaxTree (id : Nat) : Option h.Tree := vfs.treeMap.lookup id

structure LuaDocument (h : Host) where
  fileId : Nat
  path : h.Path
  text : String
  lineIndex : h.LineIndex

/-- The document of a file, at a path. -/
def documentAt (id : Nat) (path : h.Path) : Option (LuaDocument h) :=
  (vfs.getFileContent id).bind fun text =>
    (vfs.lineIndexMap.lookup id).map fun lineIndex => ⟨id, path, text, lineIndex⟩

def getDocument (id : Nat) : Option (LuaDocument h) :=
  (vfs.filePathMap.lookup id).bind (vfs.documentAt id)

/-! ## §6. Calls -/

/-- A call. -/
inductive Label (h : Host) where
  | updateConfig (runtime : EmmyrcRuntime)
  | setOrderRoots (roots : List (h.Path × Nat))
  | setFileContent (uri : h.Uri) (data : Option String)
  | setFileContentPreparsed (uri : h.Uri) (text : Option String) (tree : h.Tree)
      (lineIndex : h.LineIndex) (version : Option Int)
  | setRemoteFileContent (uri : h.Uri) (data : Option String)
  | deleteFileContent (uri : h.Uri)
  | moveFile (old new : h.Uri) (text : String)
  | removeFile (uri : h.Uri)
  | takeStaged (ids : List Nat)
  | forgetTakenDeletions
  | updateFileVersion (id : Nat) (version : Option Int)
  | forgetFileVersion (id : Nat)

/-- What a call leaves, unless it panics. -/
def step (vfs : Vfs h) : Label h → Option (Vfs h)
  | .updateConfig runtime => some (vfs.updateConfig runtime)
  | .setOrderRoots roots => some (vfs.setOrderRoots roots)
  | .setFileContent uri data => (vfs.setFileContent uri data).map Prod.fst
  | .setFileContentPreparsed uri text tree lineIndex version =>
    some (vfs.setFileContentPreparsed uri text tree lineIndex version).1
  | .setRemoteFileContent uri data => (vfs.setRemoteFileContent uri data).map Prod.fst
  | .deleteFileContent uri => (vfs.deleteFileContent uri).map Prod.fst
  | .moveFile old new text => (vfs.moveFile old new text).map Prod.fst
  | .removeFile uri => some (vfs.removeFile uri).1
  | .takeStaged ids => some (takeStaged ids vfs).1
  | .forgetTakenDeletions => some vfs.forgetTakenDeletions
  | .updateFileVersion id version => some (vfs.updateFileVersion id version)
  | .forgetFileVersion id => some (vfs.forgetFileVersion id)

end GluaLs.Vfs
