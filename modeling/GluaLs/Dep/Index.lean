/-
  GluaLs.Dep.Index — the dependency index (`db_index/dependency/mod.rs`).

  A SITE is a call that loads a file: it names a path, and is resolved to a file or not.
  The index keeps the sites of every file, and views of them from the other side:

    • which files a file loads, and how, and which files load it,
    • the positions of the sites that are resolved to a file,
    • the files with an unresolved site, by the path keys of the site.

  A site is flipped in place when the file it loads comes or goes.
-/
import GluaLs.Lib.Buckets
import GluaLs.Lib.LabelledRuns
import GluaLs.Types.LuaType

namespace GluaLs.Dep

open GluaLs.Lib GluaLs.Lib.Buckets GluaLs.Types

/-! ## §1. Sites -/

inductive LuaDependencyKind where
  | Require
  | Include
  | CompileFile
  | AddCSLuaFile
  | IncludeCS
  deriving DecidableEq

structure LuaDependencySite where
  sourceFileId : FileId
  targetFileId : Option FileId
  kind : LuaDependencyKind
  path : Option String
  pathKeys : List String
  originalExpr : String
  callRange : TextRange
  range : TextRange
  deriving DecidableEq

def LuaDependencySite.isSameSite (site other : LuaDependencySite) : Bool :=
  decide (site = { other with targetFileId := site.targetFileId })

structure DependencySiteLocation where
  sourceFileId : FileId
  siteIndex : Nat
  deriving DecidableEq

/-- The order locations are sorted in. -/
def DependencySiteLocation.le (a b : DependencySiteLocation) : Bool :=
  decide (a.sourceFileId.id < b.sourceFileId.id) ||
    (decide (a.sourceFileId = b.sourceFileId) && decide (a.siteIndex ≤ b.siteIndex))

/-! ## §2. The index -/

structure LuaDependencyIndex where
  dependencies : HashMap FileId (HashSet FileId)
  dependencyKinds : HashMap FileId (HashMap FileId (HashSet LuaDependencyKind))
  dependencyCallersByTarget : HashMap FileId (HashSet FileId)
  dependencySites : HashMap FileId (List LuaDependencySite)
  resolvedSitesByTarget : HashMap FileId (List DependencySiteLocation)
  unresolvedDependentsByPathKey : HashMap String (HashSet FileId)
  unresolvedByRemoval : HashMap FileId (List (FileId × Option String))
  derivedSites : HashMap FileId (List LuaDependencySite)

namespace LuaDependencyIndex

/-- `LuaDependencyIndex::new`, and what `clear` leaves -/
def new : LuaDependencyIndex where
  dependencies := ∅
  dependencyKinds := ∅
  dependencyCallersByTarget := ∅
  dependencySites := ∅
  resolvedSitesByTarget := ∅
  unresolvedDependentsByPathKey := ∅
  unresolvedByRemoval := ∅
  derivedSites := ∅

/-- The sites of a file. -/
def sitesOf (index : LuaDependencyIndex) (file : FileId) : List LuaDependencySite :=
  listOf index.dependencySites file

def addDependencyFile (index : LuaDependencyIndex) (file dependency : FileId)
    (kind : LuaDependencyKind) : LuaDependencyIndex :=
  let inserted := !(((index.dependencies.lookup file).getD ∅).lookup dependency).isSome
  { index with
    dependencies := addTo index.dependencies file dependency
    dependencyCallersByTarget :=
      if inserted then addTo index.dependencyCallersByTarget dependency file
      else index.dependencyCallersByTarget
    dependencyKinds := grow index.dependencyKinds file fun kinds => addTo kinds dependency kind }

def indexUnresolvedSite (reverse : HashMap String (HashSet FileId)) (site : LuaDependencySite) :
    HashMap String (HashSet FileId) :=
  site.pathKeys.foldl (fun reverse key => addTo reverse key site.sourceFileId) reverse

/-- The site joins those of its file, and the views of what it is resolved to. -/
def fileSite (index : LuaDependencyIndex) (site : LuaDependencySite) : LuaDependencyIndex :=
  let siteIndex := (index.sitesOf site.sourceFileId).length
  let index :=
    match site.targetFileId with
    | some target =>
      let index := index.addDependencyFile site.sourceFileId target site.kind
      { index with
        resolvedSitesByTarget :=
          pushTo index.resolvedSitesByTarget target ⟨site.sourceFileId, siteIndex⟩ }
    | none =>
      { index with
        unresolvedDependentsByPathKey :=
          indexUnresolvedSite index.unresolvedDependentsByPathKey site }
  { index with dependencySites := pushTo index.dependencySites site.sourceFileId site }

/-- `add_dependency_site`; `source` is `writes_source()`. -/
def addDependencySite (index : LuaDependencyIndex) (site : LuaDependencySite) (source : Bool) :
    LuaDependencyIndex :=
  if site ∈ index.sitesOf site.sourceFileId then index
  else if source then index.fileSite site
  else
    { index with
      derivedSites := pushTo index.derivedSites site.sourceFileId site }.fileSite site

def unindexUnresolvedSites (reverse : HashMap String (HashSet FileId))
    (sites : List LuaDependencySite) : HashMap String (HashSet FileId) :=
  sites.foldl (fun reverse site =>
    if site.targetFileId.isSome then reverse
    else site.pathKeys.foldl (fun reverse key => removeFrom reverse key site.sourceFileId) reverse)
    reverse

def unindexSourceSites (index : LuaDependencyIndex) (source : FileId)
    (sites : List LuaDependencySite) : LuaDependencyIndex :=
  let targets := (sites.filterMap LuaDependencySite.targetFileId).dedup
  { index with
    unresolvedDependentsByPathKey :=
      unindexUnresolvedSites index.unresolvedDependentsByPathKey sites
    resolvedSitesByTarget := targets.foldl
      (fun resolved target => retainIn resolved target fun location =>
        decide (location.sourceFileId ≠ source)) index.resolvedSitesByTarget }

def removeSourceDependencyEdges (index : LuaDependencyIndex) (source : FileId) :
    LuaDependencyIndex :=
  match index.dependencies.lookup source with
  | none => { index with dependencyKinds := index.dependencyKinds.erase source }
  | some targets =>
    { index with
      dependencies := index.dependencies.erase source
      dependencyKinds := index.dependencyKinds.erase source
      dependencyCallersByTarget := targets.keys.foldl
        (fun callers target => removeFrom callers target source)
        index.dependencyCallersByTarget }

def removeIncomingDependencyEdges (index : LuaDependencyIndex) (target : FileId) :
    LuaDependencyIndex :=
  match index.dependencyCallersByTarget.lookup target with
  | none => index
  | some callers =>
    { index with
      dependencyCallersByTarget := index.dependencyCallersByTarget.erase target
      dependencies := callers.keys.foldl
        (fun dependencies source => removeFrom dependencies source target) index.dependencies
      dependencyKinds := callers.keys.foldl
        (fun kinds source => shrink kinds source fun kinds => kinds.erase target)
        index.dependencyKinds }

/-- The body of the loop of `reset_derived_sites`: a site a derivation added goes, once for
    each time one did. -/
def resetOne (source : Bool) (reset : List LuaDependencySite × LuaDependencyIndex)
    (site : LuaDependencySite) : List LuaDependencySite × LuaDependencyIndex :=
  match reset.1.findIdx? fun existing => existing.isSameSite site with
  | some at' => (swapRemove reset.1 at', reset.2)
  | none => (reset.1, reset.2.addDependencySite site source)

def resetDerivedSites (index : LuaDependencyIndex) (file : FileId) (source : Bool) :
    LuaDependencyIndex :=
  match index.derivedSites.lookup file with
  | none => index
  | some derived =>
    let sites := index.sitesOf file
    let index := { index with
      derivedSites := index.derivedSites.erase file
      dependencySites := index.dependencySites.erase file }
    let index := (index.unindexSourceSites file sites).removeSourceDependencyEdges file
    (sites.foldl (resetOne source) (derived, index)).2

def forgetUnresolvedTarget (index : LuaDependencyIndex) (target : FileId) : LuaDependencyIndex :=
  { index with unresolvedByRemoval := index.unresolvedByRemoval.erase target }

/-- A site `relink_unresolved_target` resolves again. -/
def restores (path : Option String) (site : LuaDependencySite) : Bool :=
  site.targetFileId.isNone && decide (site.path = path)

/-- The body of the loop of `relink_unresolved_target`. -/
def relinkOne (target : FileId) (relinked : HashMap FileId (List LuaDependencySite) ×
      List (FileId × Nat × LuaDependencySite)) (removed : FileId × Option String) :
    HashMap FileId (List LuaDependencySite) × List (FileId × Nat × LuaDependencySite) :=
  match relinked.1.lookup removed.1 with
  | none => relinked
  | some sites =>
    (relinked.1.insert removed.1 (sites.map fun site =>
        if restores removed.2 site then { site with targetFileId := some target } else site),
      relinked.2 ++ (sites.zipIdx.filter fun at' => restores removed.2 at'.1).map fun at' =>
        (removed.1, at'.2, at'.1))

/-- A restored site is filed under its target. -/
def fileRestored (target : FileId) (index : LuaDependencyIndex)
    (restored : FileId × Nat × LuaDependencySite) : LuaDependencyIndex :=
  let index := index.addDependencyFile restored.1 target restored.2.2.kind
  { index with
    resolvedSitesByTarget :=
      pushTo index.resolvedSitesByTarget target ⟨restored.1, restored.2.1⟩ }

def relinkUnresolvedTarget (index : LuaDependencyIndex) (target : FileId) : LuaDependencyIndex :=
  match index.unresolvedByRemoval.lookup target with
  | none => index
  | some removed =>
    let relinked := removed.foldl (relinkOne target) (index.dependencySites, [])
    let index := { index with
      unresolvedByRemoval := index.unresolvedByRemoval.erase target
      dependencySites := relinked.1 }
    if relinked.2.isEmpty then index
    else
      let index := { index with
        unresolvedDependentsByPathKey :=
          unindexUnresolvedSites index.unresolvedDependentsByPathKey
            (relinked.2.map fun restored => restored.2.2) }
      relinked.2.foldl (fileRestored target) index

/-- What the loop of `transition_target_sites_to_unresolved` goes through. -/
structure Transition where
  sites : HashMap FileId (List LuaDependencySite)
  unresolved : HashMap String (HashSet FileId)
  flipped : List (FileId × Option String)

/-- The body of that loop. -/
def unresolveOne (target : FileId) (t : Transition) (location : DependencySiteLocation) :
    Transition :=
  match (listOf t.sites location.sourceFileId)[location.siteIndex]? with
  | none => t
  | some site =>
    if site.targetFileId = some target then
      let site := { site with targetFileId := none }
      { sites := t.sites.insert location.sourceFileId
          ((listOf t.sites location.sourceFileId).set location.siteIndex site)
        unresolved := indexUnresolvedSite t.unresolved site
        flipped := t.flipped ++ [(location.sourceFileId, site.path)] }
    else t

def transitionTargetSitesToUnresolved (index : LuaDependencyIndex) (target : FileId) :
    LuaDependencyIndex :=
  match index.resolvedSitesByTarget.lookup target with
  | none => index
  | some locations =>
    let t := (locations.mergeSort DependencySiteLocation.le).foldl (unresolveOne target)
      ⟨index.dependencySites, index.unresolvedDependentsByPathKey, []⟩
    { index with
      resolvedSitesByTarget := index.resolvedSitesByTarget.erase target
      dependencySites := t.sites
      unresolvedDependentsByPathKey := t.unresolved
      unresolvedByRemoval :=
        if t.flipped.isEmpty then index.unresolvedByRemoval
        else index.unresolvedByRemoval.insert target t.flipped }

def remove (index : LuaDependencyIndex) (file : FileId) : LuaDependencyIndex :=
  let index := { index with derivedSites := index.derivedSites.erase file }
  let index :=
    match index.dependencySites.lookup file with
    | some sites =>
      { index with dependencySites := index.dependencySites.erase file }.unindexSourceSites
        file sites
    | none => index
  ((index.removeSourceDependencyEdges file).transitionTargetSitesToUnresolved
    file).removeIncomingDependencyEdges file

def removeFiles (index : LuaDependencyIndex) (files : List FileId) : LuaDependencyIndex :=
  (files.mergeSort fun a b => decide (a.id ≤ b.id)).dedup.foldl remove index

end LuaDependencyIndex

/-! ## §3. Runs -/

/-- A call; `source` says which layer writes. -/
inductive Label where
  | addDependencySite (site : LuaDependencySite) (source : Bool)
  | resetDerivedSites (file : FileId) (source : Bool)
  | relinkUnresolvedTarget (target : FileId)
  | forgetUnresolvedTarget (target : FileId)
  | remove (file : FileId)
  | removeFiles (files : List FileId)
  | clear

/-- One step. -/
def step (index : LuaDependencyIndex) : Label → Option LuaDependencyIndex
  | .addDependencySite site source => some (index.addDependencySite site source)
  | .resetDerivedSites file source => some (index.resetDerivedSites file source)
  | .relinkUnresolvedTarget target => some (index.relinkUnresolvedTarget target)
  | .forgetUnresolvedTarget target => some (index.forgetUnresolvedTarget target)
  | .remove file => some (index.remove file)
  | .removeFiles files => some (index.removeFiles files)
  | .clear => some LuaDependencyIndex.new

end GluaLs.Dep
