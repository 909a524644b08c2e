import GluaLs.Cache.Keyed
import GluaLs.Cache.Transactions
import GluaLs.CowShards.OrderFree
import GluaLs.Debounce.Answerable
import GluaLs.DeclTree.Lookup
import GluaLs.Dep.LevelOrder
import GluaLs.Dep.Undo
import GluaLs.Diag.Published
import GluaLs.Docs.Sync
import GluaLs.Edit.CanonicalRemap
import GluaLs.Edit.Session
import GluaLs.Edit.LongestRun
import GluaLs.Edit.Ranges
import GluaLs.Members.FunctionScopes
import GluaLs.Edit.References
import GluaLs.Engine.GroupSound
import GluaLs.Engine.SortedReaders
import GluaLs.Lines.RoundTrip
import GluaLs.Modules.Agree
import GluaLs.Modules.Determined
import GluaLs.Modules.Registration
import GluaLs.Net.FlowMatch
import GluaLs.ReadLog.Complete
import GluaLs.Recompute.Sound
import GluaLs.Syntax.ChunkStep
import GluaLs.Syntax.Precedence
import GluaLs.Syntax.Tiling
import GluaLs.Types.Fingerprint
import GluaLs.Types.FoldExact
import GluaLs.Types.IntersectValues
import GluaLs.Types.SelectCall
import GluaLs.Types.UnionOrder
import GluaLs.Vfs.Readers
