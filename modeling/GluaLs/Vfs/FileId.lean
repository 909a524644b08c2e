/-
  GluaLs.Vfs.FileId — the id of a file (`vfs/file_id.rs`).
-/
import Mathlib.Order.Basic
import Mathlib.Order.Nat
import Mathlib.Data.UInt

namespace GluaLs

/-- A file, by its 32-bit id; ids order files. -/
structure FileId where
  id : UInt32
  deriving DecidableEq, Repr

/-- The id no file of the workspace has: it owns the workspace's own derivations. -/
def FileId.VIRTUAL : FileId := ⟨0xFFFFFFFF⟩

end GluaLs
