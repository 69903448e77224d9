import ExportIndex.Path.Basic
import ExportIndex.Path.Identity
import ExportIndex.Text.Percent

/-!
Batches of file changes, as an editor or a watcher reports them: addresses or
plain paths, the latter taken from the project root when they are relative.
-/
namespace ExportIndex

structure Changes where
  created : List String
  updated : List String
  deleted : List String
  deriving DecidableEq

namespace Changes

def isEmpty (c : Changes) : Bool := c.created.isEmpty && c.updated.isEmpty && c.deleted.isEmpty

def locate (root address : String) : String := Path.join root (Percent.pathOfAddress address)

/-- The paths to read again, each file once. -/
def toRead (c : Changes) (root : String) : List String :=
  distinctFiles ((c.created ++ c.updated).map (locate root))

/-- The paths of the deleted files, as often as they were reported. -/
def gone (c : Changes) (root : String) : List String := c.deleted.map (locate root)

end Changes

end ExportIndex
