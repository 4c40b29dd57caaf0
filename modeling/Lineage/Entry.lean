import Lineage.Json.Basic
import Lineage.Path

/-!
Entries: named directories. What an entry has loaded so far is held in the world, under its number.
-/
namespace Lineage

structure Entry where
  id : Nat
  path : Path
  name : String
deriving DecidableEq, Repr, Inhabited

namespace Entry

def nameOf (path : Path) : String := path.fileName?.getD path.text

/-- The entry's directory, or a file seen from it. -/
def filePath (e : Entry) : Option String → Path
  | some file => e.path.join file
  | none => e.path

def toJson (e : Entry) : Json := .obj [("entry", .str e.name), ("path", .str e.path.text)]

end Entry

/-- Whether a path is listed, in whatever spelling. -/
def Path.isIn (p : Path) (seen : List Path) : Bool := seen.any p.same

end Lineage
