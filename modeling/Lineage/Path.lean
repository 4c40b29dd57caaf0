import Lineage.Text.Split

/-!
Paths as text. A path keeps its spelling for display and for the file system; two paths are the
same place when their components agree. `normalize` drops `.` and folds `..` against what precedes.
-/
namespace Lineage

structure Path where
  text : String
deriving DecidableEq, Repr, Inhabited

inductive Component where
  | root
  | here
  | up
  | name (s : String)
deriving DecidableEq, Repr

namespace Component

def ofSegment (s : String) : Component := if s = ".." then up else name s

def text : Component → String
  | root => "/"
  | here => "."
  | up => ".."
  | name s => s

end Component

/-- Segments that name no place of their own. -/
def trivialSegment (s : String) : Bool := s == "" || s == "."

namespace Path

def segments (p : Path) : List String := pieces '/' p.text

def isAbsolute (p : Path) : Bool := p.text.toList.head? == some '/'

/-- A leading `.` of a relative path counts; other empty and `.` segments do not. -/
def components (p : Path) : List Component :=
  let body := (p.segments.filter fun s => !trivialSegment s).map Component.ofSegment
  if p.isAbsolute then .root :: body
  else if p.segments.head? = some "." then .here :: body
  else body

def ofComponents : List Component → Path
  | .root :: rest => ⟨"/" ++ "/".intercalate (rest.map Component.text)⟩
  | cs => ⟨"/".intercalate (cs.map Component.text)⟩

def same (p q : Path) : Bool := p.components == q.components

/-- `q` seen from the directory `p`; an absolute `q` stands for itself. -/
def join (p : Path) (q : String) : Path :=
  if (Path.mk q).isAbsolute then ⟨q⟩
  else if p.text = "" ∨ p.text.toList.getLast? = some '/' then ⟨p.text ++ q⟩
  else ⟨p.text ++ "/" ++ q⟩

def fileName? (p : Path) : Option String :=
  match p.components.getLast? with
  | some (.name s) => some s
  | _ => none

def dropTrivialEnd (segs : List String) : List String :=
  (segs.reverse.dropWhile trivialSegment).reverse

/-- The path without its last component. What remains keeps its spelling, less separators and `.`
at its end; neither the root nor the empty path has a parent. -/
def parent? (p : Path) : Option Path :=
  let segs := p.segments
  if p.isAbsolute then
    match dropTrivialEnd segs.tail with
    | [] => none
    | kept => some ⟨"/" ++ "/".intercalate (dropTrivialEnd kept.dropLast)⟩
  else if segs.head? = some "." then
    match dropTrivialEnd segs.tail with
    | [] => some ⟨""⟩
    | kept => some ⟨"/".intercalate ("." :: dropTrivialEnd kept.dropLast)⟩
  else
    match dropTrivialEnd segs with
    | [] => none
    | kept => some ⟨"/".intercalate (dropTrivialEnd kept.dropLast)⟩

def ancestorsWithin : Nat → Path → List Path
  | 0, p => [p]
  | fuel + 1, p =>
    match p.parent? with
    | some q => p :: ancestorsWithin fuel q
    | none => [p]

/-- The path, its parent, and so on outwards. A parent has fewer segments, which bounds the walk. -/
def ancestors (p : Path) : List Path := ancestorsWithin (p.segments.length + 1) p

/-- What follows the last point of the file name, unless the point begins it. -/
def extension? (p : Path) : Option String :=
  match p.fileName? with
  | none => none
  | some s =>
    let runs := pieces '.' s
    if runs.length < 2 ∨ runs.length = 2 ∧ runs.head? = some "" then none else runs.getLast?

/-- One component after a folded stretch, whose components come last first. `..` takes away the
component before it, be it a name or another `..`; at the start and at the root it stays. -/
def foldComponent : List Component → Component → List Component
  | out, .here => out
  | [], .up => [.up]
  | [.root], .up => [.up, .root]
  | _ :: out, .up => out
  | out, c => c :: out

/-- The canonical spelling: no `.`, and `..` folded away wherever something precedes it. -/
def normalize (p : Path) : Path := ofComponents (p.components.foldl foldComponent []).reverse

end Path
end Lineage
