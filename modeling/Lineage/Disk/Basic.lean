import Lineage.Path

/-!
A file system as a value: directories and text files at absolute locations, and a working
directory. Paths are resolved segment by segment, so `..` leaves the directory that was entered.

There are no links and no devices, files hold text, nobody lacks a permission, and the disk is never
full: an operation is refused for what stands at the places that it names, and for nothing else.
-/
namespace Lineage

/-- Why a file operation was refused, by its system error number. -/
inductive DiskError where
  | notFound
  | busy
  | alreadyExists
  | notDirectory
  | isDirectory
  | invalidArgument
  | nameTooLong
  | notEmpty
  | nulByte
deriving DecidableEq, Repr

def DiskError.message : DiskError → String
  | notFound => "os error 2"
  | busy => "os error 16"
  | alreadyExists => "os error 17"
  | notDirectory => "os error 20"
  | isDirectory => "os error 21"
  | invalidArgument => "os error 22"
  | nameTooLong => "os error 36"
  | notEmpty => "os error 39"
  | nulByte => "file name contained an unexpected NUL byte"

inductive FileNode where
  | dir
  | file (text : String)
deriving DecidableEq, Repr

/-- The names that lead from the root to a place. -/
abbrev Location := List String

structure Disk where
  /-- A directory on the way here that was removed has the empty name, by which none is found. -/
  cwd : Location
  nodes : List (Location × FileNode)
deriving Repr, Inhabited

namespace Disk

/-- Whether a directory was removed while the working directory was in it. -/
def isGone (loc : Location) : Bool := loc.getLast? == some ""

/-- What is at a location. The root is always a directory, and the working directory stays one. -/
def node? (d : Disk) (loc : Location) : Option FileNode :=
  if loc = [] ∨ isGone loc then some .dir else d.nodes.lookup loc

def put (d : Disk) (loc : Location) (node : FileNode) : Disk :=
  if (d.nodes.lookup loc).isSome then
    { d with nodes := d.nodes.map fun e => if e.1 = loc then (loc, node) else e }
  else { d with nodes := d.nodes ++ [(loc, node)] }

/-- The working directory once all but the first `n` directories on the way to it are removed. -/
def cwdWithin (d : Disk) (n : Nat) : Location :=
  d.cwd.take n ++ List.replicate (d.cwd.length - n) ""

def remove (d : Disk) (loc : Location) : Disk where
  cwd := if loc.isPrefixOf d.cwd then d.cwdWithin (loc.length - 1) else d.cwd
  nodes := d.nodes.filter fun e => e.1 ≠ loc

/-- Takes away everything strictly below a location. -/
def clear (d : Disk) (loc : Location) : Disk where
  cwd := if loc.isPrefixOf d.cwd then d.cwdWithin loc.length else d.cwd
  nodes := d.nodes.filter fun e => !(loc.isPrefixOf e.1 && loc != e.1)

/-- Refuses a name that a directory cannot hold. -/
def checkName (dir : Location) (name : String) : Except DiskError Unit :=
  if isGone dir then .error .notFound
  else if name.utf8ByteSize > 255 then .error .nameTooLong
  else .ok ()

/-- One step of a walk: only a directory can be left through a segment. -/
def enter (d : Disk) (loc : Location) (segment : String) : Except DiskError Location :=
  match d.node? loc with
  | none => .error .notFound
  | some (.file _) => .error .notDirectory
  | some .dir =>
    if trivialSegment segment then .ok loc
    else if segment = ".." then .ok loc.dropLast
    else do
      checkName loc segment
      if (d.node? (loc ++ [segment])).isSome then .ok (loc ++ [segment]) else .error .notFound

def walk (d : Disk) (loc : Location) (segments : List String) : Except DiskError Location :=
  segments.foldlM d.enter loc

def start (d : Disk) (p : Path) : Location := if p.isAbsolute then [] else d.cwd

/-- Texts that no file operation takes as a path. -/
def checkText (p : Path) : Except DiskError Unit :=
  if p.text.toList.contains '\x00' then .error .nulByte
  else if p.text = "" then .error .notFound
  else if p.text.utf8ByteSize ≥ 4096 then .error .nameTooLong
  else .ok ()

def locate (d : Disk) (p : Path) : Except DiskError Location := do
  checkText p
  d.walk (d.start p) p.segments

def stat (d : Disk) (p : Path) : Except DiskError FileNode := do
  let loc ← d.locate p
  match d.node? loc with
  | some node => .ok node
  | none => .error .notFound

def exists? (d : Disk) (p : Path) : Bool :=
  match d.stat p with
  | .ok _ => true
  | .error _ => false

def isDir (d : Disk) (p : Path) : Bool :=
  match d.stat p with
  | .ok .dir => true
  | _ => false

def isFile (d : Disk) (p : Path) : Bool :=
  match d.stat p with
  | .ok (.file _) => true
  | _ => false

/-- A place that a path names inside an existing directory, whether anything is there or not. -/
structure Target where
  dir : Location
  last : String
  slash : Bool

def Target.location (t : Target) : Location := t.dir ++ [t.last]

/-- Whether the path ends in no name: `.`, `..` or the root. -/
def Target.special (t : Target) : Bool := trivialSegment t.last || t.last == ".."

/-- The directory that holds the last segment, which must be one. -/
def target (d : Disk) (p : Path) : Except DiskError Target := do
  checkText p
  let segs := p.segments
  let named := (segs.reverse.dropWhile (· == "")).reverse
  let dir ← d.walk (d.start p) (named.dropLast ++ [""])
  return ⟨dir, named.getLast?.getD "", named.length < segs.length⟩

def Target.checkName (t : Target) : Except DiskError Unit := Disk.checkName t.dir t.last

def read (d : Disk) (p : Path) : Except DiskError String := do
  match ← d.stat p with
  | .file text => .ok text
  | .dir => .error .isDirectory

def makeDir (d : Disk) (p : Path) : Except DiskError Disk := do
  let t ← d.target p
  if t.special then .error .alreadyExists
  else do
    t.checkName
    if (d.node? t.location).isSome then .error .alreadyExists
    else .ok (d.put t.location .dir)

def write (d : Disk) (p : Path) (text : String) : Except DiskError Disk := do
  let t ← d.target p
  if t.special || t.slash then .error .isDirectory
  else do
    t.checkName
    match d.node? t.location with
    | some .dir => .error .isDirectory
    | _ => .ok (d.put t.location (.file text))

def moveFile (d : Disk) (old new : Path) : Except DiskError Disk := do
  let s ← d.target old
  let t ← d.target new
  if s.special || t.special then .error .busy
  else do
    s.checkName
    match d.node? s.location with
    | none => .error .notFound
    | some .dir => .error .isDirectory
    | some (.file text) =>
      t.checkName
      if s.slash || t.slash then .error .notDirectory
      else match d.node? t.location with
        | some .dir => .error .isDirectory
        | _ => .ok ((d.remove s.location).put t.location (.file text))

/-- Every file with its text and every directory below the working directory, by path. -/
def listing (d : Disk) : List (String × Option String) :=
  let below := d.nodes.filterMap fun (loc, node) =>
    if d.cwd.isPrefixOf loc && d.cwd != loc then
      let path := "/".intercalate (loc.drop d.cwd.length)
      match node with
      | .dir => some (path, none)
      | .file text => some (path, some text)
    else none
  below.mergeSort fun a b => a.1 ≤ b.1

end Disk
end Lineage
