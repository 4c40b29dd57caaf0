import Lineage.Disk.Basic

/-!
Making and removing whole directories. Both work in several steps and keep what was done when a
step is refused.
-/
namespace Lineage

/-- Steps on a disk that may be refused midway. -/
abbrev DiskAction := EStateM DiskError Disk

namespace DiskAction

/-- A single step, which changes nothing when it is refused. -/
def step (f : Disk → Except DiskError Disk) : DiskAction Unit := fun d =>
  match f d with
  | .ok d' => .ok () d'
  | .error e => .error e d

end DiskAction

namespace Disk

/-- Finds the innermost ancestor that can be made or is a directory; the ones still to make within
it come outermost first. -/
def climb (pending : List Path) : List Path → DiskAction (List Path)
  | [] => pure pending
  | p :: outer => fun d =>
    match d.makeDir p with
    | .ok d' => .ok pending d'
    | .error .notFound => climb (p :: pending) outer d
    | .error e => if e = .alreadyExists ∧ d.isDir p then .ok pending d else .error e d

def makeEach : List Path → DiskAction Unit
  | [] => pure ()
  | p :: inner => fun d =>
    match d.makeDir p with
    | .ok d' => makeEach inner d'
    | .error e =>
      if e = .alreadyExists ∧ d.isDir p then makeEach inner d else .error e d

def makeDirs (p : Path) : DiskAction Unit :=
  if p.text = "" ∨ p.parent?.isNone then pure ()
  else do
    let chain := p.ancestors.takeWhile fun q => q.text ≠ "" ∧ q.parent?.isSome
    let pending ← climb [] chain
    makeEach pending

/-- Removes what is below a directory and then the directory itself, which can be done by its name
only. If its path led through what was removed, nothing is left to do. -/
def removeDirs (p : Path) : DiskAction Unit := fun d =>
  match d.locate p with
  | .error e => .error e d
  | .ok loc =>
    match d.node? loc with
    | none => .error .notFound d
    | some (.file _) => .error .notDirectory d
    | some .dir =>
      let d := d.clear loc
      match d.target p with
      | .error .notFound => .ok () d
      | .error e => .error e d
      | .ok t =>
        if t.last = "." then .error .invalidArgument d
        else if t.last = ".." then .error .notEmpty d
        else if t.last = "" then .error .busy d
        else .ok () (d.remove t.location)

end Disk
end Lineage
