import Lineage.Disk.Directory
import Lineage.Error
import Lineage.Json.Reader
import Lineage.Json.Tree
import Lineage.Yaml.Printer

/-!
Structured documents on a disk. A document is written beside its place first and then moved there,
so it is replaced as a whole or not at all.
-/
namespace Lineage

inductive DocumentFormat where
  | json
  | yaml
deriving DecidableEq, Repr

namespace DocumentFormat

def ofPath (p : Path) : DocumentFormat :=
  match p.extension? with
  | some "yaml" | some "yml" => yaml
  | _ => json

def read (f : DocumentFormat) (text : String) : Except String Json :=
  match f with
  | json => (Json.read? text).elim (.error "JSON parse error") .ok
  | yaml => (Yaml.readJson? text).elim (.error "YAML parse error") .ok

def write (f : DocumentFormat) (value : Json) : String :=
  match f with
  | json => value.render (.indented 4) ++ "\n"
  | yaml => Yaml.render value

end DocumentFormat

namespace Disk

/-- The value at a key path of a document, and whether there is a document. A missing one counts as
an empty map. -/
def load (d : Disk) (path : Path) (nested : List String) : Except Error (Json × Bool) :=
  if !d.exists? path then .ok (.obj [], false)
  else
    match d.read path with
    | .error e => .error (.storage path s!"cannot read: {e.message}")
    | .ok text =>
      match (DocumentFormat.ofPath path).read text with
      | .error reason => .error (.storage path reason)
      | .ok doc =>
        match doc.readAt nested with
        | .ok value => .ok (value, true)
        | .error e => .error (.storage path e.message)

/-- Steps on a disk whose refusals are errors of the library. -/
abbrev DocumentAction := EStateM Error Disk

def refusedAs {α : Type} (path : Path) (reason : DiskError → String) (act : DiskAction α) :
    DocumentAction α := fun d =>
  match act d with
  | .ok a d => .ok a d
  | .error e d => .error (.storage path (reason e)) d

/-- Where a document is written before it takes its place. -/
def temporary (path : Path) : Path := ⟨path.text ++ ".tmp"⟩

/-- Overwrites a document, making the directories above it. -/
def store (value : Json) (path : Path) : DocumentAction Unit := do
  match path.parent? with
  | some dir => refusedAs dir (fun e => s!"cannot create dir: {e.message}") (makeDirs dir)
  | none => pure ()
  let text := (DocumentFormat.ofPath path).write value
  let beside := temporary path
  refusedAs beside (fun e => s!"cannot write: {e.message}")
    (DiskAction.step fun d => d.write beside text)
  refusedAs path (fun e => s!"cannot rename {beside.text} → {path.text}: {e.message}")
    (DiskAction.step fun d => d.moveFile beside path)

end Disk
end Lineage
