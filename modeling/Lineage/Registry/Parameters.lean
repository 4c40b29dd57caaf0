import Lineage.Registry.Basic

/-!
Own parameters and metadata of an entry: loaded on first use, kept from then on. Own parameters can
be changed in memory and written back; an entry's metadata stay as they were first seen.
-/
namespace Lineage

namespace Registry

def changeCells (e : Entry) (f : Cells → Cells) : Action Unit :=
  modify fun w => w.setCells e (f (w.cellsOf e))

def onDisk {α : Type} (act : Disk.DocumentAction α) : Action α := fun w =>
  match act w.disk with
  | .ok a d => .ok a { w with disk := d }
  | .error e d => .error e { w with disk := d }

def readDocument (file : Path) (nested : List String) : Action Json := fun w =>
  match w.disk.load file nested with
  | .ok (value, _) => .ok value w
  | .error e => .error e w

def readMap (what : String) (e : Entry) (place : DocumentPlace) : Action Params := do
  let file := e.filePath place.file
  match ← readDocument file place.path with
  | .obj fields => return fields
  | other => throw (.storage file s!"{what} must be a map, found {other.kind}")

def own (r : Registry) (e : Entry) : Action Params := do
  match ((← get).cellsOf e).own with
  | some params => return params
  | none =>
    let params ← readMap "parameters" e r.config.parameters
    changeCells e fun c => { c with own := some params }
    return params

def setParameter (r : Registry) (e : Entry) (name : String) (value : Json) : Action Unit := do
  let params ← r.own e
  changeCells e fun c => { c with own := some (Table.insert params name value) }

/-- Lays data upon the own parameters. -/
def updateParameters (r : Registry) (e : Entry) (data : Params) : Action Unit := do
  let params ← r.own e
  changeCells e fun c => { c with own := some (Table.overlay params data) }

/-- Writes the own parameters to their place. What else the document holds is kept; a document that
is no map gives way to one. -/
def persist (r : Registry) (e : Entry) : Action Unit := do
  let params ← r.own e
  let place := r.config.parameters
  let file := e.filePath place.file
  if place.path.isEmpty then onDisk (Disk.store (.obj params) file)
  else
    let whole := (← readDocument file []).obj?.getD []
    onDisk (Disk.store (.obj (Step.assign whole place.path (.obj params))) file)

/-- The metadata of an entry, which may be kept with the parameters. -/
def metadata (r : Registry) (e : Entry) : Action Params := do
  match ((← get).cellsOf e).metadata with
  | some fields => return fields
  | none =>
    let fields ←
      if r.metadataPlace = r.config.parameters then r.own e
      else readMap "meta" e r.metadataPlace
    changeCells e fun c => { c with metadata := some fields }
    return fields

def metadataValue (r : Registry) (e : Entry) (key : String) : Action (Option Json) :=
  return Table.get? (← r.metadata e) key

end Registry
end Lineage
