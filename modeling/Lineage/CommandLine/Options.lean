import Lineage.Path

/-!
Options of the command line. They come before the pipeline, which begins with the first word that
is no option and takes everything after it.
-/
namespace Lineage.CommandLine

structure Options where
  config : Option Path := none
  /-- Roots that stand in for the configured collections. -/
  collections : List Path := []
  dryRun : Bool := false
  keepGoing : Bool := false
  verbose : Bool := false
  pipeline : List String := []
deriving DecidableEq, Repr, Inhabited

/-- Why arguments are not run. -/
inductive Refusal where
  | helpAsked
  | versionAsked
  | missingValue
  | unwantedValue
  | repeated
deriving DecidableEq, Repr

/-- Asking for help or for the version is no mistake. -/
def Refusal.exitCode : Refusal → Nat
  | helpAsked | versionAsked => 0
  | _ => 3

inductive Flag where
  | dryRun
  | keepGoing
  | verbose
  | help
  | version
deriving DecidableEq, Repr

def Flag.ofName? : String → Option Flag
  | "dry-run" => some dryRun
  | "keep-going" => some keepGoing
  | "verbose" => some verbose
  | "help" => some help
  | "version" => some version
  | _ => none

def Flag.ofLetter? : Char → Option Flag
  | 'v' => some verbose
  | 'h' => some help
  | 'V' => some version
  | _ => none

inductive Setting where
  | config
  | collection
deriving DecidableEq, Repr

def Setting.ofName? : String → Option Setting
  | "config" => some config
  | "collection" => some collection
  | _ => none

/-- What an argument is, as long as the pipeline has not begun. -/
inductive Argument where
  | separator
  | flags (fs : List Flag)
  | flagWithValue
  | setting (s : Setting) (value : Option String)
  | word (text : String)
deriving DecidableEq, Repr

namespace Argument

/-- A name and what stands behind its first equals sign. -/
def splitValue (cs : List Char) : String × Option String :=
  let name := String.ofList (cs.takeWhile (· ≠ '='))
  match cs.dropWhile (· ≠ '=') with
  | [] => (name, none)
  | _ :: value => (name, some (String.ofList value))

/-- Options that nobody knows are words, and so are letters of which one is unknown. -/
def ofText (text : String) : Argument :=
  match text.toList with
  | ['-', '-'] => separator
  | '-' :: '-' :: cs =>
    let (name, value) := splitValue cs
    match Flag.ofName? name, Setting.ofName? name with
    | some f, _ => if value.isSome then flagWithValue else flags [f]
    | none, some s => setting s value
    | none, none => word text
  | '-' :: c :: cs =>
    match (c :: cs).mapM Flag.ofLetter? with
    | some fs => flags fs
    | none => word text
  | _ => word text

end Argument

/-- Options read so far. A setting waits for its value, and is checked when something else
follows. -/
structure Reading where
  options : Options := {}
  waiting : Option (Setting × Option String) := none

namespace Reading

def set (r : Reading) : Setting → String → Except Refusal Reading
  | .config, value =>
    if r.options.config.isSome then .error .repeated
    else if value = "" then .error .missingValue
    else .ok { r with options := { r.options with config := some ⟨value⟩ } }
  | .collection, value =>
    if value = "" then .error .missingValue
    else .ok { r with
      options := { r.options with collections := r.options.collections ++ [⟨value⟩] } }

/-- Settles the waiting setting. -/
def settle (r : Reading) : Except Refusal Reading :=
  match r.waiting with
  | none => .ok r
  | some (_, none) => .error .missingValue
  | some (s, some value) => { r with waiting := none }.set s value

def raise (r : Reading) (f : Flag) : Except Refusal Reading := do
  let r ← r.settle
  let o := r.options
  match f with
  | .dryRun =>
    if o.dryRun then .error .repeated else .ok { r with options := { o with dryRun := true } }
  | .keepGoing =>
    if o.keepGoing then .error .repeated else .ok { r with options := { o with keepGoing := true } }
  | .verbose =>
    if o.verbose then .error .repeated else .ok { r with options := { o with verbose := true } }
  | .help => .error .helpAsked
  | .version => .error .versionAsked

/-- The pipeline takes the rest. -/
def finish (r : Reading) (pipeline : List String) : Except Refusal Options := do
  return { (← r.settle).options with pipeline }

def read (r : Reading) : List String → Except Refusal Options
  | [] => r.finish []
  | arg :: rest => do
    match Argument.ofText arg with
    | .separator => r.finish rest
    | .flagWithValue => .error .unwantedValue
    | .flags fs => (← fs.foldlM raise r).read rest
    | .setting s (some value) => (← (← r.settle).set s value).read rest
    | .setting s none =>
      let settled ← r.settle
      read { settled with waiting := some (s, none) } rest
    | .word text =>
      match r.waiting with
      | some (s, none) => read { r with waiting := some (s, some text) } rest
      | _ => r.finish (text :: rest)

end Reading

def Options.ofArgs (args : List String) : Except Refusal Options := Reading.read {} args

end Lineage.CommandLine
