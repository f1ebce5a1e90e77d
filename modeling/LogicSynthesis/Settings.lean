import LogicSynthesis.Json

/-!
# Settings of the passes

Each pass takes a record of settings. A JSON document names the settings that it changes and
leaves the others at their defaults.

## Main definitions

- `CutSettings`, `RewriteSettings`, `WindowSettings`, `TranslationSettings` — the records
- `Selection` — how a set of compatible candidates is chosen
- `RewriteSettings.ofText` — settings from a text
- `loadSettings` — settings from the contents of a file
-/

namespace LogicSynthesis

/-- Bounds on the cuts of a node. `cutLimit` counts the trivial cut. With `minimize`, a cut
keeps only the leaves on which its function depends. -/
structure CutSettings where
  cutSize : Nat := 4
  cutLimit : Nat := 12
  minimize : Bool := true
  deriving DecidableEq, Repr

/-- How rewriting chooses among candidates that exclude each other: by gain against the number
of candidates excluded, or first come, first served. -/
inductive Selection where
  | minimizeWeight
  | greedy
  deriving DecidableEq, Repr

/-- Settings of cut rewriting. The last three concern reports alone. -/
structure RewriteSettings where
  cuts : CutSettings := {}
  allowZeroGain : Bool := false
  useDontCares : Bool := false
  selection : Selection := .minimizeWeight
  progress : Bool := false
  verbose : Bool := false
  veryVerbose : Bool := false
  deriving DecidableEq, Repr

/-- The largest number of leaves of a window. -/
structure WindowSettings where
  cutSize : Nat := 10
  deriving DecidableEq, Repr

/-- Settings of the translation between bases. -/
structure TranslationSettings where
  verbose : Bool := false
  deriving DecidableEq, Repr

/-- Why settings could not be had. -/
inductive SettingsError where
  | malformedText
  | unreadableFile (path : String)
  | malformedFile (path : String)
  deriving DecidableEq, Repr

def SettingsError.message : SettingsError → String
  | malformedText => "parsing cut rewriting parameters"
  | unreadableFile path => s!"reading parameters from {path}"
  | malformedFile path => s!"parsing parameters in {path}"

namespace CutSettings

def ofDocument? (document : Json) : Option CutSettings := do
  match ← document.fields ["cut_size", "cut_limit", "minimize_truth_table"] with
  | [size, limit, minimize] =>
    let default : CutSettings := {}
    return {
      cutSize := ← Json.orDefault size default.cutSize Json.toNat?
      cutLimit := ← Json.orDefault limit default.cutLimit Json.toNat?
      minimize := ← Json.orDefault minimize default.minimize Json.toBool? }
  | _ => none

end CutSettings

namespace Selection

def ofName? (name : String) : Option Selection :=
  if name == "minimize_weight" then some minimizeWeight
  else if name == "greedy" then some greedy
  else none

/-- A selection is given by its name, or by an object that gives its name the value null. -/
def ofDocument? : Json → Option Selection
  | .string (some name) => ofName? name
  | .object [(some name, .null)] => ofName? name
  | _ => none

end Selection

namespace RewriteSettings

def ofDocument? (document : Json) : Option RewriteSettings := do
  let names := ["cut_enumeration", "allow_zero_gain", "use_dont_cares",
    "candidate_selection_strategy", "progress", "verbose", "very_verbose"]
  match ← document.fields names with
  | [cuts, zeroGain, dontCares, selection, progress, verbose, veryVerbose] =>
    return {
      cuts := ← Json.orDefault cuts {} CutSettings.ofDocument?
      allowZeroGain := ← Json.orDefault zeroGain false Json.toBool?
      useDontCares := ← Json.orDefault dontCares false Json.toBool?
      selection := ← Json.orDefault selection .minimizeWeight Selection.ofDocument?
      progress := ← Json.orDefault progress false Json.toBool?
      verbose := ← Json.orDefault verbose false Json.toBool?
      veryVerbose := ← Json.orDefault veryVerbose false Json.toBool? }
  | _ => none

/-- The settings that a text describes. -/
def ofText (text : String) : Except SettingsError RewriteSettings :=
  match Json.read text >>= ofDocument? with
  | some settings => .ok settings
  | none => .error .malformedText

end RewriteSettings

namespace WindowSettings

def ofDocument? (document : Json) : Option WindowSettings := do
  match ← document.fields ["cut_size"] with
  | [size] => return { cutSize := ← Json.orDefault size 10 Json.toNat? }
  | _ => none

end WindowSettings

namespace TranslationSettings

def ofDocument? (document : Json) : Option TranslationSettings := do
  match ← document.fields ["verbose"] with
  | [verbose] => return { verbose := ← Json.orDefault verbose false Json.toBool? }
  | _ => none

end TranslationSettings

/-- The settings in the file at `path`, whose contents are absent when it cannot be read. -/
def loadSettings {α : Type} (decode : Json → Option α) (path : String)
    (contents : Option String) : Except SettingsError α :=
  match contents with
  | none => .error (.unreadableFile path)
  | some text =>
    match Json.read text >>= decode with
    | some settings => .ok settings
    | none => .error (.malformedFile path)

end LogicSynthesis
