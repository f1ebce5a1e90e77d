import LogicSynthesis.Signal

/-!
# Change notifications

Watchers are told of changes to a network. Each watcher has a name, and a notification goes to
every watcher of its kind in the order of their registration.

## Main definitions

- `Notification` — what one watcher is told
- `Events` — the watchers and what they were told so far
-/

namespace LogicSynthesis

/-- What a watcher is told: that a node was added, or that the fanins of a node were edited,
with the fanins from before. -/
inductive Notification where
  | added (watcher : String) (node : NodeId)
  | modified (watcher : String) (node : NodeId) (formerFanins : List Signal)
  deriving DecidableEq, Repr

/-- The watchers of a network and the notifications they received, oldest first. -/
structure Events where
  addWatchers : Array String := #[]
  modifiedWatchers : Array String := #[]
  log : Array Notification := #[]
  deriving DecidableEq, Repr

namespace Events

def watchAdded (e : Events) (watcher : String) : Events :=
  { e with addWatchers := e.addWatchers.push watcher }

def watchModified (e : Events) (watcher : String) : Events :=
  { e with modifiedWatchers := e.modifiedWatchers.push watcher }

/-- Dismisses every watcher and keeps what was told. -/
def unwatch (e : Events) : Events := { e with addWatchers := #[], modifiedWatchers := #[] }

/-- Forgets what was told and keeps the watchers. -/
def emptied (e : Events) : Events := { e with log := #[] }

def notifyAdded (e : Events) (node : NodeId) : Events :=
  { e with log := e.addWatchers.foldl (fun log w => log.push (.added w node)) e.log }

def notifyModified (e : Events) (node : NodeId) (formerFanins : List Signal) : Events :=
  { e with
    log := e.modifiedWatchers.foldl
      (fun log w => log.push (.modified w node formerFanins)) e.log }

/-- How many watchers of each kind there are. -/
def summary (e : Events) : String :=
  let added := toString e.addWatchers.size
  let modified := toString e.modifiedWatchers.size
  s!"Events \x7b on_add: {added}, on_modified: {modified} \x7d"

end Events

end LogicSynthesis
