import LogicSynthesis.Resynthesis.Oracle

/-!
# Shannon decomposition

A function is split on a variable into its two cofactors. These are built in the same way and
joined by the cheapest operator that fits: a conjunction or a disjunction where one cofactor is
constant, an exclusive or where they are complements, an if-then-else otherwise. Only the
assignments of the care set matter. Variables on which the function then does not depend are
dropped before each split.

## Main definitions

- `Shannon.dropFreeVars` — merges assignments that differ in a variable that does not matter
- `Shannon.build` — the signal of a function on a care set
- `Oracle.shannon` — one proposal for each variable to split on first
-/

namespace LogicSynthesis

namespace Shannon

/-- Whether the function depends on `var` between two assignments that both matter. -/
def depends (on care : TruthTable) (var : Nat) : Bool :=
  let both := (care.cofactor0 var).and (care.cofactor1 var)
  !(((on.cofactor0 var).xor (on.cofactor1 var)).and both).isConst0

/-- Makes the function independent of `var` if no two assignments that matter show a difference.
Where one of two assignments matters, both take its value and matter from then on. -/
def dropFreeVar (state : TruthTable × TruthTable) (var : Nat) : TruthTable × TruthTable :=
  let (on, care) := state
  if (on.hasVar var || care.hasVar var) && !depends on care var then
    let care1 := care.cofactor1 var
    let merged := TruthTable.ite care1 (on.cofactor1 var) (on.cofactor0 var)
    let care := (care.cofactor0 var).or care1
    (merged.and care, care)
  else (on, care)

/-- Drops every variable that does not matter, in ascending order. -/
def dropFreeVars (on care : TruthTable) : TruthTable × TruthTable :=
  (List.range on.numVars).foldl dropFreeVar (on, care)

/-- The value of a signal that a constant node drives. -/
def constantOf (s : Signal) : Build (Option Bool) :=
  Build.ask fun net => do
    match (← net.node s.node).kind with
    | .constant value => return some (value ^^ s.negated)
    | _ => return none

/-- A leaf or its negation that agrees with the function wherever it matters. Each leaf comes
with its variable. -/
def matchLeaf (on care : TruthTable) : List (Signal × Nat) → Build (Option Signal)
  | [] => return none
  | (leaf, i) :: rest => do
    let literal := TruthTable.proj on.numVars i
    if ((on.xor literal).and care).isConst0 then return some leaf
    if ((on.xor literal.not).and care).isConst0 then return some (← Build.not leaf)
    matchLeaf on care rest

/-- The signal of a function that needs no split. -/
def terminal (leaves : List Signal) (on care : TruthTable) : Build (Option Signal) :=
  if on.isConst0 then some <$> Build.constant false
  else if on = care then some <$> Build.constant true
  else matchLeaf on care leaves.zipIdx

/-- The signals of functions that were built before, by function and care set. -/
abbrev Memo := Std.HashMap (TruthTable × TruthTable) Signal

abbrev Builder := StateT Memo Build

/-- The variable to split on: the preferred one if the function depends on it, else the last one
on which it depends. -/
def splitVar (on : TruthTable) (preferred : Option Nat) : Option Nat :=
  match preferred.filter on.hasVar with
  | some var => some var
  | none => (List.range on.numVars).reverse.find? on.hasVar

/-- Joins the signals `s0` and `s1` of the two cofactors on `x`. -/
def join (x s0 s1 : Signal) (complementary : Bool) : Build Signal := do
  if s0 = s1 then return s0
  match ← constantOf s0, ← constantOf s1 with
  | some false, _ => Build.and x s1
  | some true, _ => Build.or (← Build.not x) s1
  | none, some false => Build.and (← Build.not x) s0
  | none, some true => Build.or x s0
  | none, none => if complementary then Build.xor x s0 else Build.ite x s1 s0

/-- Whether the cofactors matter on the same assignments and are complements there. -/
def areComplementary (on0 care0 on1 care1 : TruthTable) : Bool :=
  care0 == care1 && (on0.xor on1).and care0 == care0

/-- A signal that agrees with `function` on `care`. With a preferred variable for the first split
it is built anew; otherwise the memo is used. The depth bounds the number of splits on one
path. -/
def build (leaves : List Signal) :
    Nat → TruthTable → TruthTable → Option Nat → Builder Signal
  | 0, _, _, _ => throw .noSupport
  | depth + 1, function, care, preferred => do
    if care.isConst0 then return ← Build.constant false
    let (on, care) := dropFreeVars (function.and care) care
    if let some s ← terminal leaves on care then return s
    if preferred.isNone then
      if let some s := (← get)[(on, care)]? then return s
    let some var := splitVar on preferred | throw .noSupport
    let on0 := on.cofactor0 var
    let on1 := on.cofactor1 var
    let care0 := care.cofactor0 var
    let care1 := care.cofactor1 var
    let some x := leaves[var]? | throw .missingEntry
    let s0 ← build leaves depth on0 care0 none
    let s1 ← build leaves depth on1 care1 none
    let result ← join x s0 s1 (areComplementary on0 care0 on1 care1)
    if preferred.isNone then modify (·.insert (on, care) result)
    return result

/-- Builds and proposes one signal for each of the variables to split on first. A signal that
was proposed before is passed over. -/
def proposeSplits (leaves : List Signal) (function care : TruthTable) :
    List Nat → Memo → List Signal → Network → Dialogue Unit
  | [], _, _, net => .finish () net
  | var :: rest, memo, proposed, net =>
    match build leaves (function.numVars + 1) function care (some var) memo net with
    | .error fault => .stop fault
    | .ok ((s, memo), net) =>
      if proposed.contains s then proposeSplits leaves function care rest memo proposed net
      else .propose net s fun more net =>
        if more then proposeSplits leaves function care rest memo (s :: proposed) net
        else .finish () net

/-- The variables on which the function depends within the care set, the last one first. -/
def splitVars (function care : TruthTable) : List Nat :=
  (List.range function.numVars).reverse.filter (depends (function.and care) care)

/-- Proposes signals that agree with `function` on `care`, at most `maxCandidates` unless that
is zero. -/
def answer (maxCandidates : Nat) (function care : TruthTable) (leaves : List Signal)
    (net : Network) : Dialogue Unit :=
  if function.numVars ≠ leaves.length then .stop .leafCount
  else if function.numVars ≠ care.numVars then .stop .arityMismatch
  else
    match splitVars function care with
    | [] =>
      .single (Prod.fst <$> (build leaves (function.numVars + 1) function care none).run ∅) () net
    | vars =>
      let limit := if maxCandidates = 0 then vars.length else maxCandidates
      proposeSplits leaves function care (vars.take limit) ∅ [] net

end Shannon

namespace Oracle

/-- Decomposes functions, with one proposal for each variable to split on first. -/
def shannon (maxCandidates : Nat) : Oracle Unit :=
  { usesDontCares := true
    answer := fun _ query net =>
      let care :=
        match query.dontCares with
        | some mask => mask.not
        | none => .one query.function.numVars
      Shannon.answer maxCandidates query.function care query.leaves net }

/-- Decomposes functions through an oracle that is always given a set of don't-cares. -/
def maskedShannon (maxCandidates : Nat) : Oracle Unit :=
  withDontCares fun function mask leaves net =>
    Shannon.answer maxCandidates function mask.not leaves net

end Oracle

end LogicSynthesis
