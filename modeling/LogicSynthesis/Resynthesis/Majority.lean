import LogicSynthesis.Resynthesis.Oracle

/-!
# Majority matching

Recognises the functions that one or two gates express: constants, literals, conjunctions of two
or three literals and majorities of three, each with any inputs and the output complemented.
Disjunctions are conjunctions of this form. For all other functions nothing is proposed.

## Main definitions

- `Majority.Shape`, `Majority.Match` — the gates to build, and the literals they read
- `Majority.findMatch` — the first shape and polarities that give the function
- `Oracle.majority` — the oracle
-/

namespace LogicSynthesis

namespace Majority

/-- What is built over the literals. -/
inductive Shape where
  | and2
  | and3
  | maj3
  deriving DecidableEq, Repr

/-- A variable and whether it is complemented. -/
abbrev Literal := Nat × Bool

/-- A shape over literals, complemented when `negated` is set. -/
structure Match where
  shape : Shape
  literals : List Literal
  negated : Bool
  deriving DecidableEq, Repr

/-- The shapes over a given number of literals. -/
def shapes : Nat → List Shape
  | 2 => [.and2]
  | 3 => [.and3, .maj3]
  | _ => []

/-- The polarities of `arity` literals; that of the first one varies fastest. -/
def polarities (arity : Nat) : List (List Bool) :=
  (List.range (1 <<< arity)).map fun code => (List.range arity).map code.testBit

/-- The table of a literal over `numVars` variables. -/
def literalTable (numVars : Nat) (literal : Literal) : TruthTable :=
  (TruthTable.proj numVars literal.1).withPolarity literal.2

/-- The table of a shape over its inputs. -/
def Shape.table : Shape → List TruthTable → TruthTable
  | and2, [a, b] => a.and b
  | and3, [a, b, c] => (a.and b).and c
  | maj3, [a, b, c] => TruthTable.maj a b c
  | _, _ => .zero 0

/-- The table of a match over `numVars` variables. -/
def Match.table (numVars : Nat) (m : Match) : TruthTable :=
  (m.shape.table (m.literals.map (literalTable numVars))).withPolarity m.negated

/-- Every match over the given variables, in the order in which they are tried. -/
def candidates (vars : List Nat) : List Match :=
  (shapes vars.length).flatMap fun shape =>
    (polarities vars.length).flatMap fun polarity =>
      [false, true].map fun negated => ⟨shape, vars.zip polarity, negated⟩

/-- The first match that has the given table. -/
def findMatch (function : TruthTable) : Option Match :=
  (candidates function.support).find? fun m => m.table function.numVars == function

/-- The signal of a literal. -/
def literalSignal (leaves : List Signal) (literal : Literal) : Build Signal :=
  match leaves[literal.1]? with
  | some leaf => Build.withPolarity leaf literal.2
  | none => throw .missingEntry

/-- The gates of a shape. -/
def Shape.build : Shape → List Signal → Build Signal
  | and2, [a, b] => Build.and a b
  | and3, [a, b, c] => do Build.and (← Build.and a b) c
  | maj3, [a, b, c] => Build.maj a b c
  | _, _ => throw .missingEntry

/-- The signal of a match. -/
def Match.build (leaves : List Signal) (m : Match) : Build Signal := do
  let literals ← m.literals.mapM (literalSignal leaves)
  Build.withPolarity (← m.shape.build literals) m.negated

/-- The leaf that the function projects to, complemented if it is negated. Each leaf comes with
its variable. -/
def matchLeaf (function : TruthTable) : List (Signal × Nat) → Option (Build Signal)
  | [] => none
  | (leaf, i) :: rest =>
    let literal := TruthTable.proj function.numVars i
    if function = literal then some (return leaf)
    else if function = literal.not then some (Build.not leaf)
    else matchLeaf function rest

/-- How to build the function, if it is one of those recognised. -/
def implement (function : TruthTable) (leaves : List Signal) : Option (Build Signal) :=
  if function.isConst0 || function.isConst1 then some (Build.constant function.isConst1)
  else
    match matchLeaf function leaves.zipIdx with
    | some build => some build
    | none => (findMatch function).map (Match.build leaves)

end Majority

namespace Oracle

/-- Proposes at most one signal, for a function that is recognised. -/
def majority : Oracle Unit :=
  ofFunction fun function leaves net =>
    if function.numVars ≠ leaves.length then .stop .leafCount
    else
      match Majority.implement function leaves with
      | some build => .single build () net
      | none => .finish () net

end Oracle

end LogicSynthesis
