import LogicSynthesis.TruthTable.Basic

/-!
# Cofactors, support and change of variables

The cofactors of a function fix one variable and keep the arity. A function depends on the
variables whose two cofactors differ; these are its support. `minBase` drops all other
variables and `expand` brings a function back over a larger set of variables.

## Main definitions

- `TruthTable.cofactor0`, `TruthTable.cofactor1`
- `TruthTable.support` — the variables a function depends on, in ascending order
- `TruthTable.minBase` — the function over its support, with the support
- `TruthTable.expand` — the function with its variables moved to given positions
- `codeOf`, `scatter` — assignment codes and their change under a choice of positions
-/

namespace LogicSynthesis

/-- The code of an assignment, the value of variable `0` first. -/
def codeOf : List Bool → Nat
  | [] => 0
  | b :: bs => b.toNat + 2 * codeOf bs

/-- The code that carries bit `k` of `code` at the `k`-th of the given positions and is clear
elsewhere. -/
def scatter : List Nat → Nat → Nat
  | [], _ => 0
  | p :: ps, code => (if code.testBit 0 then 1 <<< p else 0) ||| scatter ps (code / 2)

namespace TruthTable

/-- The function with variable `var` fixed to false. -/
def cofactor0 (t : TruthTable) (var : Nat) : TruthTable :=
  trim { t with
    words :=
      if var < 6 then
        t.words.map fun w =>
          let low := w &&& ~~~(pattern var)
          low ||| (low <<< (1 <<< var : Nat).toUInt64)
      else
        t.words.mapIdx fun i w =>
          if i.testBit (var - 6) then (t.words[i - 1 <<< (var - 6)]?).getD w else w }

/-- The function with variable `var` fixed to true. -/
def cofactor1 (t : TruthTable) (var : Nat) : TruthTable :=
  trim { t with
    words :=
      if var < 6 then
        t.words.map fun w =>
          let high := w &&& pattern var
          high ||| (high >>> (1 <<< var : Nat).toUInt64)
      else
        t.words.mapIdx fun i w =>
          if i.testBit (var - 6) then w else (t.words[i + 1 <<< (var - 6)]?).getD w }

/-- Whether the function depends on `var`. -/
def hasVar (t : TruthTable) (var : Nat) : Bool := t.cofactor0 var != t.cofactor1 var

/-- The variables on which the function depends, in ascending order. -/
def support (t : TruthTable) : List Nat := (List.range t.numVars).filter t.hasVar

/-- The function over its support alone, and the variable that each of its variables stands
for. -/
def minBase (t : TruthTable) : TruthTable × List Nat :=
  let vars := t.support
  if vars.length = t.numVars then (t, vars)
  else (ofFn vars.length fun code => t.bit (scatter vars code), vars)

/-- The function over `numVars` variables in which variable `positions[k]` plays the part of
variable `k`. -/
def expand (t : TruthTable) (positions : List Nat) (numVars : Nat) : TruthTable :=
  ofFn numVars fun code => t.bit (codeOf (positions.map code.testBit))

end TruthTable

end LogicSynthesis
