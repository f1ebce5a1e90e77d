import LogicSynthesis.TruthTable.Support

/-!
# Composition

Composition replaces each variable of a function by a function. It is computed as a sum of
minterms, once on whole tables and once on single words, whose 64 lanes are independent
assignments.

## Main definitions

- `TruthTable.minterm` — the conjunction that selects one assignment of the inputs
- `TruthTable.compose` — the function with a table for each variable
- `TruthTable.composeWord` — the function applied in each lane of the input words
-/

namespace LogicSynthesis.TruthTable

/-- The conjunction of the inputs, each negated where the assignment coded by `code` gives its
variable the value false. -/
def minterm (numVars : Nat) (inputs : List TruthTable) (code : Nat) : TruthTable :=
  inputs.zipIdx.foldl
    (fun term (input, k) => term.and (input.withPolarity (!code.testBit k))) (one numVars)

/-- The arity that a composition takes from its inputs. -/
def commonVars (inputs : List TruthTable) : Nat := (inputs.head?.map numVars).getD 0

/-- The function with variable `k` replaced by `inputs[k]`. -/
def compose (t : TruthTable) (inputs : List TruthTable) : TruthTable :=
  let n := commonVars inputs
  (List.range t.numBits).foldl
    (fun sum code => if t.bit code then sum.or (minterm n inputs code) else sum) (zero n)

/-- The lanes in which the input words hold the assignment coded by `code`. -/
def mintermWord (inputs : List UInt64) (code : Nat) : UInt64 :=
  inputs.zipIdx.foldl
    (fun term (w, k) => term &&& (if code.testBit k then w else ~~~w)) 0xFFFFFFFFFFFFFFFF

/-- The word whose lane `b` is the function on the values in lane `b` of the inputs. -/
def composeWord (t : TruthTable) (inputs : List UInt64) : UInt64 :=
  (List.range t.numBits).foldl
    (fun sum code => if t.bit code then sum ||| mintermWord inputs code else sum) 0

end LogicSynthesis.TruthTable
