/-!
# Kinds of network nodes

A node of a logic network is a constant, one of the two kinds of combinational input, or a
gate. Primary inputs are driven from outside; register outputs carry the state of a register
and behave as inputs of the combinational logic.
-/

namespace LogicSynthesis

/-- What a node of a logic network stands for. -/
inductive NodeKind where
  | constant (value : Bool)
  | primaryInput
  | registerOutput
  | gate
  deriving DecidableEq, Repr

namespace NodeKind

def isConstant : NodeKind → Bool
  | constant _ => true
  | _ => false

/-- Primary inputs and register outputs together are the combinational inputs. -/
def isInput : NodeKind → Bool
  | primaryInput | registerOutput => true
  | _ => false

def isGate : NodeKind → Bool
  | gate => true
  | _ => false

/-- Constants and combinational inputs: the nodes at which every fanin path ends. -/
def isTerminal (k : NodeKind) : Bool := k.isConstant || k.isInput

end NodeKind

end LogicSynthesis
