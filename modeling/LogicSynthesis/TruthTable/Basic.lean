/-!
# Truth tables

A truth table is a Boolean function of `numVars` variables, packed into 64-bit words. Bit `i`
is the value of the function on the assignment coded by `i`: variable `0` is the lowest bit of
the code and toggles fastest. A function of fewer than six variables fills the low bits of one
word, and a canonical table leaves the other bits of that word clear.

## Main definitions

- `TruthTable` — the packed table
- `TruthTable.bit` — the value at one assignment
- `TruthTable.Canonical` — the tables in which equal functions have equal words
- `TruthTable.ofFn` — the table of a function on assignment codes
- `zero`, `one`, `proj`, `not`, `and`, `or`, `xor`, `maj`, `ite` — constants, projections and
  the Boolean operations, word by word

The operations here are total. `Checked` adds the conditions under which they are meaningful.
-/

namespace LogicSynthesis

/-- A Boolean function of `numVars` variables, 64 assignments to a word. -/
structure TruthTable where
  numVars : Nat
  words : Array UInt64
  deriving DecidableEq, Hashable, Repr

namespace TruthTable

/-- The largest number of variables for which a table is made. -/
def maxVars : Nat := 20

/-- The number of words that a table of `numVars` variables fills. -/
def wordCount (numVars : Nat) : Nat :=
  if numVars ≤ 6 then 1 else 1 <<< (numVars - 6)

/-- The bits of a first word that a table of `numVars` variables uses. -/
def usedBits (numVars : Nat) : UInt64 :=
  if numVars < 6 then ((1 : UInt64) <<< UInt64.ofNat (1 <<< numVars)) - 1 else 0xFFFFFFFFFFFFFFFF

/-- The word whose bit `b` is bit `v` of `b`, for the variables that toggle within a word. -/
def pattern : Nat → UInt64
  | 0 => 0xAAAAAAAAAAAAAAAA
  | 1 => 0xCCCCCCCCCCCCCCCC
  | 2 => 0xF0F0F0F0F0F0F0F0
  | 3 => 0xFF00FF00FF00FF00
  | 4 => 0xFFFF0000FFFF0000
  | 5 => 0xFFFFFFFF00000000
  | _ => 0

/-- Bit `i` of a word. -/
def wordBit (w : UInt64) (i : Nat) : Bool := (w >>> i.toUInt64) &&& 1 == 1

/-- The word with the single bit `i`. -/
def unitWord (i : Nat) : UInt64 := 1 <<< i.toUInt64

/-- The value of the function on the assignment coded by `i`; clear where no word is stored. -/
def bit (t : TruthTable) (i : Nat) : Bool :=
  match t.words[i / 64]? with
  | some w => wordBit w (i % 64)
  | none => false

/-- The number of assignments. -/
def numBits (t : TruthTable) : Nat := 1 <<< t.numVars

/-- A table of at most `maxVars` variables, with as many words as its assignments need and no
bit set beyond them. -/
def Canonical (t : TruthTable) : Prop :=
  t.numVars ≤ maxVars ∧ t.words.size = wordCount t.numVars ∧
    ∀ i, t.bit i = true → i < t.numBits

/-- Clears the bits of the first word that the arity leaves unused. -/
def trim (t : TruthTable) : TruthTable :=
  if t.numVars < 6 then
    { t with words := t.words.modify 0 (· &&& usedBits t.numVars) }
  else t

/-- The constant false of `numVars` variables. -/
def zero (numVars : Nat) : TruthTable :=
  ⟨numVars, Array.replicate (wordCount numVars) 0⟩

instance : Inhabited TruthTable := ⟨zero 0⟩

/-- Pointwise negation. -/
protected def not (t : TruthTable) : TruthTable :=
  trim { t with words := t.words.map (~~~ ·) }

/-- The constant true of `numVars` variables. -/
def one (numVars : Nat) : TruthTable := (zero numVars).not

/-- The projection onto variable `index`. -/
def proj (numVars index : Nat) : TruthTable :=
  trim ⟨numVars,
    if index < 6 then Array.replicate (wordCount numVars) (pattern index)
    else Array.ofFn (n := wordCount numVars)
      fun i => if i.val.testBit (index - 6) then 0xFFFFFFFFFFFFFFFF else 0⟩

/-- The table of at most six variables whose bits are those of a word. -/
def ofWord (numVars : Nat) (w : UInt64) : TruthTable := trim ⟨numVars, #[w]⟩

/-- The table with `bit i` set to `value`. -/
def setBit (t : TruthTable) (i : Nat) (value : Bool) : TruthTable :=
  { t with
    words := t.words.modify (i / 64) fun w =>
      if value then w ||| unitWord (i % 64) else w &&& ~~~(unitWord (i % 64)) }

/-- The word that packs `f 0`, …, `f (count - 1)`. -/
def packWord (f : Nat → Bool) : Nat → UInt64
  | 0 => 0
  | count + 1 => if f count then packWord f count ||| unitWord count else packWord f count

/-- The table whose bit at every assignment code is the value of `f` there. -/
def ofFn (numVars : Nat) (f : Nat → Bool) : TruthTable :=
  ⟨numVars, Array.ofFn (n := wordCount numVars)
    fun w => packWord (fun b => f (64 * w.val + b)) (min 64 (1 <<< numVars))⟩

def isConst0 (t : TruthTable) : Bool := t.words.all (· == 0)

def isConst1 (t : TruthTable) : Bool := t.not.isConst0

/-- The number of set bits of a word. -/
def popcount (w : UInt64) : Nat := (List.range 64).countP (wordBit w)

/-- The number of assignments on which the function is true. -/
def countOnes (t : TruthTable) : Nat := t.words.foldl (fun total w => total + popcount w) 0

/-- Applies a word operation throughout two tables of one arity. -/
def zipWords (op : UInt64 → UInt64 → UInt64) (a b : TruthTable) : TruthTable :=
  trim ⟨a.numVars, Array.zipWith op a.words b.words⟩

protected def and (a b : TruthTable) : TruthTable := zipWords (· &&& ·) a b

protected def or (a b : TruthTable) : TruthTable := zipWords (· ||| ·) a b

protected def xor (a b : TruthTable) : TruthTable := zipWords (· ^^^ ·) a b

/-- The majority of three functions. -/
def maj (a b c : TruthTable) : TruthTable := ((a.and b).or (a.and c)).or (b.and c)

/-- `thenPart` where `condition` holds, `elsePart` elsewhere. -/
protected def ite (condition thenPart elsePart : TruthTable) : TruthTable :=
  (condition.and thenPart).or (condition.not.and elsePart)

/-- The table, negated when `negate` is set. -/
def withPolarity (t : TruthTable) (negate : Bool) : TruthTable := if negate then t.not else t

/-- Tables are ordered by arity, then by their words from the first on. -/
def order (a b : TruthTable) : Ordering :=
  (compare a.numVars b.numVars).then (compare a.words.toList b.words.toList)

end TruthTable

end LogicSynthesis
