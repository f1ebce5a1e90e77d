/-!
# The BLAKE3 hash function

The unkeyed hash with 32 bytes of output. A message is split into chunks of 1024 bytes and a
chunk into blocks of 64 bytes. The blocks of a chunk are compressed one after another, and the
results of the chunks are combined pairwise in a tree.

## Main definitions

- `Blake3.compress` — the compression function
- `Blake3.Output` — a compression that waits to learn whether it is the root
- `Blake3.hash` — the hash of a message
-/

namespace LogicSynthesis.Blake3

/-- The initial chaining value. -/
def initial : Array UInt32 :=
  #[0x6A09E667, 0xBB67AE85, 0x3C6EF372, 0xA54FF53A, 0x510E527F, 0x9B05688C, 0x1F83D9AB,
    0x5BE0CD19]

/-- Where each message word of the next round is taken from. -/
def permutation : Array Nat := #[2, 6, 3, 10, 7, 0, 4, 13, 1, 11, 12, 5, 9, 14, 15, 8]

def chunkStart : UInt32 := 1

def chunkEnd : UInt32 := 2

def parent : UInt32 := 4

def root : UInt32 := 8

def word (ws : Array UInt32) (i : Nat) : UInt32 := (ws[i]?).getD 0

def rotateRight (w k : UInt32) : UInt32 := (w >>> k) ||| (w <<< (32 - k))

/-- Mixes two message words into four words of the state. -/
def mix (a b c d : Nat) (x y : UInt32) (s : Array UInt32) : Array UInt32 :=
  let va := word s a + word s b + x
  let vd := rotateRight (word s d ^^^ va) 16
  let vc := word s c + vd
  let vb := rotateRight (word s b ^^^ vc) 12
  let va := va + vb + y
  let vd := rotateRight (vd ^^^ va) 8
  let vc := vc + vd
  let vb := rotateRight (vb ^^^ vc) 7
  (((s.setIfInBounds a va).setIfInBounds b vb).setIfInBounds c vc).setIfInBounds d vd

/-- Mixes the columns of the state, then its diagonals. -/
def round (m s : Array UInt32) : Array UInt32 :=
  let s := mix 0 4 8 12 (word m 0) (word m 1) s
  let s := mix 1 5 9 13 (word m 2) (word m 3) s
  let s := mix 2 6 10 14 (word m 4) (word m 5) s
  let s := mix 3 7 11 15 (word m 6) (word m 7) s
  let s := mix 0 5 10 15 (word m 8) (word m 9) s
  let s := mix 1 6 11 12 (word m 10) (word m 11) s
  let s := mix 2 7 8 13 (word m 12) (word m 13) s
  mix 3 4 9 14 (word m 14) (word m 15) s

/-- As many rounds as asked for, the message permuted in between. -/
def rounds : Nat → Array UInt32 → Array UInt32 → Array UInt32
  | 0, _, s => s
  | n + 1, m, s => rounds n (permutation.map (word m)) (round m s)

/-- A compression: the chaining value, the message words of a block and the words that tell
blocks apart. -/
structure Output where
  chaining : Array UInt32
  block : Array UInt32
  counter : Nat
  length : Nat
  flags : UInt32

/-- The eight words that a compression gives when `extra` is added to its flags. -/
def compress (o : Output) (extra : UInt32) : Array UInt32 :=
  let start := o.chaining ++ initial.take 4 ++
    #[UInt32.ofNat o.counter, UInt32.ofNat (o.counter >>> 32), UInt32.ofNat o.length,
      o.flags ||| extra]
  let s := rounds 7 o.block start
  Array.ofFn (n := 8) fun i => word s i ^^^ word s (i + 8)

/-- Splits a list into parts of `n` elements; the last part takes what is left. -/
def splitEvery {α : Type} (n : Nat) (xs : List α) : List (List α) :=
  if _ : xs.length ≤ n ∨ n = 0 then [xs] else xs.take n :: splitEvery n (xs.drop n)
  termination_by xs.length
  decreasing_by
    simp only [List.length_drop]
    omega

/-- The word of four bytes, the lowest first; bytes that are missing are zero. -/
def wordOf (bytes : List UInt8) : UInt32 :=
  bytes.foldr (fun b w => (w <<< 8) ||| b.toUInt32) 0

/-- The sixteen words of a block. -/
def blockWords (bytes : List UInt8) : Array UInt32 :=
  let ws := (splitEvery 4 bytes).map wordOf
  Array.ofFn (n := 16) fun i => (ws[i.val]?).getD 0

/-- The last compression of a chunk. All earlier blocks go into its chaining value. -/
def chunkOutput (counter : Nat) :
    Array UInt32 → UInt32 → List (List UInt8) → Output
  | chaining, flags, [] => ⟨chaining, blockWords [], counter, 0, flags ||| chunkEnd⟩
  | chaining, flags, [last] =>
    ⟨chaining, blockWords last, counter, last.length, flags ||| chunkEnd⟩
  | chaining, flags, block :: rest =>
    let o : Output := ⟨chaining, blockWords block, counter, block.length, flags⟩
    chunkOutput counter (compress o 0) 0 rest

/-- The compression above two others. -/
def parentOutput (left right : Output) : Output :=
  ⟨initial, compress left 0 ++ compress right 0, 0, 64, parent⟩

/-- Combines neighbours; the last one stays alone if their number is odd. -/
def pairUp : List Output → List Output
  | left :: right :: rest => parentOutput left right :: pairUp rest
  | outputs => outputs

theorem length_pairUp : ∀ outputs : List Output, (pairUp outputs).length ≤ (outputs.length + 1) / 2
  | [] => by simp only [pairUp, List.length_nil]; omega
  | [_] => by simp only [pairUp, List.length_cons, List.length_nil]; omega
  | _ :: _ :: rest => by
    have := length_pairUp rest
    simp only [pairUp, List.length_cons]
    omega

/-- Combines outputs until one is left. -/
def treeOutput (first : Output) (rest : List Output) : Output :=
  match rest with
  | [] => first
  | second :: others => treeOutput (parentOutput first second) (pairUp others)
  termination_by rest.length
  decreasing_by
    have := length_pairUp others
    simp only [List.length_cons]
    omega

/-- The four bytes of a word, the lowest first. -/
def wordBytes (w : UInt32) : List UInt8 :=
  [w.toUInt8, (w >>> 8).toUInt8, (w >>> 16).toUInt8, (w >>> 24).toUInt8]

/-- The 32 bytes of the hash of a message. -/
def hash (message : List UInt8) : List UInt8 :=
  let outputs := (splitEvery 1024 message).zipIdx.map fun (chunk, i) =>
    chunkOutput i initial chunkStart (splitEvery 64 chunk)
  match outputs with
  | [] => []
  | first :: rest => (compress (treeOutput first rest) root).toList.flatMap wordBytes

end LogicSynthesis.Blake3
