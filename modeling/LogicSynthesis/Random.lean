/-!
# Random numbers

A source of random words starts from a seed and goes on from state to state. The generator here has
256 bits of state. The state words of a seed are successive outputs of a mixing function over an
arithmetic progression, and a step rotates, adds and shifts the state.

## Main definitions

- `WordSource` — a source of words with states of any type
- `Random` — the state of the generator
- `Random.ofSeed`, `Random.next` — seeding and stepping
- `Random.source` — the generator as a source
- `Random.below` — a number below a bound, each equally likely
- `Random.coin` — one of two equally likely outcomes
-/

namespace LogicSynthesis

/-- A source of words: the state that a seed gives, and a word with the state after it. -/
structure WordSource (σ : Type) where
  ofSeed : UInt64 → σ
  next : σ → UInt64 × σ

/-- As many words as asked for, first drawn first. -/
def WordSource.words {σ : Type} (source : WordSource σ) : Nat → σ → List UInt64 × σ
  | 0, state => ([], state)
  | count + 1, state =>
    let (w, state) := source.next state
    let (ws, state) := source.words count state
    (w :: ws, state)

/-- The four state words of a generator. -/
structure Random where
  s0 : UInt64
  s1 : UInt64
  s2 : UInt64
  s3 : UInt64
  deriving DecidableEq, Repr

namespace Random

/-- The bits of a word moved cyclically to the left. -/
def rotateLeft (w : UInt64) (k : UInt64) : UInt64 := (w <<< k) ||| (w >>> (64 - k))

/-- The distance of successive points of the seeding progression. -/
def seedStep : UInt64 := 0x9e3779b97f4a7c15

/-- Mixes the bits of a word. -/
def mix (x : UInt64) : UInt64 :=
  let y := (x ^^^ (x >>> 30)) * 0xbf58476d1ce4e5b9
  let z := (y ^^^ (y >>> 27)) * 0x94d049bb133111eb
  z ^^^ (z >>> 31)

/-- The generator of a seed. -/
def ofSeed (seed : UInt64) : Random :=
  { s0 := mix (seed + seedStep)
    s1 := mix (seed + 2 * seedStep)
    s2 := mix (seed + 3 * seedStep)
    s3 := mix (seed + 4 * seedStep) }

/-- A random word and the generator after it. -/
def next (r : Random) : UInt64 × Random :=
  let s2 := r.s2 ^^^ r.s0
  let s3 := r.s3 ^^^ r.s1
  (rotateLeft (r.s0 + r.s3) 23 + r.s0,
    { s0 := r.s0 ^^^ s3
      s1 := r.s1 ^^^ s2
      s2 := s2 ^^^ (r.s1 <<< 17)
      s3 := rotateLeft s3 45 })

/-- The number of doublings that keep `n` below two to the 64. -/
def leadingZeros (n : Nat) : Nat := 63 - Nat.log2 n

/-- The largest low half that is accepted for the bound `n`. -/
def zone (n : Nat) : Nat := (n <<< leadingZeros n) - 1

/-- How often a draw may be rejected. Each draw is accepted with probability one half or more. -/
def maxRejections : Nat := 4096

/-- Draws words until the low half of the product with `n` is in the zone, and returns the high
half. -/
def belowLoop (n : Nat) : Nat → Random → Nat × Random
  | 0, r => (0, r)
  | tries + 1, r =>
    let (w, r) := r.next
    let product := w.toNat * n
    if product % 18446744073709551616 ≤ zone n then (product / 18446744073709551616, r)
    else belowLoop n tries r

/-- A number below `n`, for a positive `n` of at most 64 bits. -/
def below (r : Random) (n : Nat) : Nat × Random := belowLoop n maxRejections r

/-- True for the lower half of the words. -/
def coin (r : Random) : Bool × Random :=
  let (w, r) := r.next
  (w < 0x8000000000000000, r)

/-- The generator as a source of words. -/
def source : WordSource Random := ⟨ofSeed, next⟩

end Random

end LogicSynthesis
