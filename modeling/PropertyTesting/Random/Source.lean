import PropertyTesting.Random.Engine

/-!
Seeded random sources and the draws made from them. A source remembers the
seed it came from, so that a run can be replayed from its report. Inputs that
are generated side by side each draw from a fork: a fork costs its parent one
draw, however much the child is used.
-/

namespace PropertyTesting

/-- A stream of random words, together with the seed that started it. -/
structure RandomSource where
  seed : UInt64
  engine : Engine
deriving DecidableEq, Repr

/-- A computation that draws from a random source. -/
abbrev Draw := StateM RandomSource

namespace RandomSource

def seeded (seed : UInt64) : RandomSource :=
  { seed := seed, engine := Engine.ofSeed seed }

/-- The next word of a source, and the source after it. -/
def next (rs : RandomSource) : UInt64 × RandomSource :=
  (rs.engine.next.1, { rs with engine := rs.engine.next.2 })

def describe (rs : RandomSource) : String :=
  s!"RandomSource(seed = {rs.seed})"

end RandomSource

namespace Draw

def word : Draw UInt64 :=
  fun rs => rs.next

def halfWord : Draw UInt32 := do
  let w ← word
  return (w >>> 32).toUInt32

/-- A child source, seeded by one word of its parent. -/
def fork : Draw RandomSource := do
  let seed ← word
  return RandomSource.seeded seed

/-- A fair coin: the top bit of one word. -/
def bool : Draw Bool := do
  let w ← halfWord
  return w >>> 31 == 1

/-- The bytes of a word, lowest first. -/
def littleEndian (w : UInt64) : List UInt8 :=
  (List.range 8).map fun i => (w >>> (8 * i).toUInt64).toUInt8

/-- A given number of bytes. Every eight of them, and what is left over, take
one word. -/
def bytes (n : Nat) : Draw (List UInt8) :=
  if n = 0 then
    return []
  else do
    let w ← word
    let rest ← bytes (n - 8)
    return (littleEndian w).take n ++ rest
termination_by n

end Draw

end PropertyTesting
