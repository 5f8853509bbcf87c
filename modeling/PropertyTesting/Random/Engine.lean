/-!
The word engine behind every draw. A SplitMix engine walks through the 64-bit
words in steps of a fixed odd number and scrambles each word it passes. The
walk meets every word before it comes back, and the scrambling loses nothing,
so one period of the engine shows every word exactly once.
-/

namespace PropertyTesting

/-- The position of a walk through the 64-bit words, and its step. -/
structure Engine where
  state : UInt64
  gamma : UInt64
deriving DecidableEq, Repr

namespace Engine

/-- The odd number nearest to the word size divided by the golden ratio. -/
def golden : UInt64 := 0x9e3779b97f4a7c15

/-- Scramble a word: each step is a shift folded in or an odd product, and so
can be undone. -/
def mix (z : UInt64) : UInt64 :=
  let z := z + golden
  let z := (z ^^^ (z >>> 30)) * 0xbf58476d1ce4e5b9
  let z := (z ^^^ (z >>> 27)) * 0x94d049bb133111eb
  z ^^^ (z >>> 31)

/-- The step of a walk that starts at `z`. It is odd, so that the walk meets
every word. -/
def step (z : UInt64) : UInt64 :=
  ((mix z ||| 1) * golden) ||| 1

def ofSeed (seed : UInt64) : Engine :=
  { state := mix seed, gamma := step (mix seed) }

/-- One draw: the next word of the walk, scrambled, and the engine after it. -/
def next (e : Engine) : UInt64 × Engine :=
  let state := e.state + e.gamma
  (mix state, { e with state := state })

end Engine

end PropertyTesting
