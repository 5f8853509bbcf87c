import PropertyTesting.Random.Source

/-!
Draws from a range. A raw word is scaled down to the range by a widening
product: the upper part of the product is the draw. Words whose lower part
lies above the zone would favour some values and are drawn again. The zone is
never empty, and a word of zero is always inside it, so one period of the
engine is more than enough attempts.
-/

namespace PropertyTesting

/-- How raw words are scaled down to a range. -/
inductive Scale where
  /-- Whole words, as for 64-bit integers and lengths. -/
  | wide
  /-- Upper halves of words, as for 32-bit integers. -/
  | half
  /-- Upper halves with the largest possible zone, as for single bytes. -/
  | byte
deriving DecidableEq, Repr

namespace Scale

def bits : Scale → Nat
  | wide => 64
  | half => 32
  | byte => 32

def words (s : Scale) : Nat :=
  1 <<< s.bits

/-- The largest lower part that a range of `n` values accepts. -/
def zone (s : Scale) (n : Nat) : Nat :=
  match s with
  | byte => s.words - 1 - (s.words - n) % n
  | _ => (n <<< (s.bits - (n.log2 + 1))) - 1

def raw : (s : Scale) → Draw (Fin s.words)
  | wide => do
    let w ← Draw.word
    return ⟨w.toNat, w.toNat_lt⟩
  | half | byte => do
    let w ← Draw.halfWord
    return ⟨w.toNat, w.toNat_lt⟩

theorem scaled_lt (s : Scale) {n : Nat} (v : Fin s.words) (h : 0 < n) :
    v * n / s.words < n :=
  Nat.div_lt_of_lt_mul ((Nat.mul_lt_mul_right h).2 v.isLt)

/-- The value that a raw draw stands for, unless it lies outside the zone. -/
def scale? (s : Scale) {n : Nat} (h : 0 < n) (v : Fin s.words) : Option (Fin n) :=
  if v * n % s.words ≤ s.zone n then
    some ⟨v * n / s.words, s.scaled_lt v h⟩
  else
    none

end Scale

namespace Draw

/-- Draw raw words until one is accepted, at most a given number of times. -/
def retry (s : Scale) {n : Nat} (h : 0 < n) : Nat → Draw (Fin n)
  | 0 => return ⟨0, h⟩
  | attempts + 1 => do
    let v ← s.raw
    match s.scale? h v with
    | some k => return k
    | none => retry s h attempts

/-- The number of draws after which an engine has shown every word. -/
def period : Nat :=
  1 <<< 64

/-- A number below `n`. At least one word is drawn, even if `n` is one. -/
def below (s : Scale) {n : Nat} (h : 0 < n) : Draw (Fin n) :=
  retry s h period

/-- A natural number from `lo` to `hi`, both included. -/
def between (lo hi : Nat) : Draw Nat := do
  let k ← below .wide (Nat.succ_pos (hi - lo))
  return lo + k

theorem width_pos {lo hi : Int} (h : lo ≤ hi) : 0 < (hi - lo + 1).toNat := by
  omega

/-- The place in a range that starts at `lo` which a number below the width of
the range stands for. In a range as wide as all raw draws it is the place of
the integer that the raw draw is congruent to, and else it is counted from the
start. -/
def place (s : Scale) (lo : Int) (width k : Nat) : Int :=
  if width = s.words then (k - lo) % width else k

/-- An integer from `lo` to `hi`, both included. -/
def integer (s : Scale) {lo hi : Int} (h : lo ≤ hi) : Draw Int := do
  let k ← below s (width_pos h)
  return lo + place s lo (hi - lo + 1).toNat k

end Draw

end PropertyTesting
