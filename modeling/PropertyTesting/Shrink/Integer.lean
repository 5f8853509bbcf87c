/-!
Simpler integers. The candidates for a value lie between it and a destination,
the destination first; then the distance to the value is halved again and
again.
-/

namespace PropertyTesting.Shrink

/-- A number and its halves towards zero, as long as they are not zero. -/
def halvings (n : Int) : List Int :=
  if n = 0 then [] else n :: halvings (n.tdiv 2)
termination_by n.natAbs
decreasing_by
  rw [Int.natAbs_tdiv]
  exact Nat.div_lt_self (by omega) (by decide)

/-- The integers to try in place of `value`, from `destination` on. -/
def towards (destination value : Int) : List Int :=
  if destination = value then
    []
  else
    (destination :: (halvings (value.tdiv 2 - destination.tdiv 2)).map (value - ·)).eraseDups

/-- The number from `lo` to `hi` that is closest to zero. -/
def origin (lo hi : Int) : Int :=
  if 0 < lo then lo else if hi < 0 then hi else 0

/-- The candidates for a 64-bit integer. They lie between its destination and
itself, so none is cut short. -/
def long (destination value : Int64) : List Int64 :=
  (towards destination.toInt value.toInt).map Int64.ofInt

/-- Truth shrinks to falsehood. -/
def bool (b : Bool) : List Bool :=
  if b then [false] else []

end PropertyTesting.Shrink
