/-
Doubles as bit patterns.

A finite double without its sign is a pattern below `infinity`, and the patterns are in the
order of the values they stand for.  Counted in units of `2 ^ -1074`, the smallest positive
double, every finite double is a whole number, `units pattern`; so reading and writing a
double is arithmetic on natural numbers, with no rounding anywhere but where it is asked for.

* **`units`** — the value of a pattern, strictly increasing in the pattern;
* **`nearest`** — the pattern nearest to a fraction, a tie going to the even pattern;
* **`ofDecimal`** — the pattern nearest to `m * 10 ^ e`, for every `m` and `e`.

`units infinity` is the first power of two that is no double; measuring against it makes the
largest finite double an ordinary one, and what is nearer to it than to any double below
rounds to infinity.
-/
namespace FormulaSheet.Number

namespace Power

/-- Powers of natural numbers, which are the same whatever else is imported. -/
scoped instance (priority := high) natPow : Pow Nat Nat := instPowNat

end Power

open Power

namespace Binary64

/-- The pattern of positive infinity, one above the largest finite pattern. -/
def infinity : Nat := 2047 * 2 ^ (52 : Nat)

/-- The pattern of a value that is no number. -/
def quietNaN : Nat := infinity + 2 ^ (51 : Nat)

/-- The value of a pattern, in units of `2 ^ -1074`.  Below the second exponent the unit of
the last place is one; above, it doubles with every exponent. -/
def units (pattern : Nat) : Nat :=
  let shift := pattern / 2 ^ (52 : Nat) - 1
  (pattern - shift * 2 ^ (52 : Nat)) * 2 ^ shift

/-- The whole number nearest to `num / den`, the even one of two equally near. -/
def roundHalfEven (num den : Nat) : Nat :=
  let quotient := num / den
  let remainder := num % den
  if 2 * remainder < den || (2 * remainder == den && quotient % 2 == 0) then quotient
  else quotient + 1

/-- The pattern nearest to `num / den`, the even one of two equally near; `infinity` from
half a unit in the last place above the largest finite double.

The last place is chosen so that the quotient has 53 bits, or is one unit for the smallest
doubles.  A quotient that rounds up to 54 bits carries into the exponent by itself. -/
def nearest (num den : Nat) : Nat :=
  let scaled := num * 2 ^ (1074 : Nat)
  -- `shift` is the place of the last bit that is kept.
  let shift := (scaled / den).log2 - 52
  min infinity (shift * 2 ^ (52 : Nat) + roundHalfEven scaled (den * 2 ^ shift))

/-- The pattern nearest to `m * 10 ^ e`.  A power far outside the range of doubles is decided
without being computed: `m` is below `2 ^ (m.log2 + 1)`. -/
def ofDecimal (m : Nat) (e : Int) : Nat :=
  if m = 0 then 0
  else if e > 400 then infinity
  else if e + m.log2 + 400 < 0 then 0
  else match e with
    | .ofNat k => nearest (m * 10 ^ k) 1
    | .negSucc k => nearest m (10 ^ (k + 1))

end Binary64

/-- The pattern of a double without its sign. -/
def magnitude (x : Float) : Nat :=
  x.toBits.toNat % 2 ^ (63 : Nat)

/-- Whether the sign bit of a double is set. -/
def isNegative (x : Float) : Bool :=
  2 ^ (63 : Nat) ≤ x.toBits.toNat

/-- The double with the given sign and pattern. -/
def ofMagnitude (negative : Bool) (pattern : Nat) : Float :=
  Float.ofBits (UInt64.ofNat (pattern + if negative then 2 ^ (63 : Nat) else 0))

end FormulaSheet.Number
