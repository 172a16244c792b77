/-!
# Double-precision numbers

Binary floating-point numbers with 53 significant bits, as exact data: a finite number is a sign, a
significand and a power of two, and arithmetic rounds an exact quotient of naturals once, to the
nearest number and to the even one of two.

* `Double.ofRatio` — the number nearest to a quotient, the only place where rounding happens;
* `Double.ofDecimal` — the number that a decimal numeral stands for;
* `Double.toInt?` — the value of a number without fraction; and
* `Double.add`, `Double.mul` — the correctly rounded operations.
-/

namespace Splice

/-- A double-precision number. A finite one is `± m · 2 ^ e`, where `m < 2 ^ 53` and `e` is the
least exponent `-1074` unless `2 ^ 52 ≤ m`; so each value but zero has one form. -/
inductive Double where
  /-- No number. -/
  | nan
  /-- Beyond the greatest finite number, on either side. -/
  | infinite (negative : Bool)
  /-- The number `± m · 2 ^ e`. -/
  | finite (negative : Bool) (m : Nat) (e : Int)
deriving DecidableEq, Repr

namespace Double

/-- The least exponent of a finite number. -/
def leastExponent : Int := -1074

/-- The greatest exponent of a finite number. -/
def greatestExponent : Int := 971

/-- Zero with a sign. -/
def zero (negative : Bool) : Double := .finite negative 0 leastExponent

/-- The natural number nearest to `num / den`, and the even one of two equally near. -/
def roundQuotient (num den : Nat) : Nat :=
  let q := num / den
  let r := num % den
  if 2 * r < den then q
  else if den < 2 * r then q + 1
  else if q % 2 = 0 then q else q + 1

/-- The quotient `num / den` divided by `2 ^ e`, as a pair of naturals. -/
def scale (num den : Nat) (e : Int) : Nat × Nat :=
  match e with
  | .ofNat k => (num, den * Nat.pow 2 k)
  | .negSucc k => (num * Nat.pow 2 (k + 1), den)

/-- The number nearest to `± num / den`. The denominator is not zero. -/
def ofRatio (negative : Bool) (num den : Nat) : Double :=
  if num = 0 then zero negative
  else
    -- The exponent at which the quotient has 53 binary places, or one less.
    let guess : Int := (num.log2 : Int) - (den.log2 : Int) - 52
    let (n, d) := scale num den guess
    let e := max leastExponent (if n < d * Nat.pow 2 52 then guess - 1 else guess)
    let (n, d) := scale num den e
    let m := roundQuotient n d
    -- Rounding up may reach the next power of two.
    let (m, e) := if m = Nat.pow 2 53 then (Nat.pow 2 52, e + 1) else (m, e)
    if greatestExponent < e then .infinite negative else .finite negative m e

/-- The number nearest to an integer. -/
def ofInt (n : Int) : Double := ofRatio (decide (n < 0)) n.natAbs 1

/-- The number nearest to `± digits · 10 ^ exponent`. Numerals far outside the range are decided by
their number of digits, so that no huge power of ten is formed. -/
def ofDecimal (negative : Bool) (digits : Nat) (exponent : Int) : Double :=
  if digits = 0 then zero negative
  else
    let places : Int := (Nat.toDigits 10 digits).length + exponent
    if 400 < places then .infinite negative
    else if places < -400 then zero negative
    else match exponent with
      | .ofNat k => ofRatio negative (digits * Nat.pow 10 k) 1
      | .negSucc k => ofRatio negative digits (Nat.pow 10 (k + 1))

/-- The magnitude `m · 2 ^ e` as a quotient of naturals. -/
def magnitude (m : Nat) (e : Int) : Nat × Nat :=
  match e with
  | .ofNat k => (m * Nat.pow 2 k, 1)
  | .negSucc k => (m, Nat.pow 2 (k + 1))

/-- The value of a finite number without fraction. -/
def toInt? : Double → Option Int
  | .finite negative m e =>
      let (num, den) := magnitude m e
      if num % den = 0 then
        some (if negative then -(num / den : Nat) else (num / den : Nat))
      else none
  | _ => none

/-- Is the number zero, of either sign? -/
def isZero : Double → Bool
  | .finite _ m _ => m == 0
  | _ => false

/-- The number with the other sign. -/
def neg : Double → Double
  | .nan => .nan
  | .infinite negative => .infinite !negative
  | .finite negative m e => .finite (!negative) m e

/-- The rounded sum. -/
def add : Double → Double → Double
  | .nan, _ | _, .nan => .nan
  | .infinite s, .infinite t => if s = t then .infinite s else .nan
  | .infinite s, _ | _, .infinite s => .infinite s
  | .finite s m e, .finite t n f =>
      let low := min e f
      let a : Int := (m * Nat.pow 2 (e - low).toNat : Nat)
      let b : Int := (n * Nat.pow 2 (f - low).toNat : Nat)
      let sum := (if s then -a else a) + (if t then -b else b)
      if sum = 0 then zero (s && t)
      else
        let (num, den) := magnitude sum.natAbs low
        ofRatio (decide (sum < 0)) num den

/-- The rounded product. -/
def mul : Double → Double → Double
  | .nan, _ | _, .nan => .nan
  | .infinite s, .infinite t => .infinite (s != t)
  | .infinite s, .finite t m _ | .finite s m _, .infinite t =>
      if m = 0 then .nan else .infinite (s != t)
  | .finite s m e, .finite t n f =>
      let (num, den) := magnitude (m * n) (e + f)
      ofRatio (s != t) num den

end Double

end Splice
