import Splice.Number.Double
import Splice.Text.Basic

/-!
# The shortest decimal that reads back

A number is written with the fewest digits that `Double.ofDecimal` reads back as that number, and
among those with the digits nearest to its value.

* `Double.shortest` — the digits and their power of ten;
* `Double.Style` — the choices that the digits leave open; and
* `Double.write` — the text in a style.
-/

namespace Splice.Double

/-- A decimal `digits · 10 ^ exponent`. -/
structure Decimal where
  /-- The digits, as one number. -/
  digits : Nat
  /-- The power of ten. -/
  exponent : Int
deriving DecidableEq, Repr

/-- The power of ten of the leading digit, plus one: `10 ^ (p - 1) ≤ m · 2 ^ e < 10 ^ p`. No number
but zero is as small as `10 ^ -350`. -/
def decimalPoint (m : Nat) (e : Int) : Int :=
  let (num, den) := magnitude m e
  ((Nat.toDigits 10 (num * Nat.pow 10 350 / den)).length : Int) - 350

/-- The quotient of `m · 2 ^ e` by `10 ^ unit`, as a pair of naturals. -/
def overUnit (m : Nat) (e unit : Int) : Nat × Nat :=
  let (num, den) := magnitude m e
  match unit with
  | .ofNat k => (num, den * Nat.pow 10 k)
  | .negSucc k => (num * Nat.pow 10 (k + 1), den)

/-- The decimal of `count` digits that reads back as `m · 2 ^ e`, if there is one. The grid of
`count` digits has one point on either side of the value, and the nearer one is preferred. -/
def onGrid? (m : Nat) (e : Int) (count : Nat) : Option Decimal :=
  let unit := decimalPoint m e - count
  let (num, den) := overUnit m e unit
  let low := num / den
  let order := if roundQuotient num den = low then [low, low + 1] else [low + 1, low]
  (order.find? fun digits => ofDecimal false digits unit == .finite false m e).map (⟨·, unit⟩)

/-- The shortest decimal for `m · 2 ^ e`. Seventeen digits always suffice. -/
def shortest (m : Nat) (e : Int) : Decimal :=
  match (List.range 17).findSome? fun k => onGrid? m e (k + 1) with
  | some decimal => decimal
  | none => ⟨0, 0⟩

/-- What a written form lays down beyond the digits. -/
structure Style where
  /-- The text of no number. -/
  nan : Text
  /-- The text of the infinite numbers, after a minus sign if negative. -/
  infinity : Text
  /-- The least power of ten of a leading digit written without an exponent. -/
  leastPositional : Int
  /-- The greatest power of ten of a leading digit written without an exponent. -/
  greatestPositional : Int

/-- Digits in positional notation with the point after `point` digits. A number without fraction
keeps one zero behind the point. -/
def positional (digits : Text) (point : Int) : Text :=
  if point ≤ 0 then "0." ++ List.replicate (-point).toNat '0' ++ digits
  else
    let count := point.toNat
    if digits.length ≤ count then digits ++ List.replicate (count - digits.length) '0' ++ ".0"
    else digits.take count ++ '.' :: digits.drop count

/-- Digits with an exponent, which has a sign and at least two digits. -/
def scientific (digits : Text) (exponent : Int) : Text :=
  let power := Text.ofNat exponent.natAbs
  digits.take 1 ++ (if digits.length ≤ 1 then [] else '.' :: digits.drop 1)
    ++ 'e' :: (if exponent < 0 then '-' else '+')
    :: List.replicate (2 - power.length) '0' ++ power

/-- The text of a number in a style. -/
def write (style : Style) : Double → Text
  | .nan => style.nan
  | .infinite negative => (if negative then ['-'] else []) ++ style.infinity
  | .finite negative m e =>
      let sign : Text := if negative then ['-'] else []
      if m = 0 then sign ++ "0.0"
      else
        let decimal := shortest m e
        let digits := Text.ofNat decimal.digits
        let exponent := decimal.exponent + digits.length - 1
        -- The exponent counts the zeros at the end, which are not written.
        let digits := (digits.reverse.dropWhile (· = '0')).reverse
        if style.leastPositional ≤ exponent ∧ exponent ≤ style.greatestPositional then
          sign ++ positional digits (exponent + 1)
        else sign ++ scientific digits exponent

end Splice.Double
