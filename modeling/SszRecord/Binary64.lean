/-
Binary floating point numbers of 64 bits, the finite and unsigned ones.

A number is a mantissa of at most 53 bits times a power of two.  Everything is exact arithmetic on
natural numbers: a ratio is rounded to the nearest number, a tie to the even mantissa, and
products and quotients are rounded ratios.  The text of a number has the fewest decimal digits
that read back as it.
-/

namespace SszRecord

/-- The number `mantissa * 2 ^ exponent`. -/
structure Binary64 where
  mantissa : Nat
  exponent : Int
deriving DecidableEq, Repr

namespace Binary64

/-- The least exponent; a number with a mantissa of fewer than 53 bits has it. -/
def leastExponent : Int := -1074

/-- The greatest exponent of a finite number. -/
def greatestExponent : Int := 971

/-- The bound of the mantissas. -/
def mantissaBound : Nat := 9007199254740992

def zero : Binary64 := ⟨0, leastExponent⟩

/-- Numerator and denominator of `base ^ exponent`. -/
def powerRatio (base : Nat) (exponent : Int) : Nat × Nat :=
  (base.pow exponent.toNat, base.pow (-exponent).toNat)

/-- The quotient rounded to the nearest natural number, a tie to the even one. -/
def roundHalfEven (num den : Nat) : Nat :=
  let q := num / den
  let twice := 2 * (num % den)
  if twice < den then q else if den < twice then q + 1 else q + q % 2

/-- The exponent of the leading bit of a positive ratio. -/
def leadingBit (num den : Nat) : Int :=
  let guess : Int := (num.log2 : Int) - (den.log2 : Int)
  let (up, down) := powerRatio 2 guess
  if num * down < den * up then guess - 1 else guess

/-- The nearest number to a ratio; none if it lies beyond the finite ones. -/
def ofRatio? (num den : Nat) : Option Binary64 :=
  if num = 0 then some zero
  else
    let exponent := max (leadingBit num den - 52) leastExponent
    let (up, down) := powerRatio 2 exponent
    let mantissa := roundHalfEven (num * down) (den * up)
    let rounded : Binary64 :=
      if mantissa = mantissaBound then ⟨mantissaBound / 2, exponent + 1⟩ else ⟨mantissa, exponent⟩
    if greatestExponent < rounded.exponent then none else some rounded

/-- Numerator and denominator of a number. -/
def ratio (x : Binary64) : Nat × Nat :=
  let (up, down) := powerRatio 2 x.exponent
  (x.mantissa * up, down)

/-- The nearest number to a natural number of 64 bits. -/
def ofNat (n : Nat) : Binary64 := (ofRatio? n 1).getD zero

/-- The nearest number to a power of ten up to `10 ^ 308`. -/
def powerOfTen (n : Nat) : Binary64 := (ofRatio? (Nat.pow 10 n) 1).getD zero

/-- The rounded product; none if it is too large. -/
def mul? (x y : Binary64) : Option Binary64 :=
  let (a, b) := x.ratio
  let (c, d) := y.ratio
  ofRatio? (a * c) (b * d)

/-- The rounded quotient by a number that is at least one. -/
def div (x y : Binary64) : Binary64 :=
  let (a, b) := x.ratio
  let (c, d) := y.ratio
  (ofRatio? (a * d) (b * c)).getD zero

/-! ### Decimal text -/

/-- The decimal exponent of the leading digit of a positive ratio. -/
def leadingDigit (num den : Nat) : Int :=
  let guess : Int := ((leadingBit num den) * 30103) / 100000
  let (up, down) := powerRatio 10 (guess + 1)
  if den * up ≤ num * down then guess + 1
  else
    let (up, down) := powerRatio 10 guess
    if den * up ≤ num * down then guess else guess - 1

/-- Whether the decimal number `digits * 10 ^ scale` reads back as the number. -/
def readsBack (x : Binary64) (digits : Nat) (scale : Int) : Bool :=
  let (up, down) := powerRatio 10 scale
  ofRatio? (digits * up) down == some x

/-- The two decimal numbers of the given scale next to a number, the nearer one first; of two at
the same distance the even one comes first. -/
def neighbours (x : Binary64) (scale : Int) : Nat × Nat :=
  let (num, den) := x.ratio
  let (up, down) := powerRatio 10 scale
  let below := num * down / (den * up)
  let nearest := roundHalfEven (num * down) (den * up)
  (nearest, if nearest = below then below + 1 else below)

/-- The digits, as one number, of the shortest decimal text of a positive number whose leading
digit is at `lead`, and their scale; `count` digits are tried first and `fuel` more after them. -/
def shortestFrom (x : Binary64) (lead : Int) : (fuel count : Nat) → Nat × Int
  | fuel, count =>
    let scale := lead - count + 1
    let (nearer, farther) := x.neighbours scale
    if x.readsBack nearer scale then (nearer, scale)
    else if x.readsBack farther scale then (farther, scale)
    else
      match fuel with
      | 0 => (nearer, scale)
      | fuel + 1 => shortestFrom x lead fuel (count + 1)

/-- Digits without the zeros at their end; `fuel` bounds how many are dropped. -/
def trimZeros : (fuel : Nat) → Nat × Int → Nat × Int
  | 0, d => d
  | fuel + 1, (digits, scale) =>
    if digits ≠ 0 ∧ digits % 10 = 0 then trimZeros fuel (digits / 10, scale + 1)
    else (digits, scale)

/-- The fewest digits that read back as a positive number, and their scale. -/
def shortest (x : Binary64) : Nat × Int :=
  let (num, den) := x.ratio
  trimZeros 20 (shortestFrom x (leadingDigit num den) 16 1)

/-- The text of an exponent: a sign and two digits at least. -/
def exponentText (e : Int) : String :=
  let digits := toString e.natAbs
  (if e < 0 then "e-" else "e+") ++ (if digits.length < 2 then "0" ++ digits else digits)

/-- The text of a number.  Decimal exponents from -5 to 15 are written positionally, with at least
one digit behind the point; other numbers have one digit before the point and an exponent. -/
def toText (x : Binary64) : String :=
  if x.mantissa = 0 then "0.0"
  else
    let (digits, scale) := x.shortest
    let text := (toString digits).toList
    let lead : Int := scale + (text.length : Int) - 1
    if lead < -5 ∨ 15 < lead then
      match text with
      | [d] => String.ofList [d] ++ exponentText lead
      | d :: rest => String.ofList (d :: '.' :: rest) ++ exponentText lead
      | [] => ""
    else if lead < 0 then
      "0." ++ String.ofList (List.replicate (-lead - 1).toNat '0' ++ text)
    else
      let whole := (lead + 1).toNat
      if text.length ≤ whole then
        String.ofList (text ++ List.replicate (whole - text.length) '0') ++ ".0"
      else String.ofList (text.take whole ++ '.' :: text.drop whole)

end Binary64

end SszRecord
