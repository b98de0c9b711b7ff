/-
What plain YAML scalars denote.

Where a sequence or a mapping belongs, a plain scalar is resolved: it may be a null, a boolean or a
negative integer beyond 64 bits, and all other ones count as strings.
-/
import SszRecord.Binary64
import SszRecord.Text.Digit

namespace SszRecord.Yaml

/-- The spellings of null. -/
def isNullText (text : String) : Bool := ["~", "null", "Null", "NULL"].contains text

/-- The boolean that a text spells. -/
def boolOfText? (text : String) : Option Bool :=
  if ["true", "True", "TRUE"].contains text then some true
  else if ["false", "False", "FALSE"].contains text then some false
  else none

/-! ### Integers -/

/-- The number that digits of a base denote; there has to be one at least. -/
def digitsIn? (base : Nat) (digits : List Char) : Option Nat :=
  if digits.isEmpty then none
  else
    digits.foldlM (fun n c => do
      let d ← Text.hexDigit? c
      if d < base then return n * base + d else none) 0

/-- The magnitude of an integer without its sign: digits in base sixteen, eight or two behind a
mark, or decimal digits, of which only a zero by itself begins with zero. -/
def magnitude? (cs : List Char) : Option Nat :=
  match cs with
  | '0' :: 'x' :: digits => digitsIn? 16 digits
  | '0' :: 'o' :: digits => digitsIn? 8 digits
  | '0' :: 'b' :: digits => digitsIn? 2 digits
  | ['0'] => some 0
  | '0' :: _ => none
  | digits => digitsIn? 10 digits

/-- The integer that a text denotes, if it is one of 128 bits. -/
def integer? (text : String) : Option Int :=
  match text.toList with
  | '-' :: cs => do
    let n ← magnitude? cs
    if n ≤ Nat.pow 2 127 then return -(n : Int) else none
  | '+' :: cs => natural cs
  | cs => natural cs
where
  /-- An integer without a minus sign. -/
  natural (cs : List Char) : Option Int := do
    let n ← magnitude? cs
    if n < Nat.pow 2 128 then return (n : Int) else none

/-- Whether an integer is below those of 64 bits. -/
def isBelowWords (n : Int) : Bool := n < -9223372036854775808

/-! ### Floating point numbers -/

/-- Whether `digits * 10 ^ exponent` is near a finite floating point number. -/
def isFinite (digits : List Char) (exponent : Int) : Bool :=
  let digits := digits.dropWhile (· = '0')
  let size : Int := digits.length + exponent
  if digits.isEmpty || size < 309 then true
  else if 309 < size then false
  else
    match digitsIn? 10 digits with
    | some n =>
      let (up, down) := Binary64.powerRatio 10 exponent
      (Binary64.ofRatio? (n * up) down).isSome
    | none => false

/-- The exponent at the end of a number: nothing, or a letter and an integer. -/
def exponent? (cs : List Char) : Option Int :=
  match cs with
  | [] => some 0
  | c :: rest =>
    if c ≠ 'e' && c ≠ 'E' then none
    else
      match rest with
      | '-' :: digits => (digitsIn? 10 digits).map fun n => -(n : Int)
      | '+' :: digits => (digitsIn? 10 digits).map fun n => (n : Int)
      | digits => (digitsIn? 10 digits).map fun n => (n : Int)

/-- Whether a text without sign denotes a finite floating point number. -/
def isFiniteText (cs : List Char) : Bool :=
  let whole := cs.takeWhile Char.isDigit
  let rest := cs.drop whole.length
  let (fraction, rest) := match rest with
    | '.' :: rest => (rest.takeWhile Char.isDigit, rest.dropWhile Char.isDigit)
    | rest => ([], rest)
  match exponent? rest with
  | some e => !(whole ++ fraction).isEmpty && isFinite (whole ++ fraction) (e - fraction.length)
  | none => false

/-- Whether a text denotes a floating point number. -/
def isFloatText (text : String) : Bool :=
  let infinities := [".inf", ".Inf", ".INF"].map String.toList
  if [".nan", ".NaN", ".NAN"].contains text then true
  else
    match text.toList with
    | '+' :: cs => infinities.contains cs || isFiniteText cs
    | '-' :: cs => infinities.contains cs || isFiniteText cs
    | cs => infinities.contains cs || isFiniteText cs

end SszRecord.Yaml
