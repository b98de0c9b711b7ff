/-
Reading the parts of a JSON text: words, strings and numbers.

A step of reading takes the text that is left and gives what it read and what is left then.  A
fault lies either before the text that is left or behind the first byte of it; at the end of the
text the two are the same.
-/
import SszRecord.Json
import SszRecord.Json.Fault
import SszRecord.Text.Digit

namespace SszRecord.Json

/-- The number of bytes of a text. -/
def byteCount : List Char → Nat
  | [] => 0
  | c :: cs => c.utf8Size + byteCount cs

/-- A fault before a text. -/
def faultBefore {α : Type} (cause : Cause) (cs : List Char) : Except Fault α :=
  .error ⟨cause, byteCount cs⟩

/-- A fault behind the first byte of a text. -/
def faultBehind {α : Type} (cause : Cause) (cs : List Char) : Except Fault α :=
  .error ⟨cause, byteCount cs - 1⟩

def isBlank (c : Char) : Bool := c = ' ' || c = '\n' || c = '\t' || c = '\r'

def skipBlanks (cs : List Char) : List Char := cs.dropWhile isBlank

/-- Reads the rest of a word. -/
def readWord : (word : List Char) → List Char → Except Fault (List Char)
  | [], cs => .ok cs
  | _ :: _, [] => faultBefore .endInValue []
  | w :: word, c :: cs =>
    if c = w then readWord word cs else faultBehind .expectedIdent (c :: cs)

/-! ### Strings -/

/-- Reads four hexadecimal digits. -/
def readFourDigits (cs : List Char) : Except Fault (Nat × List Char) :=
  match cs with
  | a :: b :: c :: d :: rest =>
    match Text.hexNumber? [a, b, c, d] with
    | some n => .ok (n, rest)
    | none => notDigits cs
  | _ => notDigits cs
where
  /-- Four bytes are taken before they are looked at. -/
  notDigits (cs : List Char) : Except Fault (Nat × List Char) :=
    if byteCount cs < 4 then faultBefore .endInString []
    else .error ⟨.invalidEscape, byteCount cs - 4⟩

def isLeadingSurrogate (n : Nat) : Bool := 55296 ≤ n && n ≤ 56319

def isTrailingSurrogate (n : Nat) : Bool := 56320 ≤ n && n ≤ 57343

/-- The character of a pair of surrogates. -/
def joinSurrogates (leading trailing : Nat) : Char :=
  Char.ofNat ((leading - 55296) * 1024 + (trailing - 56320) + 65536)

/-- Reads the digits of a character, and the second half of it if they give only one half. -/
def readCodePoint (cs : List Char) : Except Fault (Char × List Char) := do
  let (n, rest) ← readFourDigits cs
  if isTrailingSurrogate n then faultBefore .loneSurrogate rest
  else if isLeadingSurrogate n then
    match rest with
    | '\\' :: 'u' :: rest => do
      let (m, rest) ← readFourDigits rest
      if isTrailingSurrogate m then return (joinSurrogates n m, rest)
      else faultBefore .loneSurrogate rest
    | [] => faultBefore .endInString []
    | ['\\'] => faultBefore .endInString []
    | '\\' :: rest => faultBehind .endInHexEscape rest
    | rest => faultBehind .endInHexEscape rest
  else return (Char.ofNat n, rest)

/-- Reads what stands behind a backslash. -/
def readEscape : List Char → Except Fault (Char × List Char)
  | [] => faultBefore .endInString []
  | '"' :: rest => .ok ('"', rest)
  | '\\' :: rest => .ok ('\\', rest)
  | '/' :: rest => .ok ('/', rest)
  | 'b' :: rest => .ok ('\x08', rest)
  | 'f' :: rest => .ok ('\x0c', rest)
  | 'n' :: rest => .ok ('\n', rest)
  | 'r' :: rest => .ok ('\r', rest)
  | 't' :: rest => .ok ('\t', rest)
  | 'u' :: rest => readCodePoint rest
  | cs => faultBehind .invalidEscape cs

/-- Reads the characters of a string up to its closing quote; `fuel` bounds their number. -/
def readChars : (fuel : Nat) → List Char → Except Fault (List Char × List Char)
  | fuel + 1, c :: rest =>
    if c = '"' then .ok ([], rest)
    else if c = '\\' then do
      let (d, rest) ← readEscape rest
      let (ds, rest) ← readChars fuel rest
      return (d :: ds, rest)
    else if c.toNat < 32 then faultBefore .controlCharacter rest
    else do
      let (cs, rest) ← readChars fuel rest
      return (c :: cs, rest)
  | _, _ => faultBefore .endInString []

/-- Reads a string behind its opening quote. -/
def readString (cs : List Char) : Except Fault (String × List Char) := do
  let (chars, rest) ← readChars cs.length cs
  return (String.ofList chars, rest)

/-! ### Numbers -/

/-- The digit at the front of a text. -/
def leadDigit? : List Char → Option Nat
  | c :: _ => Text.digit? c
  | [] => none

/-- Takes digits into a number as long as it stays at most `bound`; gives the number, how many
digits were taken and the text behind them. -/
def takeDigits (bound : Nat) : (n : Nat) → List Char → Nat × Nat × List Char
  | n, [] => (n, 0, [])
  | n, c :: rest =>
    match Text.digit? c with
    | some d =>
      if bound < n * 10 + d then (n, 0, c :: rest)
      else
        let (m, count, rest) := takeDigits bound (n * 10 + d) rest
        (m, count + 1, rest)
    | none => (n, 0, c :: rest)

/-- Drops digits and counts them. -/
def dropDigits : List Char → Nat × List Char
  | [] => (0, [])
  | c :: rest =>
    if (Text.digit? c).isSome then
      let (count, rest) := dropDigits rest
      (count + 1, rest)
    else (0, c :: rest)

/-- The greatest number of 64 bits. -/
def maxWord : Nat := 18446744073709551615

/-- A number times a power of ten that is tabulated, up to `10 ^ 308` either way; none if it is
too large. -/
def scaleOnce (x : Binary64) (exponent : Int) : Option Binary64 :=
  if 0 ≤ exponent then x.mul? (Binary64.powerOfTen exponent.natAbs)
  else some (x.div (Binary64.powerOfTen exponent.natAbs))

/-- A number times a power of ten; none if it is too large.  Exponents out of the table are
reached by dividing by `10 ^ 308`, `fuel` times at most: a few divisions make zero of a number of
64 bits. -/
def scaleByTen : (fuel : Nat) → Binary64 → (exponent : Int) → Option Binary64
  | 0, x, exponent => scaleOnce x exponent
  | fuel + 1, x, exponent =>
    if exponent.natAbs ≤ 308 then scaleOnce x exponent
    else if x = Binary64.zero then some x
    else if 0 ≤ exponent then none
    else scaleByTen fuel (x.div (Binary64.powerOfTen 308)) (exponent + 308)

/-- The floating point number `n * 10 ^ exponent`. -/
def floatOfParts (isNegative : Bool) (n : Nat) (exponent : Int) (cs : List Char) :
    Except Fault (Number × List Char) :=
  match scaleByTen 4 (Binary64.ofNat n) exponent with
  | some x => .ok (.float isNegative x, cs)
  | none => faultBefore .numberOutOfRange cs

/-- The greatest exponent that is read. -/
def maxExponent : Nat := 2147483647

/-- Reads the exponent of `n * 10 ^ exponent` behind its letter. -/
def readExponent (isNegative : Bool) (n : Nat) (exponent : Int) (cs : List Char) :
    Except Fault (Number × List Char) :=
  match cs with
  | '+' :: rest => digits false rest
  | '-' :: rest => digits true rest
  | rest => digits false rest
where
  /-- Reads the digits of an exponent. -/
  digits (down : Bool) (cs : List Char) : Except Fault (Number × List Char) :=
    match cs, leadDigit? cs with
    | [], _ => faultBefore .endInValue []
    | cs, none => faultBehind .invalidNumber cs
    | _ :: rest, some d =>
      let (e, _, rest) := takeDigits maxExponent d rest
      match rest, leadDigit? rest with
      | _ :: behind, some _ =>
        if n ≠ 0 && !down then faultBefore .numberOutOfRange behind
        else .ok (.float isNegative Binary64.zero, (dropDigits behind).2)
      | rest, _ => floatOfParts isNegative n (if down then exponent - e else exponent + e) rest

/-- Finishes a floating point number: an exponent may follow. -/
def endFloat (isNegative : Bool) (n : Nat) (exponent : Int) (cs : List Char) :
    Except Fault (Number × List Char) :=
  match cs with
  | 'e' :: rest => readExponent isNegative n exponent rest
  | 'E' :: rest => readExponent isNegative n exponent rest
  | rest => floatOfParts isNegative n exponent rest

/-- Reads the fraction behind the point of a number whose digits so far are `n`. -/
def readFraction (isNegative : Bool) (n : Nat) (exponent : Int) (cs : List Char) :
    Except Fault (Number × List Char) :=
  let (n, count, rest) := takeDigits maxWord n cs
  if (leadDigit? rest).isSome then endFloat isNegative n (exponent - count) (dropDigits rest).2
  else if count = 0 then
    match rest with
    | [] => faultBefore .endInValue []
    | rest => faultBehind .invalidNumber rest
  else endFloat isNegative n (exponent - count) rest

/-- The integer `n` or `-n`, or the floating point number nearest to it. -/
def Number.ofInteger (isNegative : Bool) (n : Nat) : Number :=
  if !isNegative then .natural n
  else if 0 < n ∧ n ≤ 9223372036854775808 then .negative n
  else .float true (Binary64.ofNat n)

/-- Reads what stands behind the integer part of a number. -/
def endInteger (isNegative : Bool) (n : Nat) (cs : List Char) : Except Fault (Number × List Char) :=
  match cs with
  | '.' :: rest => readFraction isNegative n 0 rest
  | 'e' :: rest => readExponent isNegative n 0 rest
  | 'E' :: rest => readExponent isNegative n 0 rest
  | rest => .ok (Number.ofInteger isNegative n, rest)

/-- Reads a number behind its sign. -/
def readNumber (isNegative : Bool) (cs : List Char) : Except Fault (Number × List Char) :=
  match cs, leadDigit? cs with
  | [], _ => faultBefore .endInValue []
  | cs, none => faultBehind .invalidNumber cs
  | _ :: rest, some 0 =>
    if (leadDigit? rest).isSome then faultBehind .invalidNumber rest
    else endInteger isNegative 0 rest
  | _ :: rest, some d =>
    let (n, _, rest) := takeDigits maxWord d rest
    if (leadDigit? rest).isSome then
      let (count, rest) := dropDigits rest
      match rest with
      | '.' :: rest => readFraction isNegative n count rest
      | rest => endFloat isNegative n count rest
    else endInteger isNegative n rest

end SszRecord.Json
