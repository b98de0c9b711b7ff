/-
Passing over JSON values.

A value that nobody wants is checked for its shape and dropped.  Nesting is not limited, numbers
may be of any size, and escapes need not denote characters.
-/
import SszRecord.Json.Scan

namespace SszRecord.Json

/-! ### Scalars -/

/-- Passes over the characters of a string and its closing quote; `fuel` bounds their number. -/
def skipChars : (fuel : Nat) → List Char → Except Fault (List Char)
  | fuel + 1, c :: rest =>
    if c = '"' then .ok rest
    else if c = '\\' then
      match rest with
      | [] => faultBefore .endInString []
      | 'u' :: rest => do
        let (_, rest) ← readFourDigits rest
        skipChars fuel rest
      | d :: rest =>
        if "\"\\/bfnrt".toList.contains d then skipChars fuel rest
        else faultBehind .invalidEscape (d :: rest)
    else if c.toNat < 32 then faultBefore .controlCharacter (c :: rest)
    else skipChars fuel rest
  | _, _ => faultBefore .endInString []

/-- Passes over a string behind its opening quote. -/
def skipString (cs : List Char) : Except Fault (List Char) := skipChars cs.length cs

/-- Passes over the exponent of a number behind its letter. -/
def skipExponent (cs : List Char) : Except Fault (List Char) :=
  let rest := match cs with
    | '+' :: rest => rest
    | '-' :: rest => rest
    | rest => rest
  if (leadDigit? rest).isSome then .ok (dropDigits rest).2 else faultBehind .invalidNumber rest

/-- Passes over what stands behind the integer part of a number. -/
def skipFraction (cs : List Char) : Except Fault (List Char) :=
  match cs with
  | '.' :: rest =>
    if (leadDigit? rest).isSome then skipEnd (dropDigits rest).2
    else faultBehind .invalidNumber rest
  | rest => skipEnd rest
where
  /-- Passes over an exponent, if there is one. -/
  skipEnd : List Char → Except Fault (List Char)
    | 'e' :: rest => skipExponent rest
    | 'E' :: rest => skipExponent rest
    | rest => .ok rest

/-- Passes over a number behind its sign. -/
def skipNumber (cs : List Char) : Except Fault (List Char) :=
  match leadDigit? cs with
  | none => faultBehind .invalidNumber cs
  | some 0 =>
    if (leadDigit? cs.tail).isSome then faultBehind .invalidNumber cs.tail
    else skipFraction cs.tail
  | some _ => skipFraction (dropDigits cs).2

/-! ### Arrays and objects -/

/-- A bracket that is open. -/
inductive Bracket where
  | array
  | object
deriving DecidableEq, Repr

def Bracket.close : Bracket → Char
  | .array => ']'
  | .object => '\x7d'

def Bracket.endCause : Bracket → Cause
  | .array => .endInList
  | .object => .endInObject

def Bracket.commaCause : Bracket → Cause
  | .array => .expectedCommaOrBracket
  | .object => .expectedCommaOrBrace

/-- What comes next while values are passed over. -/
inductive SkipState where
  | value
  /-- The key of a member, or the value of an item. -/
  | member
  /-- A comma or a closing bracket, or right behind an opening one the first member. -/
  | behind (isFirst : Bool)
deriving DecidableEq, Repr

/-- Passes over the key and the colon of a member. -/
def skipKey (cs : List Char) : Except Fault (List Char) :=
  match skipBlanks cs with
  | [] => faultBefore .endInObject []
  | '"' :: rest => do
    match skipBlanks (← skipString rest) with
    | [] => faultBefore .endInObject []
    | ':' :: rest => return rest
    | rest => faultBehind .expectedColon rest
  | rest => faultBehind .keyMustBeString rest

/-- Passes over the rest of a value inside brackets that are open, the innermost first; `fuel`
bounds the number of steps. -/
def skipOn : (fuel : Nat) → SkipState → List Bracket → List Char → Except Fault (List Char)
  | 0, _, _, _ => faultBefore .endInValue []
  | fuel + 1, .value, opened, cs =>
    match skipBlanks cs with
    | [] => faultBefore .endInValue []
    | c :: rest =>
      if c = '[' then skipOn fuel (.behind true) (.array :: opened) rest
      else if c = '\x7b' then skipOn fuel (.behind true) (.object :: opened) rest
      else do
        let rest ←
          if c = 'n' then readWord "ull".toList rest
          else if c = 't' then readWord "rue".toList rest
          else if c = 'f' then readWord "alse".toList rest
          else if c = '"' then skipString rest
          else if c = '-' then skipNumber rest
          else if (Text.digit? c).isSome then skipNumber (c :: rest)
          else faultBehind .expectedValue (c :: rest)
        skipOn fuel (.behind false) opened rest
  | fuel + 1, .member, opened, cs =>
    match opened with
    | .object :: _ => do skipOn fuel .value opened (← skipKey cs)
    | _ => skipOn fuel .value opened cs
  | _ + 1, .behind _, [], cs => .ok cs
  | fuel + 1, .behind isFirst, bracket :: outer, cs =>
    match skipBlanks cs with
    | [] => faultBefore bracket.endCause []
    | c :: rest =>
      if c = bracket.close then skipOn fuel (.behind false) outer rest
      else if isFirst then skipOn fuel .member (bracket :: outer) (c :: rest)
      else if c = ',' then skipOn fuel .member (bracket :: outer) rest
      else faultBehind bracket.commaCause (c :: rest)

/-- Passes over a value. -/
def skipValue (cs : List Char) : Except Fault (List Char) :=
  skipOn (3 * cs.length + 3) .value [] cs

end SszRecord.Json
