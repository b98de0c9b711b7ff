/-
The content of YAML scalars.

Plain and quoted scalars are words with gaps between them.  A gap of blanks stands for itself; a
gap with a single line break becomes a space, and one with more of them loses the first.  Block
scalars are lines at a common indentation.

Every function takes the input in front of what it reads and gives the content with the input
behind it, or nothing if the text is malformed.
-/
import SszRecord.Text.Digit
import SszRecord.Yaml.Input

namespace SszRecord.Yaml

/-! ### Gaps -/

/-- The blanks and line breaks between two words. -/
structure Gap where
  blanks : List Char := []
  firstBreak : List Char := []
  laterBreaks : List Char := []
  isBroken : Bool := false
deriving DecidableEq, Repr

namespace Gap

/-- The content that a gap stands for. -/
def text (g : Gap) : List Char :=
  if !g.isBroken then g.blanks
  else if g.firstBreak = ['\n'] then (if g.laterBreaks.isEmpty then [' '] else g.laterBreaks)
  else g.firstBreak ++ g.laterBreaks

/-- Reads on in a gap.  A tab behind a line break has to stand at `minColumn` at least; `fuel`
bounds the number of characters. -/
def read (minColumn : Nat) : (fuel : Nat) → Gap → Input → Option (Gap × Input)
  | fuel + 1, g, i =>
    match i.rest with
    | c :: _ =>
      if isBlank c then
        if !g.isBroken then read minColumn fuel { g with blanks := g.blanks ++ [c] } i.skip
        else if c = '\t' && i.mark.column < minColumn then none
        else read minColumn fuel g i.skip
      else if isBreak c then
        let (b, i) := i.takeBreak
        if g.isBroken then read minColumn fuel { g with laterBreaks := g.laterBreaks ++ b } i
        else read minColumn fuel ⟨[], b, [], true⟩ i
      else some (g, i)
    | [] => some (g, i)
  | 0, g, i => some (g, i)

end Gap

/-! ### Quoted scalars -/

/-- The character that a letter behind a backslash stands for. -/
def escapedChar? (c : Char) : Option Char :=
  match c with
  | '0' => some '\x00'
  | 'a' => some '\x07'
  | 'b' => some '\x08'
  | 't' => some '\t'
  | '\t' => some '\t'
  | 'n' => some '\n'
  | 'v' => some '\x0b'
  | 'f' => some '\x0c'
  | 'r' => some '\r'
  | 'e' => some '\x1b'
  | ' ' => some ' '
  | '"' => some '"'
  | '/' => some '/'
  | '\\' => some '\\'
  | 'N' => some '\u0085'
  | '_' => some '\u00a0'
  | 'L' => some '\u2028'
  | 'P' => some '\u2029'
  | _ => none

/-- The number of hexadecimal digits that a letter behind a backslash announces. -/
def escapeWidth? (c : Char) : Option Nat :=
  match c with
  | 'x' => some 2
  | 'u' => some 4
  | 'U' => some 8
  | _ => none

/-- The character of a code point. -/
def charOf? (n : Nat) : Option Char := if n.isValidChar then some (Char.ofNat n) else none

/-- Reads an escape sequence. -/
def readEscape (i : Input) : Option (Char × Input) :=
  match i.rest with
  | _ :: c :: rest =>
    match escapedChar? c, escapeWidth? c with
    | some d, _ => some (d, i.advance 2)
    | none, some width => do
      if rest.length < width then none
      let d ← charOf? (← Text.hexNumber? (rest.take width))
      return (d, i.advance (2 + width))
    | none, none => none
  | _ => none

/-- The quote around a scalar. -/
def quoteOf (isSingle : Bool) : Char := if isSingle then '\'' else '"'

/-- Reads a word of a quoted scalar; tells besides whether an escaped line break ended it. -/
def quotedWord (isSingle : Bool) : (fuel : Nat) → Input → Option (List Char × Input × Bool)
  | fuel + 1, i =>
    match i.rest with
    | c :: rest =>
      if isSpace c then some ([], i, false)
      else if isSingle && c = '\'' && rest.head? = some '\'' then do
        let (word, i, isBroken) ← quotedWord isSingle fuel (i.advance 2)
        return (c :: word, i, isBroken)
      else if c = quoteOf isSingle then some ([], i, false)
      else if !isSingle && c = '\\' then
        if rest.head?.any isBreak then some ([], i.skip.skipBreak, true)
        else do
          let (d, i) ← readEscape i
          let (word, i, isBroken) ← quotedWord isSingle fuel i
          return (d :: word, i, isBroken)
      else do
        let (word, i, isBroken) ← quotedWord isSingle fuel i.skip
        return (c :: word, i, isBroken)
    | [] => some ([], i, false)
  | 0, i => some ([], i, false)

/-- Reads words and gaps up to the closing quote; `fuel` bounds the number of words. -/
def quotedWords (isSingle : Bool) : (fuel : Nat) → Input → Option (List Char × Input)
  | 0, _ => none
  | fuel + 1, i =>
    if i.atDocumentIndicator || i.rest.isEmpty then none
    else do
      let (word, i, isBroken) ← quotedWord isSingle i.rest.length i
      if i.rest.head? = some (quoteOf isSingle) then return (word, i.skip)
      let (gap, i) ← Gap.read 0 i.rest.length ⟨[], [], [], isBroken⟩ i
      let (text, i) ← quotedWords isSingle fuel i
      return (word ++ gap.text ++ text, i)

/-- Reads a quoted scalar. -/
def readQuoted (isSingle : Bool) (i : Input) : Option (String × Input) := do
  let (text, i) ← quotedWords isSingle (i.rest.length + 1) i.skip
  return (String.ofList text, i)

/-! ### Plain scalars -/

/-- Characters that end a plain scalar inside brackets. -/
def isBracketChar (c : Char) : Bool := c = ',' || c = '[' || c = ']' || c = '\x7b' || c = '\x7d'

/-- Reads a word of a plain scalar.  A colon ends it if a space follows; inside brackets a comma
or bracket ends it too, and a colon must not stand in front of one or of a question mark. -/
def plainWord (inBrackets : Bool) : List Char → Option (List Char)
  | [] => some []
  | c :: rest =>
    if isSpace c then some []
    else if inBrackets && c = ':' && rest.head?.any (fun d => isBracketChar d || d = '?') then none
    else if (c = ':' && atSpace rest) || (inBrackets && isBracketChar c) then some []
    else (plainWord inBrackets rest).map (c :: ·)

/-- Reads words of a plain scalar, the first one behind the gap `gap`; tells besides whether the
scalar has run into another line.  Outside of brackets, lines that go on with the scalar begin at
`minColumn` at least; `fuel` bounds the number of words. -/
def plainWords (inBrackets : Bool) (minColumn : Nat) :
    (fuel : Nat) → Gap → Input → Option (List Char × Input × Bool)
  | 0, gap, i => some ([], i, gap.isBroken)
  | fuel + 1, gap, i =>
    if i.atDocumentIndicator || i.rest.head? = some '#' then some ([], i, gap.isBroken)
    else do
      let word ← plainWord inBrackets i.rest
      if word.isEmpty then return ([], i, gap.isBroken)
      let i := i.advance word.length
      let text := gap.text ++ word
      if !i.rest.head?.any isSpace then return (text, i, false)
      let (next, i) ← Gap.read minColumn i.rest.length {} i
      if !inBrackets && i.mark.column < minColumn then return (text, i, next.isBroken)
      let (more, i, isBroken) ← plainWords inBrackets minColumn fuel next i
      return (text ++ more, i, isBroken)

/-- Reads a plain scalar. -/
def readPlain (inBrackets : Bool) (minColumn : Nat) (i : Input) :
    Option (String × Input × Bool) := do
  let (text, i, isBroken) ← plainWords inBrackets minColumn (i.rest.length + 1) {} i
  return (String.ofList text, i, isBroken)

/-! ### Block scalars -/

/-- What becomes of the line breaks at the end of a block scalar. -/
inductive Chomping where
  | strip
  | clip
  | keep
deriving DecidableEq, Repr

/-- The mark that asks for stripping or keeping, if one is in front. -/
def takeChomping? (i : Input) : Option (Chomping × Input) :=
  match i.rest with
  | '+' :: _ => some (.keep, i.skip)
  | '-' :: _ => some (.strip, i.skip)
  | _ => none

/-- The digit that sets the indentation, or zero if there is none; a zero is refused. -/
def takeIncrement (i : Input) : Option (Nat × Input) :=
  match i.rest.head?.bind Text.digit? with
  | some 0 => none
  | some d => some (d, i.skip)
  | none => some (0, i)

/-- Reads the marks of a block scalar, in either order. -/
def blockMarks (i : Input) : Option (Chomping × Nat × Input) :=
  match takeChomping? i with
  | some (chomping, i) => do
    let (increment, i) ← takeIncrement i
    return (chomping, increment, i)
  | none => do
    let (increment, i) ← takeIncrement i
    let (chomping, i) := (takeChomping? i).getD (.clip, i)
    return (chomping, increment, i)

/-- Reads empty lines and the indentation of the line behind them; gives the line breaks and the
deepest column reached besides.  With the indentation still open, it is zero. -/
def blockBreaks (indent : Nat) : (fuel : Nat) → (deepest : Nat) → Input →
    Option (List Char × Nat × Input)
  | 0, deepest, i => some ([], deepest, i)
  | fuel + 1, deepest, i =>
    let spaces := (i.rest.takeWhile (· = ' ')).length
    let i := i.advance (if indent = 0 then spaces else min spaces (indent - i.mark.column))
    let deepest := max deepest i.mark.column
    match i.rest with
    | c :: _ =>
      if c = '\t' && (indent = 0 || i.mark.column < indent) then none
      else if isBreak c then do
        let (b, i) := i.takeBreak
        let (breaks, deepest, i) ← blockBreaks indent fuel deepest i
        return (b ++ breaks, deepest, i)
      else some ([], deepest, i)
    | [] => some ([], deepest, i)

/-- Reads the lines of a block scalar.  `lead` is the break behind the line before, `breaks` are
those of the empty lines since, and `wasBlank` says whether the line before began with a blank;
`fuel` bounds the number of lines.  Gives the breaks at the end apart from the content. -/
def blockLines (isFolded : Bool) (indent : Nat) : (fuel : Nat) → (lead breaks : List Char) →
    (wasBlank : Bool) → Input → Option (List Char × List Char × List Char × Input)
  | 0, lead, breaks, _, i => some ([], lead, breaks, i)
  | fuel + 1, lead, breaks, wasBlank, i =>
    if i.mark.column = indent && !i.rest.isEmpty then do
      let isBlankLine := i.rest.head?.any isBlank
      let joint :=
        if isFolded && lead = ['\n'] && !wasBlank && !isBlankLine then
          (if breaks.isEmpty then [' '] else [])
        else lead
      let line := i.rest.takeWhile fun c => !isBreak c
      let (b, i) := (i.advance line.length).takeBreak
      let (later, _, i) ← blockBreaks indent (i.rest.length + 1) 0 i
      let (text, lead, later, i) ← blockLines isFolded indent fuel b later isBlankLine i
      return (joint ++ breaks ++ line ++ text, lead, later, i)
    else some ([], lead, breaks, i)

/-- Reads a block scalar inside blocks whose indentation is `outer - 1`. -/
def readBlock (isFolded : Bool) (outer : Nat) (i : Input) : Option (String × Input) := do
  let (chomping, increment, i) ← blockMarks i.skip
  let i := i.skipComment
  if !atBreak i.rest then none
  let i := i.skipBreak
  let stated := if increment = 0 then 0 else (outer - 1) + increment
  let (breaks, deepest, i) ← blockBreaks stated (i.rest.length + 1) 0 i
  let indent := if stated = 0 then max (max deepest outer) 1 else stated
  let (text, lead, later, i) ← blockLines isFolded indent (i.rest.length + 1) [] breaks false i
  let ending := match chomping with
    | .strip => []
    | .clip => lead
    | .keep => lead ++ later
  return (String.ofList (text ++ ending), i)

end SszRecord.Yaml
