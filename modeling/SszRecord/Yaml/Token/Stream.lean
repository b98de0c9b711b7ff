/-
The tokens of a YAML text.

A colon may show that a key has begun some tokens before it.  So where a key may begin, a
candidate is kept, and no token behind that place is handed out until the candidate is either
confirmed by a colon or dropped: at the end of its line, or 1024 characters on.  When a colon
confirms it, the tokens that open the mapping and the key are inserted at its place.

A text that is malformed somewhere has the tokens in front of that place and no more.  A text that
is not has `streamEnd` as its last token.
-/
import SszRecord.Yaml.Token.Scalar
import SszRecord.Yaml.Token.Tag

namespace SszRecord.Yaml

/-- A place where a key may have begun. -/
structure Candidate where
  /-- In a block, what begins at its column has to be a key. -/
  isRequired : Bool
  /-- The number of the token that begins here. -/
  number : Nat
  mark : Mark
deriving DecidableEq, Repr

/-- The state of reading tokens. -/
structure TokenReader where
  input : Input
  /-- The text goes on behind the input, but cannot be read there. -/
  isCut : Bool := false
  /-- Tokens read and not handed out yet. -/
  queue : List Token := []
  /-- The number of tokens handed out. -/
  taken : Nat := 0
  /-- The columns of the open blocks, the innermost first. -/
  blocks : List Nat := []
  /-- Whether a key may begin here. -/
  keyAllowed : Bool := true
  /-- The candidate of the innermost bracket, or of the blocks outside of all brackets. -/
  candidate : Option Candidate := none
  /-- The candidates of the brackets and blocks around that. -/
  outer : List (Option Candidate) := []

namespace TokenReader

def inBrackets (s : TokenReader) : Bool := !s.outer.isEmpty

/-- The least column of lines that go on with the innermost block. -/
def margin (s : TokenReader) : Nat :=
  match s.blocks with
  | [] => 0
  | column :: _ => column + 1

/-- The reader with a token more, which begins at `mark`. -/
def push (kind : Token.Kind) (mark : Mark) (s : TokenReader) : TokenReader :=
  { s with queue := s.queue ++ [⟨kind, mark⟩] }

/-- The reader with a token inserted in front of the one of the given number. -/
def insertToken (number : Nat) (kind : Token.Kind) (mark : Mark) (s : TokenReader) : TokenReader :=
  { s with queue := s.queue.insertIdx (number - s.taken) ⟨kind, mark⟩ }

/-! ### Candidates -/

/-- Whether a key can no longer go on from a candidate to a mark. -/
def isStale (m : Mark) (c : Candidate) : Bool :=
  c.mark.line < m.line || c.mark.index + 1024 < m.index

/-- Drops a candidate that is stale; a required one is missed. -/
def refresh (m : Mark) : Option Candidate → Option (Option Candidate)
  | none => some none
  | some c => if !isStale m c then some (some c) else if c.isRequired then none else some none

/-- Drops all candidates that are stale. -/
def dropStale (s : TokenReader) : Option TokenReader := do
  let candidate ← refresh s.input.mark s.candidate
  let outer ← s.outer.mapM (refresh s.input.mark)
  return { s with candidate, outer }

/-- Drops the innermost candidate; a required one is missed. -/
def dropCandidate (s : TokenReader) : Option TokenReader :=
  if s.candidate.any (·.isRequired) then none else some { s with candidate := none }

/-- Makes a candidate of the place of the next token, if a key may begin there. -/
def saveCandidate (s : TokenReader) : Option TokenReader :=
  if !s.keyAllowed then some s
  else do
    let isRequired := !s.inBrackets && s.margin = s.input.mark.column + 1
    let s ← s.dropCandidate
    return { s with candidate := some ⟨isRequired, s.taken + s.queue.length, s.input.mark⟩ }

/-- Whether a candidate stands in front of the next token. -/
def isHeld (s : TokenReader) : Bool :=
  (s.candidate :: s.outer).any fun c => c.any fun c => c.number = s.taken

/-! ### Blocks -/

/-- Opens a block at a column, unless one is open there; its token goes in front of the one of the
given number, or else to the end. -/
def openBlock (kind : Token.Kind) (number? : Option Nat) (mark : Mark) (s : TokenReader) :
    TokenReader :=
  if s.inBrackets || mark.column < s.margin then s
  else
    let s := { s with blocks := mark.column :: s.blocks }
    match number? with
    | some number => s.insertToken number kind mark
    | none => s.push kind mark

/-- Closes blocks as long as `ends` holds of their columns. -/
def closeBlocks (ends : Nat → Bool) (s : TokenReader) : TokenReader :=
  if s.inBrackets then s
  else
    let kept := s.blocks.dropWhile ends
    let ending : Token := ⟨.blockEnd, s.input.mark⟩
    let closing := List.replicate (s.blocks.length - kept.length) ending
    { s with blocks := kept, queue := s.queue ++ closing }

/-! ### Between tokens -/

/-- The input behind blanks, comments and line breaks, and whether a key may begin there.  Tabs
count as blanks where no key may begin, and a byte order mark may begin a line; `fuel` bounds the
number of lines. -/
def skipSpace (inBrackets : Bool) : (fuel : Nat) → (keyAllowed : Bool) → Input → Bool × Input
  | 0, keyAllowed, i => (keyAllowed, i)
  | fuel + 1, keyAllowed, i =>
    let i := if i.mark.column = 0 && i.rest.head? = some '\ufeff' then i.skip else i
    let i := i.skipWhile fun c => c = ' ' || (c = '\t' && (inBrackets || !keyAllowed))
    let i := if i.rest.head? = some '#' then i.skipWhile fun c => !isBreak c else i
    if i.rest.head?.any isBreak then
      skipSpace inBrackets fuel (keyAllowed || !inBrackets) i.skipBreak
    else (keyAllowed, i)

/-- The reader in front of its next token. -/
def toToken (s : TokenReader) : Option TokenReader := do
  let (keyAllowed, input) := skipSpace s.inBrackets (s.input.rest.length + 1) s.keyAllowed s.input
  let s ← { s with keyAllowed, input }.dropStale
  return s.closeBlocks fun column => input.mark.column < column

/-! ### Tokens by kind -/

/-- Takes a token of `width` characters. -/
def take (kind : Token.Kind) (width : Nat) (s : TokenReader) : TokenReader :=
  { s.push kind s.input.mark with input := s.input.advance width }

/-- Takes the end of the text, which is put at the beginning of a line. -/
def takeEnd (s : TokenReader) : Option TokenReader := do
  let m := s.input.mark
  let m := if m.column = 0 then m else ⟨m.index, m.line + 1, 0⟩
  let s := { s with input := ⟨[], m⟩ }.closeBlocks fun _ => true
  let s ← s.dropCandidate
  return { s with keyAllowed := false }.push .streamEnd m

/-- Takes a directive. -/
def takeDirective (s : TokenReader) : Option TokenReader := do
  let s ← (s.closeBlocks fun _ => true).dropCandidate
  let (kind, input) ← readDirective s.input
  return { s with keyAllowed := false, input }.push kind s.input.mark

/-- Takes the indicator of the beginning or the end of a document. -/
def takeIndicator (kind : Token.Kind) (s : TokenReader) : Option TokenReader := do
  let s ← (s.closeBlocks fun _ => true).dropCandidate
  return { s with keyAllowed := false }.take kind 3

/-- Takes an opening bracket. -/
def takeOpen (kind : Token.Kind) (s : TokenReader) : Option TokenReader := do
  let s ← s.saveCandidate
  let outer := s.candidate :: s.outer
  return { s with candidate := none, outer, keyAllowed := true }.take kind 1

/-- Takes a closing bracket. -/
def takeClose (kind : Token.Kind) (s : TokenReader) : Option TokenReader := do
  let s ← s.dropCandidate
  let s := match s.outer with
    | [] => s
    | candidate :: outer => { s with candidate, outer }
  return { s with keyAllowed := false }.take kind 1

/-- Takes a comma between the members of a bracket. -/
def takeComma (s : TokenReader) : Option TokenReader := do
  let s ← s.dropCandidate
  return { s with keyAllowed := true }.take .comma 1

/-- Takes the dash of an item. -/
def takeDash (s : TokenReader) : Option TokenReader := do
  if !s.inBrackets && !s.keyAllowed then none
  let s ← (s.openBlock .blockSequence none s.input.mark).dropCandidate
  return { s with keyAllowed := true }.take .dash 1

/-- Takes the question mark of a key. -/
def takeKey (s : TokenReader) : Option TokenReader := do
  if !s.inBrackets && !s.keyAllowed then none
  let s ← (s.openBlock .blockMapping none s.input.mark).dropCandidate
  return { s with keyAllowed := !s.inBrackets }.take .key 1

/-- Takes the colon of a value; the candidate becomes its key. -/
def takeValue (s : TokenReader) : Option TokenReader :=
  match s.candidate with
  | some c =>
    let s := s.insertToken c.number .key c.mark
    let s := s.openBlock .blockMapping (some c.number) c.mark
    some ({ s with candidate := none, keyAllowed := false }.take .value 1)
  | none =>
    if !s.inBrackets && !s.keyAllowed then none
    else
      let s := s.openBlock .blockMapping none s.input.mark
      some ({ s with keyAllowed := !s.inBrackets }.take .value 1)

/-- Takes an anchor or an alias. -/
def takeAnchor (kind : String → Token.Kind) (s : TokenReader) : Option TokenReader := do
  let s ← s.saveCandidate
  let (name, input) ← readAnchor s.input
  return { s with keyAllowed := false, input }.push (kind name) s.input.mark

/-- Takes a tag. -/
def takeTag (s : TokenReader) : Option TokenReader := do
  let s ← s.saveCandidate
  let (tag, input) ← readTag s.inBrackets s.input
  return { s with keyAllowed := false, input }.push (.tag tag) s.input.mark

/-- Takes a block scalar. -/
def takeBlockScalar (isFolded : Bool) (s : TokenReader) : Option TokenReader := do
  let s ← s.dropCandidate
  let (text, input) ← readBlock isFolded s.margin s.input
  return { s with keyAllowed := true, input }.push (.scalar text false) s.input.mark

/-- Takes a quoted scalar. -/
def takeQuoted (isSingle : Bool) (s : TokenReader) : Option TokenReader := do
  let s ← s.saveCandidate
  let (text, input) ← readQuoted isSingle s.input
  return { s with keyAllowed := false, input }.push (.scalar text false) s.input.mark

/-- Takes a plain scalar; behind one that has run into another line, a key may begin. -/
def takePlain (s : TokenReader) : Option TokenReader := do
  let s ← s.saveCandidate
  let (text, input, isBroken) ← readPlain s.inBrackets s.margin s.input
  return { s with keyAllowed := isBroken, input }.push (.scalar text true) s.input.mark

/-- Characters that no plain scalar begins with. -/
def isIndicator (c : Char) : Bool :=
  isSpace c || "-?:,[]\x7b\x7d#&*!|>'\"%@\x60".toList.contains c

/-- Whether a plain scalar begins with a character in front of a text. -/
def beginsPlain (inBrackets : Bool) (c : Char) (rest : List Char) : Bool :=
  !isIndicator c || (c = '-' && !rest.head?.any isBlank) ||
    (!inBrackets && (c = '?' || c = ':') && !atSpace rest)

/-- Reads the token in front, and those that it closes or opens. -/
def takeNext (s : TokenReader) : Option TokenReader :=
  match s.input.rest with
  | [] => s.takeEnd
  | c :: rest =>
    let isIsolated := s.inBrackets || atSpace rest
    if c = '%' && s.input.mark.column = 0 then s.takeDirective
    else if s.input.atIndicator '-' then s.takeIndicator .documentStart
    else if s.input.atIndicator '.' then s.takeIndicator .documentEnd
    else if c = '[' then s.takeOpen .sequenceOpen
    else if c = '\x7b' then s.takeOpen .mappingOpen
    else if c = ']' then s.takeClose .sequenceClose
    else if c = '\x7d' then s.takeClose .mappingClose
    else if c = ',' then s.takeComma
    else if c = '-' && atSpace rest then s.takeDash
    else if c = '?' && isIsolated then s.takeKey
    else if c = ':' && isIsolated then s.takeValue
    else if c = '*' then s.takeAnchor .alias
    else if c = '&' then s.takeAnchor .anchor
    else if c = '!' then s.takeTag
    else if c = '|' && !s.inBrackets then s.takeBlockScalar false
    else if c = '>' && !s.inBrackets then s.takeBlockScalar true
    else if c = '\'' then s.takeQuoted true
    else if c = '"' then s.takeQuoted false
    else if beginsPlain s.inBrackets c rest then s.takePlain
    else none

/-- The number of characters that are looked at to tell what token begins with them. -/
def lookahead : Nat := 4

/-- Reads the next token.  In a text that is cut off, a character has to be left behind it. -/
def fetch (s : TokenReader) : Option TokenReader := do
  let s ← s.toToken
  if s.isCut && (s.input.rest.take lookahead).length < lookahead then none
  let s ← s.takeNext
  if s.isCut && s.input.rest.isEmpty then none
  return s

/-! ### Handing tokens out -/

/-- Hands out the next token; `fuel` bounds how many have to be read for it. -/
def next : (fuel : Nat) → TokenReader → Option (Token × TokenReader)
  | 0, _ => none
  | fuel + 1, s =>
    match s.queue with
    | [] => do next fuel (← s.fetch)
    | token :: queue => do
      let s ← s.dropStale
      if s.isHeld then next fuel (← s.fetch)
      else return (token, { s with queue, taken := s.taken + 1 })

/-- The tokens that are handed out one after another, `fuel` of them at most. -/
def tokens : (fuel : Nat) → TokenReader → List Token
  | 0, _ => []
  | fuel + 1, s =>
    match s.next (s.input.rest.length + 2) with
    | none => []
    | some (token, s) => token :: (if token.kind = .streamEnd then [] else tokens fuel s)

end TokenReader

/-- The tokens of a text. -/
def Token.ofText (cs : List Char) : List Token :=
  let (part, isCut) := readablePart (cs.length + 1) cs
  TokenReader.tokens (4 * cs.length + 8) { input := ⟨part, {}⟩, isCut }

end SszRecord.Yaml
