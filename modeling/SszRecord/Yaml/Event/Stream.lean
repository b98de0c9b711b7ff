/-
The events of a YAML stream.

Tokens are read one after another by a machine with a stack: its state says what may come next,
and the stack says what comes after the node that is being read.  A stream that is malformed
somewhere has the events in front of that place and no more.  A stream that is not has `streamEnd`
as its last event.
-/
import SszRecord.Yaml.Event

namespace SszRecord.Yaml

/-- What may come next. -/
inductive Expecting where
  /-- The first document, whose beginning need not be marked. -/
  | firstDocument
  | document
  /-- The root of a document whose beginning is marked. -/
  | content
  | documentEnd
  | blockNode
  | blockItem
  /-- An item of a sequence without indentation of its own. -/
  | plainItem
  | blockKey
  | blockValue
  | sequenceItem (isFirst : Bool)
  /-- The key of a single pair in a sequence. -/
  | pairKey
  | pairValue
  | pairEnd
  | mappingKey (isFirst : Bool)
  | mappingValue
  /-- The value of a key without a colon. -/
  | missingValue
  | nothing
deriving DecidableEq, Repr

/-- The state of reading events. -/
structure EventReader where
  tokens : List Token
  expecting : Expecting := .firstDocument
  /-- What is expected behind the nodes that are being read. -/
  pending : List Expecting := []
  /-- Handles and what they stand for. -/
  handles : List (String × Bytes) := []

namespace EventReader

/-- The state with other tokens left. -/
def withTokens (tokens : List Token) (c : EventReader) : EventReader := { c with tokens := tokens }

/-- The state behind a node: what was pending comes next. -/
def resume (c : EventReader) : EventReader :=
  { c with expecting := c.pending.headD .nothing, pending := c.pending.tail }

/-- An empty node at a mark, and something expected behind it. -/
def emptyThen (next : Expecting) (mark : Mark) (c : EventReader) : Event × EventReader :=
  (.empty mark, { c with expecting := next })

/-! ### Directives -/

/-- The handles that need no directive. -/
def defaultHandles : List (String × Bytes) :=
  [("!", Bytes.ofText "!"), ("!!", Bytes.ofText "tag:yaml.org,2002:")]

/-- What a handle stands for. -/
def replacement? (handle : String) : List (String × Bytes) → Option Bytes
  | [] => none
  | (h, b) :: rest => if h = handle then some b else replacement? handle rest

/-- Reads directives up to the first token that is none; gives the handles they declare.  A
version is stated once at most and is 1.1 or 1.2, and a handle is declared once at most. -/
def readDirectives : (hasVersion : Bool) → (handles : List (String × Bytes)) → List Token →
    Option (List (String × Bytes) × List Token)
  | hasVersion, handles, ⟨.version major minor, _⟩ :: rest =>
    if hasVersion || major ≠ 1 || (minor ≠ 1 && minor ≠ 2) then none
    else readDirectives true handles rest
  | hasVersion, handles, ⟨.tagHandle handle b, _⟩ :: rest =>
    if (replacement? handle handles).isSome then none
    else readDirectives hasVersion (handles ++ [(handle, b)]) rest
  | _, _, [] => none
  | _, handles, tokens => some (handles ++ defaultHandles, tokens)

/-! ### Nodes -/

/-- The tag that a tag token stands for. -/
def resolveTag (c : EventReader) (t : TagText) : Option Bytes :=
  if t.handle.isEmpty then some t.suffix
  else (replacement? t.handle c.handles).map (· ++ t.suffix)

/-- Reads the anchor and the tag of a node, in either order; gives the tokens behind them. -/
def readProperties (c : EventReader) : Option (Properties × List Token) :=
  match c.tokens with
  | ⟨.anchor name, _⟩ :: ⟨.tag t, _⟩ :: rest => do
    return (⟨some name, some (← c.resolveTag t)⟩, rest)
  | ⟨.tag t, _⟩ :: ⟨.anchor name, _⟩ :: rest => do
    return (⟨some name, some (← c.resolveTag t)⟩, rest)
  | ⟨.anchor name, _⟩ :: rest => some (⟨some name, none⟩, rest)
  | ⟨.tag t, _⟩ :: rest => do return (⟨none, some (← c.resolveTag t)⟩, rest)
  | tokens => some ({}, tokens)

/-- Reads a node.  Nodes that are blocks begin outside of brackets only; `withItems` admits a
sequence without indentation of its own. -/
def readNode (isBlock withItems : Bool) (c : EventReader) : Option (Event × EventReader) :=
  match c.tokens with
  | [] => none
  | ⟨.alias name, mark⟩ :: rest => some (⟨.alias name, mark⟩, (c.withTokens rest).resume)
  | ⟨_, mark⟩ :: _ => do
    let (p, tokens) ← c.readProperties
    let c := c.withTokens tokens
    let token ← tokens.head?
    match token.kind with
    | .dash =>
      if withItems then return (⟨.sequenceStart p, mark⟩, { c with expecting := .plainItem })
      else unwritten p mark c
    | .scalar text isPlain =>
      return (⟨.scalar text isPlain p, mark⟩, (c.withTokens tokens.tail).resume)
    | .sequenceOpen =>
      let next := { c with tokens := tokens.tail, expecting := .sequenceItem true }
      return (⟨.sequenceStart p, mark⟩, next)
    | .mappingOpen =>
      let next := { c with tokens := tokens.tail, expecting := .mappingKey true }
      return (⟨.mappingStart p, mark⟩, next)
    | .blockSequence =>
      if isBlock then
        return (⟨.sequenceStart p, mark⟩, { c with tokens := tokens.tail, expecting := .blockItem })
      else unwritten p mark c
    | .blockMapping =>
      if isBlock then
        return (⟨.mappingStart p, mark⟩, { c with tokens := tokens.tail, expecting := .blockKey })
      else unwritten p mark c
    | _ => unwritten p mark c
where
  /-- A node with properties and nothing behind them. -/
  unwritten (p : Properties) (mark : Mark) (c : EventReader) : Option (Event × EventReader) :=
    if p.anchor.isNone && p.tag.isNone then none
    else some (⟨.scalar "" true p, mark⟩, c.resume)

/-- Reads a node with something expected behind it. -/
def nodeThen (next : Expecting) (isBlock withItems : Bool) (c : EventReader) :
    Option (Event × EventReader) :=
  { c with pending := next :: c.pending }.readNode isBlock withItems

/-! ### Documents -/

/-- Drops indicators of the end of a document. -/
def dropEnds (tokens : List Token) : List Token := tokens.dropWhile fun t => t.kind = .documentEnd

/-- Reads the beginning of a document, or the end of the stream. -/
def readDocument (isFirst : Bool) (c : EventReader) : Option (Event × EventReader) :=
  match if isFirst then c.tokens else dropEnds c.tokens with
  | [] => none
  | ⟨.streamEnd, mark⟩ :: rest =>
    some (⟨.streamEnd, mark⟩, { c with tokens := rest, expecting := .nothing })
  | token :: rest =>
    let isMarked := match token.kind with
      | .version .. => true
      | .tagHandle .. => true
      | .documentStart => true
      | _ => false
    if isFirst && !isMarked then
      let handles := defaultHandles
      let pending := [.documentEnd]
      some (⟨.documentStart, token.mark⟩, { c with expecting := .blockNode, pending, handles })
    else do
      let (handles, tokens) ← readDirectives false [] (token :: rest)
      match tokens with
      | ⟨.documentStart, _⟩ :: tokens =>
        let pending := [.documentEnd]
        return (⟨.documentStart, token.mark⟩, ⟨tokens, .content, pending, handles⟩)
      | _ => none

/-- Reads the root of a document whose beginning is marked. -/
def readContent (c : EventReader) : Option (Event × EventReader) :=
  match c.tokens with
  | [] => none
  | token :: _ =>
    match token.kind with
    | .version .. => some (.empty token.mark, c.resume)
    | .tagHandle .. => some (.empty token.mark, c.resume)
    | .documentStart => some (.empty token.mark, c.resume)
    | .documentEnd => some (.empty token.mark, c.resume)
    | .streamEnd => some (.empty token.mark, c.resume)
    | _ => c.readNode true false

/-- Reads the end of a document. -/
def readDocumentEnd (c : EventReader) : Option (Event × EventReader) :=
  match c.tokens with
  | [] => none
  | ⟨.documentEnd, mark⟩ :: rest =>
    some (⟨.documentEnd, mark⟩, { c with tokens := rest, expecting := .document })
  | token :: _ => some (⟨.documentEnd, token.mark⟩, { c with expecting := .document })

/-! ### Blocks -/

/-- Reads an item of a block sequence, or its end. -/
def readBlockItem (c : EventReader) : Option (Event × EventReader) :=
  match c.tokens with
  | ⟨.dash, mark⟩ :: rest => do
    let c := c.withTokens rest
    match (← rest.head?).kind with
    | .dash => return c.emptyThen .blockItem mark
    | .blockEnd => return c.emptyThen .blockItem mark
    | _ => c.nodeThen .blockItem true false
  | ⟨.blockEnd, mark⟩ :: rest => some (⟨.sequenceEnd, mark⟩, (c.withTokens rest).resume)
  | _ => none

/-- Reads an item of a sequence without indentation of its own, or its end. -/
def readPlainItem (c : EventReader) : Option (Event × EventReader) :=
  match c.tokens with
  | ⟨.dash, mark⟩ :: rest => do
    let c := c.withTokens rest
    match (← rest.head?).kind with
    | .dash => return c.emptyThen .plainItem mark
    | .key => return c.emptyThen .plainItem mark
    | .value => return c.emptyThen .plainItem mark
    | .blockEnd => return c.emptyThen .plainItem mark
    | _ => c.nodeThen .plainItem true false
  | token :: _ => some (⟨.sequenceEnd, token.mark⟩, c.resume)
  | [] => none

/-- Reads a node of a block mapping behind its indicator, with something expected behind it. -/
def readBlockMember (next : Expecting) (mark : Mark) (c : EventReader) :
    Option (Event × EventReader) := do
  match (← c.tokens.head?).kind with
  | .key => return c.emptyThen next mark
  | .value => return c.emptyThen next mark
  | .blockEnd => return c.emptyThen next mark
  | _ => c.nodeThen next true true

/-- Reads a key of a block mapping, or its end. -/
def readBlockKey (c : EventReader) : Option (Event × EventReader) :=
  match c.tokens with
  | ⟨.key, mark⟩ :: rest => (c.withTokens rest).readBlockMember .blockValue mark
  | ⟨.blockEnd, mark⟩ :: rest => some (⟨.mappingEnd, mark⟩, (c.withTokens rest).resume)
  | _ => none

/-- Reads a value of a block mapping. -/
def readBlockValue (c : EventReader) : Option (Event × EventReader) :=
  match c.tokens with
  | ⟨.value, mark⟩ :: rest => (c.withTokens rest).readBlockMember .blockKey mark
  | token :: _ => some (c.emptyThen .blockKey token.mark)
  | [] => none

/-! ### Brackets -/

/-- Drops the comma in front of a member, which only the first one goes without. -/
def dropComma (isFirst : Bool) (tokens : List Token) : Option (List Token) :=
  if isFirst then some tokens
  else
    match tokens with
    | ⟨.comma, _⟩ :: rest => some rest
    | _ => none

/-- Reads an item of a sequence in brackets, or its end. -/
def readSequenceItem (isFirst : Bool) (c : EventReader) : Option (Event × EventReader) :=
  match c.tokens with
  | ⟨.sequenceClose, mark⟩ :: rest => some (⟨.sequenceEnd, mark⟩, (c.withTokens rest).resume)
  | tokens => do
    match ← dropComma isFirst tokens with
    | ⟨.key, mark⟩ :: rest =>
      return (⟨.mappingStart {}, mark⟩, { c with tokens := rest, expecting := .pairKey })
    | ⟨.sequenceClose, mark⟩ :: rest =>
      return (⟨.sequenceEnd, mark⟩, (c.withTokens rest).resume)
    | tokens => (c.withTokens tokens).nodeThen (.sequenceItem false) false false

/-- Reads the key of a single pair in a sequence.  Where it is not written, the token that shows
so is passed over. -/
def readPairKey (c : EventReader) : Option (Event × EventReader) :=
  match c.tokens with
  | [] => none
  | token :: rest =>
    match token.kind with
    | .value => some ((c.withTokens rest).emptyThen .pairValue token.mark)
    | .comma => some ((c.withTokens rest).emptyThen .pairValue token.mark)
    | .sequenceClose => some ((c.withTokens rest).emptyThen .pairValue token.mark)
    | _ => c.nodeThen .pairValue false false

/-- Reads a value in brackets whose end is shown by a comma or by `close`. -/
def readValueBefore (close : Token.Kind) (next : Expecting) (c : EventReader) :
    Option (Event × EventReader) :=
  match c.tokens with
  | [] => none
  | ⟨.value, _⟩ :: rest => do
    let token ← rest.head?
    let c := c.withTokens rest
    if token.kind = .comma || token.kind = close then return c.emptyThen next token.mark
    else c.nodeThen next false false
  | token :: _ => some (c.emptyThen next token.mark)

/-- Ends a single pair in a sequence. -/
def readPairEnd (c : EventReader) : Option (Event × EventReader) :=
  match c.tokens with
  | [] => none
  | token :: _ => some (⟨.mappingEnd, token.mark⟩, { c with expecting := .sequenceItem false })

/-- Reads a key of a mapping in brackets, or its end. -/
def readMappingKey (isFirst : Bool) (c : EventReader) : Option (Event × EventReader) :=
  match c.tokens with
  | ⟨.mappingClose, mark⟩ :: rest => some (⟨.mappingEnd, mark⟩, (c.withTokens rest).resume)
  | tokens => do
    match ← dropComma isFirst tokens with
    | ⟨.key, _⟩ :: rest => do
      let c := c.withTokens rest
      let token ← rest.head?
      if token.kind = .value || token.kind = .comma || token.kind = .mappingClose then
        return c.emptyThen .mappingValue token.mark
      else c.nodeThen .mappingValue false false
    | ⟨.mappingClose, mark⟩ :: rest =>
      return (⟨.mappingEnd, mark⟩, (c.withTokens rest).resume)
    | tokens => (c.withTokens tokens).nodeThen .missingValue false false

/-- Gives the value of a key without a colon. -/
def readMissingValue (c : EventReader) : Option (Event × EventReader) :=
  match c.tokens with
  | [] => none
  | token :: _ => some (c.emptyThen (.mappingKey false) token.mark)

/-! ### Streams -/

/-- Reads the next event. -/
def step (c : EventReader) : Option (Event × EventReader) :=
  match c.expecting with
  | .firstDocument => c.readDocument true
  | .document => c.readDocument false
  | .content => c.readContent
  | .documentEnd => c.readDocumentEnd
  | .blockNode => c.readNode true false
  | .blockItem => c.readBlockItem
  | .plainItem => c.readPlainItem
  | .blockKey => c.readBlockKey
  | .blockValue => c.readBlockValue
  | .sequenceItem isFirst => c.readSequenceItem isFirst
  | .pairKey => c.readPairKey
  | .pairValue => c.readValueBefore .sequenceClose .pairEnd
  | .pairEnd => c.readPairEnd
  | .mappingKey isFirst => c.readMappingKey isFirst
  | .mappingValue => c.readValueBefore .mappingClose (.mappingKey false)
  | .missingValue => c.readMissingValue
  | .nothing => none

/-- The events that are read one after another, `fuel` of them at most. -/
def events : (fuel : Nat) → EventReader → List Event
  | 0, _ => []
  | fuel + 1, c =>
    match c.step with
    | none => []
    | some (event, c) => event :: (if event.kind = .streamEnd then [] else events fuel c)

end EventReader

/-- The events of a stream of tokens. -/
def Event.ofTokens (tokens : List Token) : List Event :=
  EventReader.events (4 * tokens.length + 8) ⟨tokens, .firstDocument, [], []⟩

end SszRecord.Yaml
