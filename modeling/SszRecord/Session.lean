/-
Codec sessions.

A session holds settings, a schema, a record, a buffer and a text.  Steps edit them or turn one
into the other.  A step that fails changes nothing.
-/
import SszRecord.Settings
import SszRecord.Text.Decoding
import SszRecord.Text.Encoding
import SszRecord.Wire.Encoding
import SszRecord.Wire.Machine
import SszRecord.Yaml.Flow
import SszRecord.Yaml.Guided

namespace SszRecord

/-- What a session holds. -/
structure Session where
  settings : Settings := {}
  schema : Schema
  record : Record := []
  buffer : Bytes := []
  text : String := ""

namespace Session

/-- A step of a session. -/
inductive Step where
  | settings (s : Settings)
  | schema (s : Schema)
  | record (r : Record)
  /-- Replaces a value of the record, or adds one at its end. -/
  | put (index : Nat) (v : Value)
  | get (index : Nat)
  | bytes (b : Bytes)
  | append (b : Bytes)
  | cut (length : Nat)
  /-- Overwrites bytes of the buffer; those behind its end are dropped. -/
  | poke (start : Nat) (b : Bytes)
  | text (s : String)
  | replace (old new : String)
  | check
  | size
  | root
  | encode
  | decode
  | toText
  | toYaml
  | ofText
  | ofYaml

/-- What a step answers. -/
inductive Answer where
  | done
  | count (n : Nat)
  | value (v : Option Value)
  | bytes (b : Bytes)
  | digest (d : Digest)
  | text (s : String)
  | record (r : Record)

/-! ### Editing -/

/-- A byte string with others written over it from `start` on. -/
def overwrite (start : Nat) (new b : Bytes) : Bytes :=
  b.take start ++ new.take (b.length - start) ++ b.drop (start + new.length)

/-- A text without a beginning, if it has that. -/
def dropBeginning? : (beginning text : List Char) → Option (List Char)
  | [], text => some text
  | _ :: _, [] => none
  | b :: beginning, c :: text => if b = c then dropBeginning? beginning text else none

/-- A text with every occurrence of `old` replaced, from left to right; `fuel` bounds the number
of characters.  An empty `old` occurs around each character. -/
def replaceAll (old new : List Char) : (fuel : Nat) → List Char → List Char
  | 0, text => text
  | fuel + 1, text =>
    if old.isEmpty then
      match text with
      | [] => new
      | c :: rest => new ++ c :: replaceAll old new fuel rest
    else
      match dropBeginning? old text, text with
      | some rest, _ => new ++ replaceAll old new fuel rest
      | none, c :: rest => c :: replaceAll old new fuel rest
      | none, [] => []

/-! ### Steps -/

/-- The session with another record, which is the answer. -/
def withRecord (s : Session) (r : Record) : Answer × Session := (.record r, { s with record := r })

/-- The session with another buffer, which is the answer. -/
def withBuffer (s : Session) (b : Bytes) : Answer × Session := (.bytes b, { s with buffer := b })

/-- The session with another text, which is the answer. -/
def withText (s : Session) (text : String) : Answer × Session := (.text text, { s with text })

/-- The answer to a step and the session behind it.  Bytes are decoded in words. -/
def step (s : Session) : Step → Attempt (Answer × Session)
  | .settings settings => return (.done, { s with settings })
  | .schema schema => return (.done, { s with schema })
  | .record record => return (.done, { s with record })
  | .put index v =>
    let record := if index < s.record.length then s.record.set index v else s.record ++ [v]
    return (.count record.length, { s with record })
  | .get index => return (.value s.record[index]?, s)
  | .bytes b => return (.done, { s with buffer := b })
  | .append b => return (.done, { s with buffer := s.buffer ++ b })
  | .cut length => return (.done, { s with buffer := s.buffer.take length })
  | .poke start b => return s.withBuffer (overwrite start b s.buffer)
  | .text text => return (.done, { s with text })
  | .replace old new =>
    let text := s.text.toList
    return s.withText (String.ofList (replaceAll old.toList new.toList (text.length + 1) text))
  | .check => do
    s.schema.check s.record
    return (.done, s)
  | .size => do return (.count (← s.schema.recordSize s.record), s)
  | .root => do return (.digest (← s.schema.root s.settings.maxDepth.toNat s.record), s)
  | .encode => do return s.withBuffer (← s.schema.encode s.record)
  | .decode => do
    return s.withRecord (← s.schema.decodeOn .wrapping s.settings.maxDepth.toNat s.buffer)
  | .toText => do return s.withText (← s.schema.toJson s.settings.layout s.record)
  | .toYaml => do return s.withText (← s.schema.toYaml s.record)
  | .ofText => do return s.withRecord (← s.schema.ofJson s.text)
  | .ofYaml => do return s.withRecord (← s.schema.ofYaml s.text)

/-- The answers to steps made one after another, if none of them breaks off. -/
def answers (s : Session) : List Step → Option (List (Except CodecError Answer))
  | [] => some []
  | step :: rest => do
    match ← (s.step step).run with
    | .ok (answer, next) => return .ok answer :: (← answers next rest)
    | .error e => return .error e :: (← answers s rest)

end Session

end SszRecord
