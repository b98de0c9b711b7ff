import SszRecord.Beacon.Fork
import SszRecord.Beacon.Header
import SszRecord.Beacon.Withdrawal
import SszRecord.Bytes.Numbers
import SszRecord.Merkle.Root
import SszRecord.Proofs.Merkle.Binding
import SszRecord.Proofs.Merkle.Definition
import SszRecord.Proofs.Wire.RoundTrip
import SszRecord.Schema.Conformance
import SszRecord.Schema.Validity
import SszRecord.Session
import SszRecord.Settings.Reading
import SszRecord.Value.Cursor
import SszRecord.Wire.Decoding
import SszRecord.Wire.Encoding
import SszRecord.Wire.Machine
import SszRecord.Proofs.Wire.Definition
import SszRecord.Proofs.Wire.Safety
import SszRecord.Proofs.Hex
import SszRecord.Proofs.Json.Reading
import SszRecord.Proofs.Text.Reading
import SszRecord.Proofs.Yaml.Events
import SszRecord.Proofs.Yaml.Reading
import SszRecord.Proofs.Limits
import SszRecord.Proofs.Merkle.Conformance
import SszRecord.Proofs.Wire.Economy
import SszRecord.Proofs.Spelling
import SszRecord.Proofs.Merkle.Summary
import SszRecord.Proofs.Beacon.Records
import SszRecord.Proofs.Text.Legible
import SszRecord.Proofs.Text.Members
import SszRecord.Proofs.Wire.Unfinished
import SszRecord.Proofs.Merkle.Padding
import SszRecord.Proofs.Wire.Tiling
import SszRecord.Proofs.Yaml.Nodes
import SszRecord.Proofs.Yaml.Denotation
import SszRecord.Proofs.Text.Vocabulary
import SszRecord.Proofs.Yaml.Faults
import SszRecord.Proofs.UInt256.Numerals
import SszRecord.Proofs.UInt256.Widths
import SszRecord.Proofs.UInt256.Order
import SszRecord.Proofs.Schema.Overflow
import SszRecord.Proofs.Settings
import SszRecord.Proofs.Text.Messages
import SszRecord.Proofs.Wire.Slots
import SszRecord.Proofs.Hex.Grammar
import SszRecord.Proofs.Cursor
import SszRecord.Proofs.Wire.Words
