/-
Headers of beacon blocks.
-/
import SszRecord.Beacon.Basic

namespace SszRecord.Beacon

/-- The header of a beacon block. -/
structure BlockHeader where
  slot : Slot
  proposerIndex : ValidatorIndex
  parentRoot : Root
  stateRoot : Root
  bodyRoot : Root
deriving DecidableEq, Inhabited

instance : Typed BlockHeader where
  schema := ⟨"BeaconBlockHeader", [
    ⟨"slot", wordKind, .reject⟩,
    ⟨"proposer_index", wordKind, .reject⟩,
    ⟨"parent_root", rootKind, .reject⟩,
    ⟨"state_root", rootKind, .reject⟩,
    ⟨"body_root", rootKind, .reject⟩]⟩
  toRecord h := [.ofWord h.slot, .ofWord h.proposerIndex, vectorValue h.parentRoot,
    vectorValue h.stateRoot, vectorValue h.bodyRoot]
  read := do
    let slot ← readWord
    let proposerIndex ← readWord
    let parentRoot ← readVector 32
    let stateRoot ← readVector 32
    let bodyRoot ← readVector 32
    return ⟨slot, proposerIndex, parentRoot, stateRoot, bodyRoot⟩

/-- A header and the signature of its proposer. -/
structure SignedBlockHeader where
  message : BlockHeader
  signature : Signature
deriving DecidableEq, Inhabited

/-- An absent signature is read as empty, and then has the wrong length. -/
instance : Typed SignedBlockHeader where
  schema := ⟨"SignedBeaconBlockHeader", [
    ⟨"message", (Typed.schema BlockHeader).kind, .reject⟩,
    ⟨"signature", signatureKind, .empty⟩]⟩
  toRecord h := [.container (Typed.toRecord h.message), vectorValue h.signature]
  read := do
    let message ← Typed.readField
    let signature ← readVector 96
    return ⟨message, signature⟩

end SszRecord.Beacon
