/-
Forks of the beacon chain and checkpoints.
-/
import SszRecord.Beacon.Basic

namespace SszRecord.Beacon

/-! ### Forks -/

/-- The versions before and after a fork. -/
structure Fork where
  previousVersion : Version
  currentVersion : Version
  epoch : Epoch
deriving DecidableEq, Inhabited

instance : Typed Fork where
  schema := ⟨"Fork", [
    ⟨"previous_version", versionKind, .reject⟩,
    ⟨"current_version", versionKind, .reject⟩,
    ⟨"epoch", wordKind, .reject⟩]⟩
  toRecord f := [vectorValue f.previousVersion, vectorValue f.currentVersion, .ofWord f.epoch]
  read := do
    let previousVersion ← readVector 4
    let currentVersion ← readVector 4
    let epoch ← readWord
    return ⟨previousVersion, currentVersion, epoch⟩

/-! ### Fork data -/

/-- What tells one fork of a chain from all others. -/
structure ForkData where
  currentVersion : Version
  genesisValidatorsRoot : Root
deriving DecidableEq, Inhabited

instance : Typed ForkData where
  schema := ⟨"ForkData", [
    ⟨"current_version", versionKind, .reject⟩,
    ⟨"genesis_validators_root", rootKind, .reject⟩]⟩
  toRecord f := [vectorValue f.currentVersion, vectorValue f.genesisValidatorsRoot]
  read := do
    let currentVersion ← readVector 4
    let genesisValidatorsRoot ← readVector 32
    return ⟨currentVersion, genesisValidatorsRoot⟩

/-- The first four bytes of the root, which tag the messages of a network. -/
def ForkData.digest (f : ForkData) : Except CodecError Bytes := do
  return (← Typed.root f).bytes.take 4

/-! ### Checkpoints -/

/-- The root of the block at the boundary of an epoch. -/
structure Checkpoint where
  epoch : Epoch
  root : Root
deriving DecidableEq, Inhabited

instance : Typed Checkpoint where
  schema := ⟨"Checkpoint", [⟨"epoch", wordKind, .reject⟩, ⟨"root", rootKind, .reject⟩]⟩
  toRecord c := [.ofWord c.epoch, vectorValue c.root]
  read := do
    let epoch ← readWord
    let root ← readVector 32
    return ⟨epoch, root⟩

end SszRecord.Beacon
