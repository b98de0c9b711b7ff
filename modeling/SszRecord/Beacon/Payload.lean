/-
Execution payloads.

A payload and its header share all fields but the last one: the payload has its transactions there
and the header has their root.  So both have the same root.
-/
import SszRecord.Beacon.Basic

namespace SszRecord.Beacon

abbrev Transaction := Bytes

/-! ### Transactions -/

/-- At most 2^20 transactions of at most 2^30 bytes. -/
def transactionsKind : Kind := .list (.byteList 1073741824) 1048576

/-- The value of a list of transactions. -/
def transactionsValue (transactions : List Transaction) : Value :=
  .list (transactions.map .bytes)

/-- The root of a list of transactions. -/
def transactionsRoot (transactions : List Transaction) : Except CodecError Root :=
  transactionsKind.valueRoot (transactionsValue transactions)

/-- The bytes of an item. -/
def itemBytes : Value → Except CodecError Bytes
  | .bytes b => .ok b
  | other => .error (.mismatch (.listItem other.shape "byte-string"))

/-- The next field as a list of transactions. -/
def readTransactions : FieldRead (List Transaction) := do mapItems itemBytes (← .items)

/-! ### Blocks -/

/-- The fields that a payload and its header share. -/
structure ExecutionBlock where
  parentHash : Root
  feeRecipient : Address
  stateRoot : Root
  receiptsRoot : Root
  logsBloom : ByteVector 256
  prevRandao : Root
  blockNumber : UInt64
  gasLimit : UInt64
  gasUsed : UInt64
  timestamp : UInt64
  extraData : Bytes
  baseFeePerGas : UInt256
  blockHash : Root
deriving DecidableEq, Inhabited

namespace ExecutionBlock

def fields : List (Field Kind) := [
  ⟨"parent_hash", rootKind, .reject⟩,
  ⟨"fee_recipient", addressKind, .reject⟩,
  ⟨"state_root", rootKind, .reject⟩,
  ⟨"receipts_root", rootKind, .reject⟩,
  ⟨"logs_bloom", .bytes 256, .reject⟩,
  ⟨"prev_randao", rootKind, .reject⟩,
  ⟨"block_number", wordKind, .reject⟩,
  ⟨"gas_limit", wordKind, .reject⟩,
  ⟨"gas_used", wordKind, .reject⟩,
  ⟨"timestamp", wordKind, .reject⟩,
  ⟨"extra_data", .byteList 32, .reject⟩,
  ⟨"base_fee_per_gas", .uint 32, .reject⟩,
  ⟨"block_hash", rootKind, .reject⟩]

def toValues (b : ExecutionBlock) : List Value := [
  vectorValue b.parentHash,
  vectorValue b.feeRecipient,
  vectorValue b.stateRoot,
  vectorValue b.receiptsRoot,
  vectorValue b.logsBloom,
  vectorValue b.prevRandao,
  .ofWord b.blockNumber,
  .ofWord b.gasLimit,
  .ofWord b.gasUsed,
  .ofWord b.timestamp,
  .bytes b.extraData,
  .uint b.baseFeePerGas,
  vectorValue b.blockHash]

def read : FieldRead ExecutionBlock := do
  let parentHash ← readVector 32
  let feeRecipient ← readVector 20
  let stateRoot ← readVector 32
  let receiptsRoot ← readVector 32
  let logsBloom ← readVector 256
  let prevRandao ← readVector 32
  let blockNumber ← readWord
  let gasLimit ← readWord
  let gasUsed ← readWord
  let timestamp ← readWord
  let extraData ← .bytes
  let baseFeePerGas ← .uint
  let blockHash ← readVector 32
  return ⟨parentHash, feeRecipient, stateRoot, receiptsRoot, logsBloom, prevRandao, blockNumber,
    gasLimit, gasUsed, timestamp, extraData, baseFeePerGas, blockHash⟩

end ExecutionBlock

/-! ### Payloads and headers -/

/-- A payload header: a block that commits to its transactions by their root. -/
structure PayloadHeader where
  block : ExecutionBlock
  transactionsRoot : Root
deriving DecidableEq, Inhabited

instance : Typed PayloadHeader where
  schema :=
    ⟨"ExecutionPayloadHeader",
      ExecutionBlock.fields ++ [⟨"transactions_root", rootKind, .reject⟩]⟩
  toRecord h := h.block.toValues ++ [vectorValue h.transactionsRoot]
  read := do
    let block ← ExecutionBlock.read
    let transactionsRoot ← readVector 32
    return ⟨block, transactionsRoot⟩

/-- A payload: a block and its transactions. -/
structure Payload where
  block : ExecutionBlock
  transactions : List Transaction
deriving DecidableEq, Inhabited

instance : Typed Payload where
  schema :=
    ⟨"ExecutionPayload", ExecutionBlock.fields ++ [⟨"transactions", transactionsKind, .reject⟩]⟩
  toRecord p := p.block.toValues ++ [transactionsValue p.transactions]
  read := do
    let block ← ExecutionBlock.read
    let transactions ← readTransactions
    return ⟨block, transactions⟩

/-- The header of a payload. -/
def Payload.toHeader (p : Payload) : Except CodecError PayloadHeader := do
  return ⟨p.block, ← transactionsRoot p.transactions⟩

end SszRecord.Beacon
