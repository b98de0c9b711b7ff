/-
Withdrawals, and the payloads that carry them.
-/
import SszRecord.Beacon.Payload

namespace SszRecord.Beacon

/-- A withdrawal from the balance of a validator. -/
structure Withdrawal where
  index : UInt64
  validatorIndex : ValidatorIndex
  address : Address
  amount : UInt64
deriving DecidableEq, Inhabited

instance : Typed Withdrawal where
  schema := ⟨"Withdrawal", [
    ⟨"index", wordKind, .reject⟩,
    ⟨"validator_index", wordKind, .reject⟩,
    ⟨"address", addressKind, .reject⟩,
    ⟨"amount", wordKind, .reject⟩]⟩
  toRecord w := [.ofWord w.index, .ofWord w.validatorIndex, vectorValue w.address, .ofWord w.amount]
  read := do
    let index ← readWord
    let validatorIndex ← readWord
    let address ← readVector 20
    let amount ← readWord
    return ⟨index, validatorIndex, address, amount⟩

/-- At most sixteen withdrawals. -/
def withdrawalsKind : Kind := .list (Typed.schema Withdrawal).kind 16

/-- The value of a list of withdrawals. -/
def withdrawalsValue (withdrawals : List Withdrawal) : Value :=
  .list (withdrawals.map fun w => .container (Typed.toRecord w))

/-- The withdrawal of an item. -/
def itemWithdrawal : Value → Except CodecError Withdrawal
  | .container r => Typed.ofRecord r
  | other => .error (.mismatch (.listItem other.shape "withdrawal"))

/-- The next field as a list of withdrawals. -/
def readWithdrawals : FieldRead (List Withdrawal) := do mapItems itemWithdrawal (← .items)

/-- A payload with withdrawals. -/
structure WithdrawalPayload where
  block : ExecutionBlock
  transactions : List Transaction
  withdrawals : List Withdrawal
deriving DecidableEq, Inhabited

instance : Typed WithdrawalPayload where
  schema :=
    ⟨"ExecutionPayload",
      ExecutionBlock.fields ++ [
        ⟨"transactions", transactionsKind, .reject⟩,
        ⟨"withdrawals", withdrawalsKind, .reject⟩]⟩
  toRecord p :=
    p.block.toValues ++ [transactionsValue p.transactions, withdrawalsValue p.withdrawals]
  read := do
    let block ← ExecutionBlock.read
    let transactions ← readTransactions
    let withdrawals ← readWithdrawals
    return ⟨block, transactions, withdrawals⟩

end SszRecord.Beacon
