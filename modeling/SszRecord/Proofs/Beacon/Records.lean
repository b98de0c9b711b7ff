/-
Beacon chain records are the records that fit their schemas.

Every type is taken column by column.  Its schema, its records and its reader list the columns in
the same order, and the proofs list them twice more: once to follow a value through all three, and
once to put a value together from a record that fits.  Payloads and their headers begin with the
columns of a block.

* `Beacon.column_vector`, `Beacon.column_word`, `Beacon.column_uint`, `Beacon.column_bytes`,
  `Beacon.column_transactions`, `Beacon.column_withdrawals` : the columns;
* `Beacon.inStep_block`, `Beacon.forall_fieldsFit_block` : the columns of a block;
* `Beacon.records_exact` : all types are exact;
* `Beacon.sized_records` : their sizes are words.
-/
import Mathlib
import SszRecord.Beacon.Fork
import SszRecord.Beacon.Header
import SszRecord.Beacon.Withdrawal
import SszRecord.Proofs.Schema.Overflow
import SszRecord.Proofs.Typed
import SszRecord.Proofs.UInt256.Bytes

namespace SszRecord.Beacon

open Typed

/-! ### Columns -/

theorem column_vector (n : Nat) :
    Column (.bytes n) (vectorValue (n := n)) (readVector n) fun _ _ => False where
  read v rest i := by
    have hbytes : FieldRead.bytes.runAt ⟨vectorValue v :: rest, i⟩ =
        (.ok v.bytes, ⟨rest, i + 1⟩) := rfl
    rw [readVector, FieldRead.vector, FieldRead.runAt_bind_of_ok hbytes]
    simp only [ByteVector.ofBytes?_bytes, FieldRead.runAt_pure]
  check v place := by
    rw [vectorValue, Kind.check, if_pos v.length_bytes]
    exact failsWith_ok ()
  exists_of_fits v hv := by
    cases hv with
    | @bytes _ b length => exact ⟨⟨b, length⟩, rfl⟩

theorem column_word : Column wordKind .ofWord readWord fun _ _ => False where
  read w rest i := rfl
  check w place := by
    rw [wordKind, Value.ofWord, Kind.check, if_pos (UInt256.fitsWidth_eight.2 ⟨w, rfl⟩)]
    exact failsWith_ok ()
  exists_of_fits v hv := by
    cases hv with
    | @uint _ u fits =>
      obtain ⟨w, rfl⟩ := UInt256.fitsWidth_eight.1 fits
      exact ⟨w, rfl⟩

theorem column_uint : Column (.uint 32) .uint .uint fun _ _ => False where
  read u rest i := rfl
  check u place := by
    have hu : u.FitsWidth 32 := .inl le_rfl
    rw [Kind.check, if_pos hu]
    exact failsWith_ok ()
  exists_of_fits v hv := by
    cases hv with
    | @uint _ u => exact ⟨u, rfl⟩

theorem column_bytes (max : Nat) :
    Column (.byteList max) .bytes .bytes (TooLarge max) where
  read b rest i := rfl
  check b place := by
    rw [Kind.check]
    by_cases hb : b.length ≤ max
    · rw [if_pos hb]
      exact failsWith_ok ()
    · rw [if_neg hb]
      exact failsWith_error ⟨Nat.lt_of_not_le hb, rfl⟩
  exists_of_fits v hv := by
    cases hv with
    | @byteList _ b => exact ⟨b, rfl⟩

theorem column_transactions :
    Column transactionsKind transactionsValue readTransactions fun transactions e =>
      TooLong 1048576 transactions e ∨ ∃ t ∈ transactions, TooLarge 1073741824 t e :=
  (column_bytes 1073741824).list 1048576 fun _ => rfl

/-! ### Forks and headers -/

theorem exact_fork : Exact Fork fun _ _ => False := by
  refine exact_of_inStep (by decide) (fun f => ?_) ?_
  · exact .plain (column_vector 4) <| .plain (column_vector 4) <| .plain column_word <| .done f
  · exact (column_vector 4).forall_fieldsFit fun previousVersion =>
      (column_vector 4).forall_fieldsFit fun currentVersion =>
      column_word.forall_fieldsFit fun epoch =>
      Kind.forall_fieldsFit_nil ⟨⟨previousVersion, currentVersion, epoch⟩, rfl⟩

theorem exact_forkData : Exact ForkData fun _ _ => False := by
  refine exact_of_inStep (by decide) (fun f => ?_) ?_
  · exact .plain (column_vector 4) <| .plain (column_vector 32) <| .done f
  · exact (column_vector 4).forall_fieldsFit fun currentVersion =>
      (column_vector 32).forall_fieldsFit fun genesisValidatorsRoot =>
      Kind.forall_fieldsFit_nil ⟨⟨currentVersion, genesisValidatorsRoot⟩, rfl⟩

theorem exact_checkpoint : Exact Checkpoint fun _ _ => False := by
  refine exact_of_inStep (by decide) (fun c => ?_) ?_
  · exact .plain column_word <| .plain (column_vector 32) <| .done c
  · exact column_word.forall_fieldsFit fun epoch =>
      (column_vector 32).forall_fieldsFit fun root =>
      Kind.forall_fieldsFit_nil ⟨⟨epoch, root⟩, rfl⟩

theorem exact_blockHeader : Exact BlockHeader fun _ _ => False := by
  refine exact_of_inStep (by decide) (fun h => ?_) ?_
  · exact .plain column_word <| .plain column_word <| .plain (column_vector 32) <|
      .plain (column_vector 32) <| .plain (column_vector 32) <| .done h
  · exact column_word.forall_fieldsFit fun slot =>
      column_word.forall_fieldsFit fun proposerIndex =>
      (column_vector 32).forall_fieldsFit fun parentRoot =>
      (column_vector 32).forall_fieldsFit fun stateRoot =>
      (column_vector 32).forall_fieldsFit fun bodyRoot =>
      Kind.forall_fieldsFit_nil ⟨⟨slot, proposerIndex, parentRoot, stateRoot, bodyRoot⟩, rfl⟩

theorem exact_signedBlockHeader : Exact SignedBlockHeader fun _ _ => False := by
  refine exact_of_inStep (by decide) (fun h => ?_) ?_
  · exact .plain exact_blockHeader.column <| .plain (column_vector 96) <| .done h
  · exact exact_blockHeader.column.forall_fieldsFit fun message =>
      (column_vector 96).forall_fieldsFit fun signature =>
      Kind.forall_fieldsFit_nil ⟨⟨message, signature⟩, rfl⟩

/-! ### Blocks -/

theorem inStep_block {P : CodecError → Prop} (b : ExecutionBlock)
    (excess : ∀ e, TooLarge 32 b.extraData e → P e) :
    InStep P ExecutionBlock.fields b.toValues ExecutionBlock.read b :=
  .plain (column_vector 32) <| .plain (column_vector 20) <| .plain (column_vector 32) <|
  .plain (column_vector 32) <| .plain (column_vector 256) <| .plain (column_vector 32) <|
  .plain column_word <| .plain column_word <| .plain column_word <| .plain column_word <|
  .next (column_bytes 32) excess <| .plain column_uint <| .plain (column_vector 32) <| .done b

/-- To look at all values that fit a block and further fields is to look at the blocks. -/
theorem forall_fieldsFit_block {fields : List (Field Kind)} {P : List Value → Prop}
    (h : ∀ (b : ExecutionBlock) values, Kind.FieldsFit fields values → P (b.toValues ++ values)) :
    ∀ values, Kind.FieldsFit (ExecutionBlock.fields ++ fields) values → P values :=
  (column_vector 32).forall_fieldsFit fun parentHash =>
  (column_vector 20).forall_fieldsFit fun feeRecipient =>
  (column_vector 32).forall_fieldsFit fun stateRoot =>
  (column_vector 32).forall_fieldsFit fun receiptsRoot =>
  (column_vector 256).forall_fieldsFit fun logsBloom =>
  (column_vector 32).forall_fieldsFit fun prevRandao =>
  column_word.forall_fieldsFit fun blockNumber =>
  column_word.forall_fieldsFit fun gasLimit =>
  column_word.forall_fieldsFit fun gasUsed =>
  column_word.forall_fieldsFit fun timestamp =>
  (column_bytes 32).forall_fieldsFit fun extraData =>
  column_uint.forall_fieldsFit fun baseFeePerGas =>
  (column_vector 32).forall_fieldsFit fun blockHash =>
  h ⟨parentHash, feeRecipient, stateRoot, receiptsRoot, logsBloom, prevRandao, blockNumber,
    gasLimit, gasUsed, timestamp, extraData, baseFeePerGas, blockHash⟩

theorem exact_payloadHeader :
    Exact PayloadHeader fun h e => TooLarge 32 h.block.extraData e := by
  refine exact_of_inStep (by decide) (fun h => ?_) ?_
  · exact (inStep_block h.block fun _ => id).append (.plain (column_vector 32) <| .done h)
  · exact forall_fieldsFit_block fun block =>
      (column_vector 32).forall_fieldsFit fun transactionsRoot =>
      Kind.forall_fieldsFit_nil ⟨⟨block, transactionsRoot⟩, rfl⟩

theorem exact_payload : Exact Payload fun p e => TooLarge 32 p.block.extraData e ∨
    TooLong 1048576 p.transactions e ∨ ∃ t ∈ p.transactions, TooLarge 1073741824 t e := by
  refine exact_of_inStep (by decide) (fun p => ?_) ?_
  · exact (inStep_block p.block fun _ => .inl).append
      (.next column_transactions (fun _ => .inr) <| .done p)
  · exact forall_fieldsFit_block fun block =>
      column_transactions.forall_fieldsFit fun transactions =>
      Kind.forall_fieldsFit_nil ⟨⟨block, transactions⟩, rfl⟩

/-! ### Withdrawals -/

theorem exact_withdrawal : Exact Withdrawal fun _ _ => False := by
  refine exact_of_inStep (by decide) (fun w => ?_) ?_
  · exact .plain column_word <| .plain column_word <| .plain (column_vector 20) <|
      .plain column_word <| .done w
  · exact column_word.forall_fieldsFit fun index =>
      column_word.forall_fieldsFit fun validatorIndex =>
      (column_vector 20).forall_fieldsFit fun address =>
      column_word.forall_fieldsFit fun amount =>
      Kind.forall_fieldsFit_nil ⟨⟨index, validatorIndex, address, amount⟩, rfl⟩

theorem column_withdrawals :
    Column withdrawalsKind withdrawalsValue readWithdrawals fun withdrawals e =>
      TooLong 16 withdrawals e ∨ ∃ _w ∈ withdrawals, False :=
  exact_withdrawal.column.list 16 exact_withdrawal.ofRecord_toRecord

theorem exact_withdrawalPayload : Exact WithdrawalPayload fun p e =>
    TooLarge 32 p.block.extraData e ∨ TooLong 1048576 p.transactions e ∨
      (∃ t ∈ p.transactions, TooLarge 1073741824 t e) ∨ TooLong 16 p.withdrawals e := by
  refine exact_of_inStep (by decide) (fun p => ?_) ?_
  · refine (inStep_block p.block fun _ => .inl).append
      (.next column_transactions (fun e he => ?_) <|
        .next column_withdrawals (fun e he => ?_) <| .done p)
    · exact .inr (he.imp_right .inl)
    · obtain he | ⟨w, -, he⟩ := he
      · exact .inr (.inr (.inr he))
      · exact he.elim
  · exact forall_fieldsFit_block fun block =>
      column_transactions.forall_fieldsFit fun transactions =>
      column_withdrawals.forall_fieldsFit fun withdrawals =>
      Kind.forall_fieldsFit_nil ⟨⟨block, transactions, withdrawals⟩, rfl⟩

/-- **Beacon chain records are exactly the records that fit their schemas.**  Forks, checkpoints,
block headers and withdrawals always fit.  A payload or its header is refused only for extra data, a
transaction or a number of transactions or withdrawals above its maximum. -/
theorem records_exact :
    (Exact Fork fun _ _ => False) ∧ (Exact ForkData fun _ _ => False) ∧
    (Exact Checkpoint fun _ _ => False) ∧ (Exact BlockHeader fun _ _ => False) ∧
    (Exact SignedBlockHeader fun _ _ => False) ∧
    (Exact PayloadHeader fun h e => TooLarge 32 h.block.extraData e) ∧
    (Exact Payload fun p e => TooLarge 32 p.block.extraData e ∨
      TooLong 1048576 p.transactions e ∨ ∃ t ∈ p.transactions, TooLarge 1073741824 t e) ∧
    (Exact Withdrawal fun _ _ => False) ∧
    Exact WithdrawalPayload fun p e => TooLarge 32 p.block.extraData e ∨
      TooLong 1048576 p.transactions e ∨ (∃ t ∈ p.transactions, TooLarge 1073741824 t e) ∨
      TooLong 16 p.withdrawals e :=
  ⟨exact_fork, exact_forkData, exact_checkpoint, exact_blockHeader, exact_signedBlockHeader,
    exact_payloadHeader, exact_payload, exact_withdrawal, exact_withdrawalPayload⟩

/-- All sizes are words, so that words decode these types as exact sizes do
(`Schema.decodeOn_of_sized`). -/
theorem sized_records :
    (schema Fork).Sized ∧ (schema ForkData).Sized ∧ (schema Checkpoint).Sized ∧
      (schema BlockHeader).Sized ∧ (schema SignedBlockHeader).Sized ∧
      (schema PayloadHeader).Sized ∧ (schema Payload).Sized ∧ (schema Withdrawal).Sized ∧
      (schema WithdrawalPayload).Sized := by
  decide

end SszRecord.Beacon
