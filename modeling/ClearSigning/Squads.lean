import ClearSigning.Runtime

/-!
# Mirror of the Squads v4 account layouts

Program ids, seeds and discriminators, the stored vault transaction with its
Borsh format, and the address derivations.
-/

namespace ClearSigning

open Exec

def squadsProgramId : Pubkey := pubkey "SQDS4ep65T869zMMBKyuUq6aD6EgTu8psMjkvj52pCf"

/-- `b"multisig"` -/
def seedPrefix : Bytes := [109, 117, 108, 116, 105, 115, 105, 103]

/-- `b"transaction"` -/
def seedTransaction : Bytes := [116, 114, 97, 110, 115, 97, 99, 116, 105, 111, 110]

/-- `b"proposal"` -/
def seedProposal : Bytes := [112, 114, 111, 112, 111, 115, 97, 108]

def vaultTransactionDiscriminator : Bytes := [168, 250, 162, 100, 81, 14, 162, 207]

def ixProposalApprove : Bytes := [144, 37, 164, 136, 188, 216, 42, 248]
def ixProposalReject : Bytes := [243, 62, 134, 156, 230, 106, 246, 135]
def ixProposalCancel : Bytes := [27, 42, 127, 237, 38, 163, 84, 203]
def ixProposalCancelV2 : Bytes := [205, 41, 194, 61, 220, 139, 16, 247]

section
variable (rt : Runtime) (multisig : Pubkey) (transactionIndex : UInt64)

def deriveTransactionPda : Pubkey :=
  (rt.findProgramAddress [seedPrefix, multisig.toList, seedTransaction, leBytes 8 transactionIndex.toNat]
    squadsProgramId).1

def deriveProposalPda : Pubkey :=
  (rt.findProgramAddress
    [seedPrefix, multisig.toList, seedTransaction, leBytes 8 transactionIndex.toNat, seedProposal]
    squadsProgramId).1

end

structure MultisigCompiledInstruction where
  programIdIndex : UInt8
  accountIndexes : List UInt8
  data : Bytes
  deriving DecidableEq

structure MultisigMessageAddressTableLookup where
  accountKey : Pubkey
  writableIndexes : List UInt8
  readonlyIndexes : List UInt8
  deriving DecidableEq

structure VaultTransactionMessage where
  numSigners : UInt8
  numWritableSigners : UInt8
  numWritableNonSigners : UInt8
  accountKeys : List Pubkey
  instructions : List MultisigCompiledInstruction
  addressTableLookups : List MultisigMessageAddressTableLookup
  deriving DecidableEq

structure VaultTransaction where
  multisig : Pubkey
  creator : Pubkey
  index : UInt64
  bump : UInt8
  vaultIndex : UInt8
  vaultBump : UInt8
  ephemeralSignerBumps : List UInt8
  message : VaultTransactionMessage
  deriving DecidableEq

namespace VaultTransactionMessage

def isSignerIndex (m : VaultTransactionMessage) (index : Nat) : Bool := index < m.numSigners.toNat

def isStaticWritableIndex (m : VaultTransactionMessage) (keyIndex : Nat) : Bool :=
  if keyIndex ≥ m.accountKeys.length then false
  else if keyIndex < m.numWritableSigners.toNat then true
  else if keyIndex ≥ m.numSigners.toNat then
    -- `saturating_sub`
    keyIndex - m.numSigners.toNat < m.numWritableNonSigners.toNat
  else false

end VaultTransactionMessage

/-! ## Borsh: fields in declaration order -/

def MultisigCompiledInstruction.borsh : Codec MultisigCompiledInstruction :=
  (Codec.u8.seq (Codec.u8.vec.seq Codec.u8.vec)).map
    { toFun := fun (programIdIndex, accountIndexes, data) => ⟨programIdIndex, accountIndexes, data⟩
      invFun := fun x => (x.programIdIndex, x.accountIndexes, x.data)
      left_inv := fun _ => rfl
      right_inv := fun _ => rfl }

def MultisigMessageAddressTableLookup.borsh : Codec MultisigMessageAddressTableLookup :=
  (Pubkey.borsh.seq (Codec.u8.vec.seq Codec.u8.vec)).map
    { toFun := fun (accountKey, writableIndexes, readonlyIndexes) => ⟨accountKey, writableIndexes, readonlyIndexes⟩
      invFun := fun x => (x.accountKey, x.writableIndexes, x.readonlyIndexes)
      left_inv := fun _ => rfl
      right_inv := fun _ => rfl }

def VaultTransactionMessage.borsh : Codec VaultTransactionMessage :=
  (Codec.u8.seq (Codec.u8.seq (Codec.u8.seq (Pubkey.borsh.vec.seq
    (MultisigCompiledInstruction.borsh.vec.seq MultisigMessageAddressTableLookup.borsh.vec))))).map
    { toFun := fun (numSigners, numWritableSigners, numWritableNonSigners, accountKeys, instructions,
        addressTableLookups) =>
        ⟨numSigners, numWritableSigners, numWritableNonSigners, accountKeys, instructions, addressTableLookups⟩
      invFun := fun x => (x.numSigners, x.numWritableSigners, x.numWritableNonSigners, x.accountKeys,
        x.instructions, x.addressTableLookups)
      left_inv := fun _ => rfl
      right_inv := fun _ => rfl }

namespace VaultTransaction

def borsh : Codec VaultTransaction :=
  (Pubkey.borsh.seq (Pubkey.borsh.seq (Codec.u64.seq (Codec.u8.seq (Codec.u8.seq (Codec.u8.seq
    (Codec.u8.vec.seq VaultTransactionMessage.borsh))))))).map
    { toFun := fun (multisig, creator, index, bump, vaultIndex, vaultBump, ephemeralSignerBumps, message) =>
        ⟨multisig, creator, index, bump, vaultIndex, vaultBump, ephemeralSignerBumps, message⟩
      invFun := fun x => (x.multisig, x.creator, x.index, x.bump, x.vaultIndex, x.vaultBump,
        x.ephemeralSignerBumps, x.message)
      left_inv := fun _ => rfl
      right_inv := fun _ => rfl }

/-- `none` where a vector is too long for its `u32` count. -/
def serialize (tx : VaultTransaction) : Option Bytes := borsh.enc tx

/-- Read from raw account data, checking the discriminator; trailing bytes are left alone. -/
def deserializeChecked (data : Bytes) : Result VaultTransaction := do
  require (data.length > 8) .notAVaultTransaction
  require ((← sliceTo data 8) = vaultTransactionDiscriminator) .notAVaultTransaction
  let rest ← sliceFrom data 8
  okOr ((borsh.dec rest).map Prod.fst) .transactionDeserializationError

end VaultTransaction

end ClearSigning
