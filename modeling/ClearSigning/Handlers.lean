import ClearSigning.Validation

/-!
# The two instructions

Handlers over validated accounts, and the dispatch of an instruction's data and
accounts to them.
-/

namespace ClearSigning

open Exec

def programId : Pubkey := pubkey "7xs3LhQjKoCGfXm2qst7LUhismrG1bGxz5Jw6AHij7eu"

/-- The accounts of `verify_proposal`, with the address constraint on the sysvar. -/
structure VerifyProposal where
  transaction : AccountInfo
  instructionsSysvar : AccountInfo
  address : instructionsSysvar.key = instructionsSysvarId

structure VerifyBufferHash where
  buffer : AccountInfo

structure Context (α : Type) where
  accounts : α
  remainingAccounts : List AccountInfo

section
variable (rt : Runtime)

/-- The address of a table account and its owner are checked before its contents. -/
def readLookupTable (account : AccountInfo) (lookup : MultisigMessageAddressTableLookup) :
    Result (List Pubkey) := do
  require (account.key = lookup.accountKey) .lookupTableAddressMismatch
  require (account.owner = addressLookupTableProgramId) .invalidLookupTableOwner
  parseLookupTableAddresses account.data.toList

def readTopLevel (sysvar : AccountInfo) : Result (List Instruction) := do
  let data := sysvar.data.toList
  require (data.length ≥ 2) .instructionsSysvarError
  let numInstructions := leNat [← index data 0, ← index data 1]
  (List.range numInstructions).mapM fun i =>
    okOr (rt.loadInstructionAtChecked i sysvar) .instructionsSysvarError

def verifyProposal (ctx : Context VerifyProposal) (args : VerifyProposalArgs) : Result Unit := do
  -- 1. the canonical address for (multisig, transaction index), owned by Squads
  let transactionPda := deriveTransactionPda rt args.multisig args.transactionIndex
  require (ctx.accounts.transaction.key = transactionPda) .transactionPdaMismatch
  require (ctx.accounts.transaction.owner = squadsProgramId) .invalidTransactionOwner
  let proposalPda := deriveProposalPda rt args.multisig args.transactionIndex
  -- 2. the stored vault transaction
  let vaultTx ← VaultTransaction.deserializeChecked ctx.accounts.transaction.data.toList
  require (vaultTx.multisig = args.multisig) .multisigMismatch
  require (vaultTx.index = args.transactionIndex) .transactionIndexMismatch
  require (vaultTx.vaultIndex = args.vaultIndex) .vaultIndexMismatch
  require (vaultTx.ephemeralSignerBumps.length = args.numEphemeralSigners.toNat) .ephemeralSignersMismatch
  -- 3. the key table, through the lookup tables passed as remaining accounts
  let lookups := vaultTx.message.addressTableLookups
  require (ctx.remainingAccounts.length = lookups.length) .lookupTableCountMismatch
  let tables ← (ctx.remainingAccounts.zip lookups).mapM fun (account, lookup) => readLookupTable account lookup
  let keys ← AccountKeys.resolve vaultTx.message tables
  -- 4. the diff against what the signer saw
  validateInstructions vaultTx.message keys args.instructions
  -- 5. the shape of the outer transaction
  let topLevel ← readTopLevel rt ctx.accounts.instructionsSysvar
  validateTransactionShape topLevel
    { selfProgram := programId
      multisig := args.multisig
      proposal := proposalPda
      member := args.member
      action := args.action }

def verifyBufferHash (ctx : Context VerifyBufferHash) (args : VerifyBufferHashArgs) : Result Unit := do
  let buffer := ctx.accounts.buffer
  require (buffer.key = args.buffer) .bufferKeyMismatch
  require (buffer.owner = bpfLoaderUpgradeableId) .invalidBufferOwner
  let programBytes ← extractBufferProgramBytes buffer.data.toList
  let hash ← computeProgramHash rt programBytes
  let expected ← hexToHash args.expectedHash
  if hash ≠ expected then
    -- the computed digest is logged
    let _ ← hashToHex hash
    fail .bufferHashMismatch
  -- so is the trimmed length
  let _ ← trimTrailingZeros programBytes

end

/-! ## Dispatch -/

def verifyProposalDiscriminator : Bytes := [54, 140, 57, 70, 243, 157, 30, 124]

def verifyBufferHashDiscriminator : Bytes := [69, 97, 12, 142, 117, 173, 124, 31]

/-- `EVENT_IX_TAG_LE`: the framework keeps these eight bytes for event instructions. -/
def eventIxTag : Bytes := [228, 69, 165, 46, 81, 203, 154, 29]

def report {α : Type} : Result α → Exec Error α
  | .ok a => .ok a
  | .error (.err e) => fail (.clearSigning e)
  | .error .panic => panic

def VerifyProposal.tryAccounts : List AccountInfo → Exec Error (Context VerifyProposal)
  | transaction :: sysvar :: rest =>
    if h : sysvar.key = instructionsSysvarId then .ok ⟨⟨transaction, sysvar, h⟩, rest⟩
    else fail (.clearSigning .instructionsSysvarError)
  | _ => fail .accountNotEnoughKeys

def VerifyBufferHash.tryAccounts : List AccountInfo → Exec Error (Context VerifyBufferHash)
  | buffer :: rest => .ok ⟨⟨buffer⟩, rest⟩
  | _ => fail .accountNotEnoughKeys

/-- The arguments after the discriminator; bytes past them are not looked at. -/
def decodeArgs {α : Type} (c : Codec α) (data : Bytes) : Exec Error α :=
  okOr ((c.dec (data.drop 8)).map Prod.fst) .instructionDidNotDeserialize

def entry (rt : Runtime) (accounts : List AccountInfo) (data : Bytes) : Exec Error Unit := do
  if verifyProposalDiscriminator.isPrefixOf data then
    let args ← decodeArgs VerifyProposalArgs.borsh data
    let ctx ← VerifyProposal.tryAccounts accounts
    report (verifyProposal rt ctx args)
  else if verifyBufferHashDiscriminator.isPrefixOf data then
    let args ← decodeArgs VerifyBufferHashArgs.borsh data
    let ctx ← VerifyBufferHash.tryAccounts accounts
    report (verifyBufferHash rt ctx args)
  else if eventIxTag.isPrefixOf data then
    -- the program does not enable event instructions
    fail .eventInstructionStub
  else
    fail .instructionFallbackNotFound

end ClearSigning
