import ClearSigning.Idl
import ClearSigning.Scripts

/-!
# The approval scripts

The transactions that `approve-clearsign.cjs` and `approve-clearsign-v1.cjs`
build from a stored vault transaction, honest or tampered with, and the exit
they take on what became of them; and the transaction that the wallet of the
README builds. A thrown exception is `none`.
-/

namespace ClearSigning

/-- Calls into the Squads SDK and `web3.js`. -/
structure Sdk where
  getTransactionPda : Pubkey → UInt64 → Pubkey
  proposalApprove : Pubkey → UInt64 → Pubkey → Instruction
  setComputeUnitLimit : Nat → Instruction

structure Environment where
  wallet : Pubkey
  multisig : Pubkey
  txIndex : UInt64
  /-- `BUFFER`, with the bytes of `SO_FILE` -/
  buffer : Option (Pubkey × Bytes)
  tamper : String

/-- The printing of `expected`, where `programId.toBase58()` throws on `undefined`. -/
def printed (expected : List Js.ExpectedInstruction) : Option (List Js.ExpectedInstruction) :=
  if expected.all (·.programId.isSome) then some expected else none

/-- `expected[0].data[0] ^= 0xff`: there is no first instruction to assign to, or no first byte. -/
def flipByte : List Js.ExpectedInstruction → Option (List Js.ExpectedInstruction)
  | [] => none
  | ix :: rest => some ({ ix with data := ix.data.modifyHead (· ^^^ 0xff) } :: rest)

section
variable (sha256 : Bytes → Bytes) (sdk : Sdk) (coder : Coder) (env : Environment) (vaultTx : VaultTransaction)

/-- The `verifyBufferHash` call, when `BUFFER` is set. -/
def bufferCheck (expectedHash : Bytes → String) : Option (List Instruction) :=
  match env.buffer with
  | none => some []
  | some (buffer, so) => do
    let args : VerifyBufferHashArgs := { buffer, expectedHash := expectedHash so }
    let ix ← coder.instruction "verify_buffer_hash" [("args", args.display)] [buffer] []
    return [ix]

def tampered (expected : List Js.ExpectedInstruction) : Option (List Js.ExpectedInstruction) :=
  if env.tamper = "data" then flipByte expected else some expected

def ApproveClearsign.budget : List Instruction :=
  if env.buffer.isSome then [sdk.setComputeUnitLimit 1400000] else []

/-- The argument of the `verifyProposal` call. -/
def ApproveClearsign.args (expected : List Js.ExpectedInstruction) : Js.VerifyProposalArgs where
  multisig := env.multisig
  transactionIndex := env.txIndex.toNat
  vaultIndex := vaultTx.vaultIndex.toNat
  numEphemeralSigners := vaultTx.ephemeralSignerBumps.length
  member := env.wallet
  action := .approve
  instructions := expected

def ApproveClearsign.instructions : Option (List Instruction) := do
  let transactionPda := sdk.getTransactionPda env.multisig env.txIndex
  let expected ← ApproveClearsign.buildExpected vaultTx.message
  let expected ← printed expected
  let check ← bufferCheck coder env (ApproveClearsign.expectedHash sha256 env.tamper)
  let expected ← tampered env expected
  let args := ApproveClearsign.args env vaultTx expected
  let verify ← coder.instruction "verify_proposal" [("args", args.display)] [transactionPda, instructionsSysvarId] []
  return ApproveClearsign.budget sdk env ++ check ++ [verify, sdk.proposalApprove env.multisig env.txIndex env.wallet]

end

/-! ## `approve-clearsign-v1.cjs` -/

inductive AccountRole where
  | readonly
  | writable
  | readonlySigner
  | writableSigner
  deriving DecidableEq

structure KitAccount where
  address : Pubkey
  role : AccountRole
  deriving DecidableEq

structure KitInstruction where
  programAddress : Pubkey
  accounts : List KitAccount
  data : Bytes
  deriving DecidableEq

def accountRole (k : AccountMeta) : AccountRole :=
  if k.isSigner then if k.isWritable then .writableSigner else .readonlySigner
  else if k.isWritable then .writable else .readonly

def toKitIx (ix : Instruction) : KitInstruction where
  programAddress := ix.programId
  accounts := ix.accounts.map fun k => { address := k.pubkey, role := accountRole k }
  data := ix.data

section
variable (sha256 : Bytes → Bytes) (sdk : Sdk) (coder : Coder) (env : Environment) (vaultTx : VaultTransaction)

def ApproveClearsignV1.args (expected : List Js.ExpectedInstruction) : EncoderArgs where
  multisig := env.multisig
  transactionIndex := env.txIndex.toNat
  vaultIndex := vaultTx.vaultIndex.toNat
  numEphemeralSigners := vaultTx.ephemeralSignerBumps.length
  member := env.wallet
  actionIndex := actionIndex .approve
  instructions := expected

def ApproveClearsignV1.instructions : Option (List KitInstruction) := do
  let transactionPda := sdk.getTransactionPda env.multisig env.txIndex
  let expected ← ApproveClearsignV1.buildExpected vaultTx.message
  let expected ← printed expected
  let check ← bufferCheck coder env (ApproveClearsignV1.expectedHash sha256 env.tamper)
  let expected ← tampered env expected
  let verify ← encodeVerifyProposalIx idl.address (ApproveClearsignV1.args env vaultTx expected) [
    { pubkey := transactionPda, isSigner := false, isWritable := false },
    { pubkey := instructionsSysvarId, isSigner := false, isWritable := false }]
  return (check ++ [verify, sdk.proposalApprove env.multisig env.txIndex env.wallet]).map toKitIx

end

/-! ## The wallet of the README -/

def Wallet.instructions (sdk : Sdk) (coder : Coder) (multisigPda : Pubkey) (index : UInt64)
    (txAccount : VaultTransaction) (tables : List (List Pubkey)) (memberPubkey : Pubkey) :
    Option (List Instruction) := do
  let txPda := sdk.getTransactionPda multisigPda index
  let args := Wallet.args multisigPda index txAccount tables memberPubkey .approve
  let verifyIx ← coder.instruction "verify_proposal" [("args", args.display)] [txPda, instructionsSysvarId]
    (Wallet.remainingAccounts txAccount.message)
  return [verifyIx, sdk.proposalApprove multisigPda index memberPubkey]

/-! ## Compilation -/

def AccountRole.isSigner (r : AccountRole) : Bool := r = .readonlySigner || r = .writableSigner

def AccountRole.isWritable (r : AccountRole) : Bool := r = .writable || r = .writableSigner

/-- What a role asks for. -/
def KitInstruction.plain (ix : KitInstruction) : Instruction where
  programId := ix.programAddress
  accounts := ix.accounts.map fun a =>
    { pubkey := a.address, isSigner := a.role.isSigner, isWritable := a.role.isWritable }
  data := ix.data

/-- What a transaction keeps of an instruction it is compiled from; an account it signs for elsewhere is a signer
here as well. -/
structure Instruction.CompilesTo (ix ix' : Instruction) : Prop where
  programId : ix'.programId = ix.programId
  data : ix'.data = ix.data
  accounts : List.Forall₂ (fun m m' : AccountMeta => m'.pubkey = m.pubkey ∧ (m.isSigner = true → m'.isSigner = true))
    ix.accounts ix'.accounts

/-- The addresses and the layout of a vote in Squads v4, and the program of a compute-budget instruction. -/
structure Sdk.Lawful (sdk : Sdk) (rt : Runtime) : Prop where
  getTransactionPda : ∀ multisig index, sdk.getTransactionPda multisig index = deriveTransactionPda rt multisig index
  proposalApprove : ∀ multisig index member, ∃ args, sdk.proposalApprove multisig index member = {
    programId := squadsProgramId
    accounts := [
      { pubkey := multisig, isSigner := false, isWritable := false },
      { pubkey := member, isSigner := true, isWritable := true },
      { pubkey := deriveProposalPda rt multisig index, isSigner := false, isWritable := true }]
    data := ixProposalApprove ++ args }
  setComputeUnitLimit : ∀ units, (sdk.setComputeUnitLimit units).programId = computeBudgetProgramId

/-! ## What became of the transaction -/

end ClearSigning
