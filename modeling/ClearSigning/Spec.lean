import ClearSigning.Validation

/-!
# What a signer is shown

The content behind a proposal, as a partial function of the chain's accounts: the
stored transaction at the canonical address, with every index expanded through
the static keys and the lookup tables. The handlers are measured against it.
-/

namespace ClearSigning

/-! ## The key table and the flags -/

section
variable (message : VaultTransactionMessage) (tables : List (List Pubkey))

def lookedUp (indexes : MultisigMessageAddressTableLookup → List UInt8)
    (lookups : List (MultisigMessageAddressTableLookup × List Pubkey)) : List (Option Pubkey) :=
  lookups.flatMap fun lt => (indexes lt.1).map fun i => lt.2[i.toNat]?

def loadedWritable : List (Option Pubkey) := lookedUp (·.writableIndexes) (message.addressTableLookups.zip tables)

def loadedReadonly : List (Option Pubkey) := lookedUp (·.readonlyIndexes) (message.addressTableLookups.zip tables)

def keyTable : List (Option Pubkey) :=
  message.accountKeys.map some ++ loadedWritable message tables ++ loadedReadonly message tables

def writableAt (i : Nat) : Bool :=
  message.isStaticWritableIndex i ||
    (decide (message.accountKeys.length ≤ i) &&
      decide (i < message.accountKeys.length + (loadedWritable message tables).length))

/-! ## The expansion of a stored message -/

def expandAccount (i : UInt8) : Option ExpectedAccountMeta :=
  (keyTable message tables)[i.toNat]?.join.map fun pubkey =>
    { pubkey, isSigner := message.isSignerIndex i.toNat, isWritable := writableAt message tables i.toNat }

def expandInstruction (ix : MultisigCompiledInstruction) : Option ExpectedInstruction := do
  let programId ← (keyTable message tables)[ix.programIdIndex.toNat]?.join
  let accounts ← ix.accountIndexes.mapM (expandAccount message tables)
  return { programId, accounts, data := ix.data }

/-- Defined where there is a table for each lookup, every lookup index is inside its table,
and every index an instruction uses is inside the key table. -/
def expansion : Option (List ExpectedInstruction) :=
  if tables.length = message.addressTableLookups.length ∧ (keyTable message tables).all Option.isSome then
    message.instructions.mapM (expandInstruction message tables)
  else none

end

/-! ## Stored content -/

structure AccountState where
  owner : Pubkey
  data : Exec.Slice UInt8
  deriving DecidableEq

abbrev Ledger := Pubkey → AccountState

def Ledger.info (L : Ledger) (key : Pubkey) : AccountInfo where
  key
  owner := (L key).owner
  data := (L key).data

def Ledger.table (L : Ledger) (key : Pubkey) : Option (List Pubkey) :=
  if (L key).owner = addressLookupTableProgramId then
    (parseLookupTableAddresses (L key).data.toList).toOption
  else none

/-- What the arguments of `verify_proposal` say about the transaction voted on. -/
structure Content where
  vaultIndex : UInt8
  numEphemeralSigners : Nat
  instructions : List ExpectedInstruction
  deriving DecidableEq

def VerifyProposalArgs.content (args : VerifyProposalArgs) : Content where
  vaultIndex := args.vaultIndex
  numEphemeralSigners := args.numEphemeralSigners.toNat
  instructions := args.instructions

def Ledger.vaultTransaction (rt : Runtime) (L : Ledger) (multisig : Pubkey) (transactionIndex : UInt64) :
    Option VaultTransaction := do
  let account := L (deriveTransactionPda rt multisig transactionIndex)
  let tx ← (VaultTransaction.deserializeChecked account.data.toList).toOption
  if account.owner = squadsProgramId ∧ tx.multisig = multisig ∧ tx.index = transactionIndex then some tx else none

def Ledger.content (L : Ledger) (tx : VaultTransaction) : Option Content := do
  let tables ← tx.message.addressTableLookups.mapM fun l => L.table l.accountKey
  let instructions ← expansion tx.message tables
  return {
    vaultIndex := tx.vaultIndex
    numEphemeralSigners := tx.ephemeralSignerBumps.length
    instructions }

/-! ## A stored transfer -/

namespace Transfer

def multisig : Pubkey := List.Vector.replicate 32 4

def member : Pubkey := List.Vector.replicate 32 5

def vault : Pubkey := List.Vector.replicate 32 6

def recipient : Pubkey := List.Vector.replicate 32 7

def lookupTable : Pubkey := List.Vector.replicate 32 8

def systemProgram : Pubkey := List.Vector.replicate 32 0

/-- One lamport from the vault to a recipient that is looked up. -/
def message : VaultTransactionMessage where
  numSigners := 1
  numWritableSigners := 1
  numWritableNonSigners := 0
  accountKeys := [vault, systemProgram]
  instructions := [{
    programIdIndex := 1
    accountIndexes := [0, 2]
    data := leBytes 4 2 ++ leBytes 8 1 }]
  addressTableLookups := [{ accountKey := lookupTable, writableIndexes := [0], readonlyIndexes := [] }]

def instructions : List ExpectedInstruction := [{
  programId := systemProgram
  accounts := [
    { pubkey := vault, isSigner := true, isWritable := true },
    { pubkey := recipient, isSigner := false, isWritable := true }]
  data := leBytes 4 2 ++ leBytes 8 1 }]

example : expansion message [[recipient]] = some instructions := by decide +kernel

def tx : VaultTransaction where
  multisig := multisig
  creator := member
  index := 1
  bump := 254
  vaultIndex := 0
  vaultBump := 255
  ephemeralSignerBumps := []
  message := message

def args : VerifyProposalArgs where
  multisig := multisig
  transactionIndex := 1
  vaultIndex := 0
  numEphemeralSigners := 0
  member := member
  action := .approve
  instructions := instructions

/-- A table account holding `addresses` after the meta bytes `m`. -/
def tableData (m : Bytes) (addresses : List Pubkey) : Bytes := leBytes 4 1 ++ m ++ addresses.flatMap List.Vector.toList

end Transfer

end ClearSigning
