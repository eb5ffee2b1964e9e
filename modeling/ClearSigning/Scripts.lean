import ClearSigning.Args

/-!
# The client scripts

What the wallet side computes: the expansion of a stored message into the
expected instruction list, the hand-written encoding of `verify_proposal`'s
data, and the hash of a build. A key that is `undefined` is `none`, and stays in
the list it stands in; a thrown exception is a result `none`.
-/

namespace ClearSigning

/-! ## The objects the scripts hold -/

namespace Js

/-- `{ pubkey, isSigner, isWritable }` -/
structure ExpectedAccountMeta where
  pubkey : Option Pubkey
  isSigner : Bool
  isWritable : Bool

/-- `{ programId, accounts, data }` -/
structure ExpectedInstruction where
  programId : Option Pubkey
  accounts : List ExpectedAccountMeta
  data : Bytes

/-- The argument of `program.methods.verifyProposal`: the counts are numbers. -/
structure VerifyProposalArgs where
  multisig : Pubkey
  transactionIndex : Nat
  vaultIndex : Nat
  numEphemeralSigners : Nat
  member : Pubkey
  action : ProposalAction
  instructions : List ExpectedInstruction

end Js

def ExpectedAccountMeta.toJs (x : ExpectedAccountMeta) : Js.ExpectedAccountMeta where
  pubkey := some x.pubkey
  isSigner := x.isSigner
  isWritable := x.isWritable

def ExpectedInstruction.toJs (x : ExpectedInstruction) : Js.ExpectedInstruction where
  programId := some x.programId
  accounts := x.accounts.map ExpectedAccountMeta.toJs
  data := x.data

def VerifyProposalArgs.toJs (args : VerifyProposalArgs) : Js.VerifyProposalArgs where
  multisig := args.multisig
  transactionIndex := args.transactionIndex.toNat
  vaultIndex := args.vaultIndex.toNat
  numEphemeralSigners := args.numEphemeralSigners.toNat
  member := args.member
  action := args.action
  instructions := args.instructions.map ExpectedInstruction.toJs

/-! ## `encodeVerifyProposalIx` of `approve-clearsign-v1.cjs` -/

def verifyProposalDisc : Bytes := [54, 140, 57, 70, 243, 157, 30, 124]

def actionIndex : ProposalAction → Nat
  | .approve => 0
  | .reject => 1
  | .cancel => 2
  | .cancelV2 => 3

/-- The encoder's argument object: `transactionIndex` is a `BigInt`, the counts are numbers. -/
structure EncoderArgs where
  multisig : Pubkey
  transactionIndex : Int
  vaultIndex : Nat
  numEphemeralSigners : Nat
  member : Pubkey
  actionIndex : Nat
  instructions : List Js.ExpectedInstruction

namespace EncoderArgs

/-- `Buffer.from([n])` -/
def u8 (n : Nat) : Bytes := [UInt8.ofNat n]

/-- `b.writeUInt32LE(n >>> 0)` -/
def u32 (n : Nat) : Bytes := leBytes 4 (n % 2 ^ 32)

/-- `b.writeBigUInt64LE(BigInt(n))`, which throws outside the range -/
def u64 (n : Int) : Option Bytes := if 0 ≤ n ∧ n < 2 ^ 64 then some (leBytes 8 n.toNat) else none

/-- `p.toBuffer()`, which throws on `undefined` -/
def pk (p : Option Pubkey) : Option Bytes := p.map (·.toList)

def vecU8 (buf : Bytes) : Bytes := u32 buf.length ++ buf

def account (a : Js.ExpectedAccountMeta) : Option Bytes := do
  let pubkey ← pk a.pubkey
  return pubkey ++ u8 (if a.isSigner then 1 else 0) ++ u8 (if a.isWritable then 1 else 0)

def instruction (ix : Js.ExpectedInstruction) : Option Bytes := do
  let accts ← ix.accounts.mapM account
  let programId ← pk ix.programId
  return programId ++ u32 ix.accounts.length ++ accts.flatten ++ vecU8 ix.data

end EncoderArgs

open EncoderArgs in
def encodeVerifyProposalIx (programId : Pubkey) (args : EncoderArgs) (keys : List AccountMeta) :
    Option Instruction := do
  let transactionIndex ← u64 args.transactionIndex
  let head := args.multisig.toList ++ transactionIndex ++ u8 args.vaultIndex ++ u8 args.numEphemeralSigners ++
    args.member.toList ++ u8 args.actionIndex
  let ixBufs ← args.instructions.mapM instruction
  let data := verifyProposalDisc ++ head ++ u32 ixBufs.length ++ ixBufs.flatten
  return { programId, accounts := keys, data }

/-- With the action through `ACTION_INDEX`. -/
def VerifyProposalArgs.toEncoder (args : VerifyProposalArgs) : EncoderArgs where
  multisig := args.multisig
  transactionIndex := args.transactionIndex.toNat
  vaultIndex := args.vaultIndex.toNat
  numEphemeralSigners := args.numEphemeralSigners.toNat
  member := args.member
  actionIndex := ClearSigning.actionIndex args.action
  instructions := args.instructions.map ExpectedInstruction.toJs

/-! ## Expanding a stored message -/

/-- `message.instructions.map(…)`; an index past the end of the key array gives `undefined`. -/
def expandWith (keys : List (Option Pubkey)) (isSigner isWritable : Nat → Bool)
    (message : VaultTransactionMessage) : List Js.ExpectedInstruction :=
  message.instructions.map fun ix => {
    programId := keys[ix.programIdIndex.toNat]?.join
    accounts := ix.accountIndexes.map fun i =>
      { pubkey := keys[i.toNat]?.join, isSigner := isSigner i.toNat, isWritable := isWritable i.toNat }
    data := ix.data }

/-- The body the three scripts share: static keys only. -/
def expandStatic (message : VaultTransactionMessage) : List Js.ExpectedInstruction :=
  let numSigners := message.numSigners.toNat
  let isSigner := fun i => decide (i < numSigners)
  let isWritable := fun i => decide (i < message.numWritableSigners.toNat) ||
    (decide (i ≥ numSigners) && decide (i - numSigners < message.numWritableNonSigners.toNat))
  expandWith (message.accountKeys.map some) isSigner isWritable message

def ApproveClearsign.buildExpected (message : VaultTransactionMessage) : Option (List Js.ExpectedInstruction) :=
  if message.addressTableLookups.length > 0 then none else some (expandStatic message)

def ApproveClearsignV1.buildExpected (message : VaultTransactionMessage) : Option (List Js.ExpectedInstruction) :=
  if message.addressTableLookups.length > 0 then none else some (expandStatic message)

/-- This one does not refuse lookup tables. -/
def E2e.buildExpected (message : VaultTransactionMessage) : List Js.ExpectedInstruction := expandStatic message

/-! ## The wallet algorithm of the README

The lists of indexes are arrays here, as `Array.from` makes them in the scripts.
-/

namespace Wallet

variable (message : VaultTransactionMessage) (tables : List (List Pubkey))

/-- `msg.addressTableLookups.flatMap((l, i) => indexes(l).map(x => altAccounts[i]….addresses[x]))` -/
def loaded (indexes : MultisigMessageAddressTableLookup → List UInt8) : List (Option Pubkey) :=
  (message.addressTableLookups.zip tables).flatMap fun (l, table) => (indexes l).map fun x => table[x.toNat]?

def keys : List (Option Pubkey) :=
  message.accountKeys.map some ++ loaded message tables (·.writableIndexes) ++
    loaded message tables (·.readonlyIndexes)

def isSigner (i : Nat) : Bool := i < message.numSigners.toNat

def isWritable (i : Nat) : Bool :=
  if i < message.accountKeys.length then
    decide (i < message.numWritableSigners.toNat) ||
      (decide (i ≥ message.numSigners.toNat) &&
        decide (i - message.numSigners.toNat < message.numWritableNonSigners.toNat))
  else decide (i - message.accountKeys.length < (loaded message tables (·.writableIndexes)).length)

def expectedInstructions : List Js.ExpectedInstruction :=
  expandWith (keys message tables) (isSigner message) (isWritable message tables) message

/-- The argument of the `verifyProposal` call. -/
def args (multisigPda : Pubkey) (index : UInt64) (txAccount : VaultTransaction) (tables : List (List Pubkey))
    (memberPubkey : Pubkey) (action : ProposalAction) : Js.VerifyProposalArgs where
  multisig := multisigPda
  transactionIndex := index.toNat
  vaultIndex := txAccount.vaultIndex.toNat
  numEphemeralSigners := txAccount.ephemeralSignerBumps.length
  member := memberPubkey
  action
  instructions := expectedInstructions txAccount.message tables

def remainingAccounts : List AccountMeta :=
  message.addressTableLookups.map fun l => { pubkey := l.accountKey, isSigner := false, isWritable := false }

end Wallet

/-! ## Hashing a build -/

/-- `while (end > 0 && bytes[end - 1] === 0) end--` -/
def trimEnd (bytes : Bytes) : Nat → Nat
  | 0 => 0
  | stop + 1 => if bytes[stop]? = some 0 then trimEnd bytes stop else stop + 1

/-- The `trim` the three scripts share. -/
def trimScript (bytes : Bytes) : Bytes := bytes.take (trimEnd bytes bytes.length)

/-- One hex character replaced: `e` for `f`, `f` for any other. -/
def tamperHash (expectedHash : String) : String :=
  let r := if expectedHash.toList[5]? = some 'f' then 'e' else 'f'
  String.ofList (expectedHash.toList.take 5 ++ [r] ++ expectedHash.toList.drop 6)

section
variable (sha256 : Bytes → Bytes) (tamper : String) (so : Bytes)

/-- The hash both approval scripts put in the arguments for the file `so`, under `TAMPER`. -/
def expectedHashScript (trim : Bytes → Bytes) : String :=
  let expectedHash := hexString (sha256 (trim so))
  if tamper = "hash" then tamperHash expectedHash else expectedHash

def ApproveClearsign.trim (bytes : Bytes) : Bytes := trimScript bytes

def ApproveClearsign.expectedHash : String := expectedHashScript sha256 tamper so ApproveClearsign.trim

def ApproveClearsignV1.trim (bytes : Bytes) : Bytes := trimScript bytes

def ApproveClearsignV1.expectedHash : String := expectedHashScript sha256 tamper so ApproveClearsignV1.trim

end

namespace ProgramHash

def bufferMetadataSize : Nat := 37

def trim (bytes : Bytes) : Bytes := trimScript bytes

def digest (algo : Bytes → Bytes) (bytes : Bytes) : String := hexString (algo (trim bytes))

/-- What `--buffer` prints for an account's data. -/
def buffer (algo : Bytes → Bytes) (data : Bytes) : Option String :=
  -- `readUInt32LE` throws on fewer than four bytes
  if 4 ≤ data.length ∧ leNat (data.take 4) = 1 then some (digest algo (data.drop bufferMetadataSize)) else none

def programdataMetadataSize : Nat := 45

/-- `new PublicKey(data.subarray(4, 36))`; a shorter slice is padded in front. -/
def programDataKey (data : Bytes) : Pubkey :=
  let b := (data.drop 4).take 32
  ⟨List.replicate (32 - b.length) 0 ++ b, by
    simp only [b, List.length_append, List.length_replicate, List.length_take]; omega⟩

/-- The file system, the cluster and the libraries a run of the script uses. -/
structure Host where
  readFileSync : String → Option Bytes
  publicKey : String → Option Pubkey
  getAccountInfo : Pubkey → Option Bytes
  createHash : String → Bytes → Bytes

def isFlag (a : String) : Bool := "--".toList.isPrefixOf a.toList

/-- The line printed for the arguments `args`; a thrown exception is `none`. -/
def main (host : Host) (args : List String) : Option String := do
  let algo := host.createHash (if "--sha512" ∈ args then "sha512" else "sha256")
  let target ← (args.filter (!isFlag ·)).head?
  if target = "" then none
  else if "--file" ∈ args then
    let file ← host.readFileSync target
    return digest algo file
  else
    let key ← host.publicKey target
    let data ← host.getAccountInfo key
    if "--buffer" ∈ args then buffer algo data
    else if 4 ≤ data.length ∧ leNat (data.take 4) = 2 then
      let pd ← host.getAccountInfo (programDataKey data)
      return digest algo (pd.drop programdataMetadataSize)
    else none

end ProgramHash

end ClearSigning
