import ClearSigning.Args

/-!
# Validation logic

Resolving the key table of a stored message, diffing the message against the
expected instruction list, hashing a buffer's program bytes, and the shape of
the outer transaction.
-/

namespace ClearSigning

open Exec

def addressLookupTableProgramId : Pubkey := pubkey "AddressLookupTab1e1111111111111111111111111"

def computeBudgetProgramId : Pubkey := pubkey "ComputeBudget111111111111111111111111111111"

def bpfLoaderUpgradeableId : Pubkey := pubkey "BPFLoaderUpgradeab1e11111111111111111111111"

def bufferMetadataSize : Nat := 37

def bufferStateTag : Nat := 1

def lookupTableMetaSize : Nat := 56

/-! ## Lookup tables and the key table -/

/-- `u32::from_le_bytes(b.try_into().unwrap())` -/
def u32FromLeBytes (b : Bytes) : Result Nat := do
  let a ← toArray 4 b
  return leNat a.toList

theorem u32FromLeBytes_of_length {b : Bytes} (h : b.length = 4) : u32FromLeBytes b = .ok (leNat b) := by
  unfold u32FromLeBytes; rw [toArray_of_length h]; rfl

theorem u32FromLeBytes_slice_bind {α : Type} {d : Bytes} (h : 4 ≤ d.length) (f : Nat → Result α) :
    (slice d 0 4 >>= fun b => u32FromLeBytes b >>= f) = f (leNat (d.take 4)) := by
  rw [slice_of_le (Nat.zero_le _) h, ok_bind, List.drop_zero,
    u32FromLeBytes_of_length (List.length_take_of_le h), ok_bind]

/-- `l.chunks_exact(n)` -/
def chunksExact (n : Nat) (l : Bytes) : List Bytes :=
  (List.range (l.length / n)).map fun i => (l.drop (i * n)).take n

def parseLookupTableAddresses (data : Bytes) : Result (List Pubkey) := do
  require (data.length ≥ lookupTableMetaSize) .invalidLookupTableData
  let tag ← u32FromLeBytes (← slice data 0 4)
  require (tag = 1) .invalidLookupTableData
  let addresses ← sliceFrom data lookupTableMetaSize
  require (addresses.length % 32 = 0) .invalidLookupTableData
  (chunksExact 32 addresses).mapM (toArray 32)

/-- The key table of a message: `[static keys][loaded writable keys][loaded readonly keys]`. -/
structure AccountKeys where
  keys : List Pubkey
  numStatic : Nat
  numLoadedWritable : Nat
  numSigners : Nat
  numWritableSigners : Nat
  numWritableNonSigners : Nat
  deriving DecidableEq

namespace AccountKeys

/-- One of the two loading loops: push the keys that `indexes` selects, in lookup order. -/
def pushLookups (indexes : MultisigMessageAddressTableLookup → List UInt8)
    (lookups : List (MultisigMessageAddressTableLookup × List Pubkey)) (keys : List Pubkey) :
    Result (List Pubkey) :=
  lookups.foldlM (fun keys (lookup, table) =>
    (indexes lookup).foldlM (fun keys index => do
      let key ← okOr table[index.toNat]? .lookupTableIndexOutOfBounds
      return keys ++ [key]) keys) keys

def resolve (message : VaultTransactionMessage) (tables : List (List Pubkey)) : Result AccountKeys := do
  require (tables.length = message.addressTableLookups.length) .lookupTableCountMismatch
  let keys := message.accountKeys
  let numStatic := keys.length
  let keys ← pushLookups (·.writableIndexes) (message.addressTableLookups.zip tables) keys
  let numLoadedWritable ← subUsize keys.length numStatic
  let keys ← pushLookups (·.readonlyIndexes) (message.addressTableLookups.zip tables) keys
  return {
    keys, numStatic, numLoadedWritable
    numSigners := message.numSigners.toNat
    numWritableSigners := message.numWritableSigners.toNat
    numWritableNonSigners := message.numWritableNonSigners.toNat }

variable (k : AccountKeys)

def get (index : Nat) : Result Pubkey := okOr k.keys[index]? .accountIndexOutOfBounds

def isSigner (index : Nat) : Bool := index < k.numSigners

def isWritable (index : Nat) : Result Bool := do
  if index < k.numStatic then
    if index < k.numWritableSigners then
      return true
    if index ≥ k.numSigners then
      return (← subUsize index k.numSigners) < k.numWritableNonSigners
    return false
  return (← subUsize index k.numStatic) < k.numLoadedWritable

end AccountKeys

/-! ## The diff against the expected instructions -/

def validateAccount (keys : AccountKeys) (index : UInt8) (expMeta : ExpectedAccountMeta) : Result Unit := do
  let index := index.toNat
  let key ← keys.get index
  require (key = expMeta.pubkey) .accountKeyMismatch
  require ((← keys.isWritable index) = expMeta.isWritable) .accountWritableMismatch
  require (keys.isSigner index = expMeta.isSigner) .accountSignerMismatch

def validateInstruction (keys : AccountKeys) (stored : MultisigCompiledInstruction) (exp : ExpectedInstruction) :
    Result Unit := do
  let programId ← keys.get stored.programIdIndex.toNat
  require (programId = exp.programId) .programIdMismatch
  require (stored.accountIndexes.length = exp.accounts.length) .accountCountMismatch
  (stored.accountIndexes.zip exp.accounts).forM fun (index, expMeta) => validateAccount keys index expMeta
  require (stored.data = exp.data) .dataMismatch

def validateInstructions (message : VaultTransactionMessage) (keys : AccountKeys)
    (expected : List ExpectedInstruction) : Result Unit := do
  require (message.instructions.length = expected.length) .instructionCountMismatch
  (message.instructions.zip expected).forM fun (stored, exp) => validateInstruction keys stored exp

/-! ## Buffer hashing -/

abbrev Digest := List.Vector UInt8 32

/-- `l.iter().rposition(p)` -/
def rposition (p : UInt8 → Bool) (l : Bytes) : Option Nat :=
  (l.reverse.findIdx? p).map fun i => l.length - 1 - i

def trimTrailingZeros (bytes : Bytes) : Result Bytes := do
  let stop ← match rposition (· != 0) bytes with
    | some i => addUsize i 1
    | none => pure 0
  sliceTo bytes stop

def extractBufferProgramBytes (data : Bytes) : Result Bytes := do
  require (data.length ≥ bufferMetadataSize) .notABuffer
  let tag ← u32FromLeBytes (← slice data 0 4)
  require (tag = bufferStateTag) .notABuffer
  sliceFrom data bufferMetadataSize

def computeProgramHash (rt : Runtime) (programBytes : Bytes) : Result Digest := do
  return rt.sha256 (← trimTrailingZeros programBytes)

def hexNibble (c : UInt8) : Result UInt8 := do
  -- `b'0'..=b'9'`, then `b'a'..=b'f'`
  if 48 ≤ c ∧ c ≤ 57 then
    subU8 c 48
  else if 97 ≤ c ∧ c ≤ 102 then
    addU8 (← subU8 c 97) 10
  else
    fail .bufferHashMismatch

def hexToHash (s : String) : Result Digest := do
  let b := utf8 s
  require (b.length = 64) .bufferHashMismatch
  let out ← (List.range 32).foldlM (fun out i => do
    let hi ← hexNibble (← index b (2 * i))
    let lo ← hexNibble (← index b (← addUsize (2 * i) 1))
    setIndex out i ((hi <<< 4) ||| lo)) (List.replicate 32 0)
  toArray 32 out

def hexAlphabet : Bytes := [48, 49, 50, 51, 52, 53, 54, 55, 56, 57, 97, 98, 99, 100, 101, 102]

def hashToHex (hash : Digest) : Result String :=
  hash.toList.foldlM (fun s (byte : UInt8) => do
    let hi ← index hexAlphabet (byte >>> 4).toNat
    let lo ← index hexAlphabet (byte &&& 0x0f).toNat
    return (s.push (Char.ofNat hi.toNat)).push (Char.ofNat lo.toNat)) ""

/-! ## The shape of the outer transaction -/

structure VoteExpectation where
  selfProgram : Pubkey
  multisig : Pubkey
  proposal : Pubkey
  member : Pubkey
  action : ProposalAction
  deriving DecidableEq

def validateVote (expectation : VoteExpectation) (ix : Instruction) : Result Unit := do
  require (8 ≤ ix.data.length) .unexpectedSquadsInstruction
  require ((← sliceTo ix.data 8) = expectation.action.discriminator) .unexpectedSquadsInstruction
  -- 0 = multisig, 1 = member (signer), 2 = proposal
  require (3 ≤ ix.accounts.length) .malformedVoteInstruction
  require ((← index ix.accounts 0).pubkey = expectation.multisig) .voteMultisigMismatch
  require ((← index ix.accounts 1).pubkey = expectation.member) .voteMemberMismatch
  require ((← index ix.accounts 1).isSigner = true) .voteMemberNotSigner
  require ((← index ix.accounts 2).pubkey = expectation.proposal) .voteProposalMismatch

/-- The loop body: the number of votes after one more top-level instruction. -/
def countVote (expectation : VoteExpectation) (votes : Nat) (ix : Instruction) : Result Nat := do
  if ix.programId = expectation.selfProgram ∨ ix.programId = computeBudgetProgramId then
    return votes
  if ix.programId = squadsProgramId then
    validateVote expectation ix
    return (← addUsize votes 1)
  fail .forbiddenInstruction

def validateTransactionShape (topLevel : List Instruction) (expectation : VoteExpectation) : Result Unit := do
  let votes ← topLevel.foldlM (countVote expectation) 0
  require (1 ≤ votes) .missingVoteInstruction

end ClearSigning
