import ClearSigning.Lib.Schema
import ClearSigning.Handlers
import ClearSigning.Scripts

/-!
# The published interface

`idl/squads_clear_signing.json`, and what is assumed of the two programs that
have only this file: a signing device, which reads a call out of an
instruction's data, and the client's coder, which writes one.
-/

namespace ClearSigning

open Schema

structure IdlAccount where
  name : String
  writable : Bool := false
  signer : Bool := false

structure IdlInstruction where
  name : String
  discriminator : Bytes
  accounts : List IdlAccount
  args : List (String × Ty)

structure Idl where
  address : Pubkey
  instructions : List IdlInstruction
  types : Types

/-- The declared format of an instruction's named arguments. The deepest of the file is six levels down. -/
def Idl.argsCodec (idl : Idl) (ix : IdlInstruction) : Codec (List (String × Value)) :=
  fieldsCodec (Ty.codec idl.types 6) ix.args

/-- What a device shows of an instruction's data: the instruction's name and its named arguments, or nothing. -/
abbrev Decoder := Bytes → Option (String × List (String × Value))

/-- A device shows every call that is encoded as declared, and nothing that the data do not start with. -/
structure Decoder.Follows (device : Decoder) (idl : Idl) : Prop where
  shows : ∀ ix ∈ idl.instructions, ∀ fields e, (idl.argsCodec ix).enc fields = some e →
    device (ix.discriminator ++ e) = some (ix.name, fields)
  reads : ∀ data name fields, device data = some (name, fields) → ∃ ix ∈ idl.instructions, ix.name = name ∧
    ∃ e rest, (idl.argsCodec ix).enc fields = some e ∧ data = ix.discriminator ++ e ++ rest

/-- `program.methods.name(fields).accounts(accounts).remainingAccounts(remaining).instruction()` of
`@anchor-lang/core`, with the accounts in the file's order; the arguments are written into a buffer of `capacity`
bytes. -/
structure Coder where
  capacity : Nat
  instruction : String → List (String × Value) → List Pubkey → List AccountMeta → Option Instruction

/-- The coder writes arguments of the declared types as declared, and throws on others and on those that overrun its
buffer. -/
structure Coder.Follows (coder : Coder) (idl : Idl) : Prop where
  capacity : coder.capacity < 2 ^ 32
  writes : ∀ ix ∈ idl.instructions, ∀ fields e accounts remaining, (idl.argsCodec ix).enc fields = some e →
    e.length ≤ coder.capacity → accounts.length = ix.accounts.length →
      coder.instruction ix.name fields accounts remaining = some {
        programId := idl.address
        accounts := List.zipWith (fun a pubkey =>
          { pubkey, isSigner := a.signer, isWritable := a.writable }) ix.accounts accounts ++ remaining
        data := ix.discriminator ++ e }
  overruns : ∀ ix ∈ idl.instructions, ∀ fields e accounts remaining, (idl.argsCodec ix).enc fields = some e →
    coder.capacity < e.length → coder.instruction ix.name fields accounts remaining = none
  undeclared : ∀ ix ∈ idl.instructions, ∀ fields accounts remaining, (idl.argsCodec ix).enc fields = none →
    coder.instruction ix.name fields accounts remaining = none

/-! ## The file -/

def idlTypes : Types := [
  ("ExpectedAccountMeta", .struct [("pubkey", .raw 32), ("is_signer", .bool), ("is_writable", .bool)]),
  ("ExpectedInstruction", .struct [
    ("program_id", .raw 32),
    ("accounts", .vec (.defined "ExpectedAccountMeta")),
    ("data", .bytes)]),
  ("ProposalAction", .enum ["Approve", "Reject", "Cancel", "CancelV2"]),
  ("VerifyBufferHashArgs", .struct [("buffer", .raw 32), ("expected_hash", .string)]),
  ("VerifyProposalArgs", .struct [
    ("multisig", .raw 32),
    ("transaction_index", .u64),
    ("vault_index", .u8),
    ("num_ephemeral_signers", .u8),
    ("member", .raw 32),
    ("action", .defined "ProposalAction"),
    ("instructions", .vec (.defined "ExpectedInstruction"))])]

def idlVerifyProposal : IdlInstruction where
  name := "verify_proposal"
  discriminator := [54, 140, 57, 70, 243, 157, 30, 124]
  accounts := [{ name := "transaction" }, { name := "instructions_sysvar" }]
  args := [("args", .defined "VerifyProposalArgs")]

def idlVerifyBufferHash : IdlInstruction where
  name := "verify_buffer_hash"
  discriminator := [69, 97, 12, 142, 117, 173, 124, 31]
  accounts := [{ name := "buffer" }]
  args := [("args", .defined "VerifyBufferHashArgs")]

def idl : Idl where
  address := pubkey "7xs3LhQjKoCGfXm2qst7LUhismrG1bGxz5Jw6AHij7eu"
  instructions := [idlVerifyProposal, idlVerifyBufferHash]
  types := idlTypes

/-! ## What a call's arguments look like under the file's names -/

def ProposalAction.name : ProposalAction → String
  | .approve => "Approve"
  | .reject => "Reject"
  | .cancel => "Cancel"
  | .cancelV2 => "CancelV2"

namespace Js

def key : Option Pubkey → Value
  | some pubkey => .raw pubkey.toList
  | none => .undefined

def ExpectedAccountMeta.display (x : ExpectedAccountMeta) : Value :=
  .record [("pubkey", key x.pubkey), ("is_signer", .bool x.isSigner), ("is_writable", .bool x.isWritable)]

def ExpectedInstruction.display (x : ExpectedInstruction) : Value :=
  .record [
    ("program_id", key x.programId),
    ("accounts", .list (x.accounts.map ExpectedAccountMeta.display)),
    ("data", .bytes x.data)]

def VerifyProposalArgs.display (x : VerifyProposalArgs) : Value :=
  .record [
    ("multisig", .raw x.multisig.toList),
    ("transaction_index", .number x.transactionIndex),
    ("vault_index", .number x.vaultIndex),
    ("num_ephemeral_signers", .number x.numEphemeralSigners),
    ("member", .raw x.member.toList),
    ("action", .variant x.action.name),
    ("instructions", .list (x.instructions.map ExpectedInstruction.display))]

end Js

def VerifyProposalArgs.display (x : VerifyProposalArgs) : Value := x.toJs.display

def VerifyBufferHashArgs.display (x : VerifyBufferHashArgs) : Value :=
  .record [("buffer", .raw x.buffer.toList), ("expected_hash", .string x.expectedHash)]

end ClearSigning
