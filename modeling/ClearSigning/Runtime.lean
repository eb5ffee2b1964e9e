import ClearSigning.Lib.Codec
import ClearSigning.Errors

/-!
# What the program sees of the chain

Keys, accounts and instructions as the SDK hands them over, and the calls the
program makes into code outside this repository.
-/

namespace ClearSigning

open Exec

abbrev Pubkey := List.Vector UInt8 32

/-- Digits from `1`, upper case without `I` and `O`, lower case without `l`. -/
def base58Digit (c : Char) : Nat :=
  let n := c.toNat
  if n < 65 then n - 49 else if n < 73 then n - 56 else if n < 79 then n - 57 else if n < 91 then n - 58
  else if n < 108 then n - 64 else n - 65

example : "123456789ABCDEFGHJKLMNPQRSTUVWXYZabcdefghijkmnopqrstuvwxyz".toList.map base58Digit = List.range 58 := by
  decide +kernel

/-- `pubkey!("…")` -/
def pubkey (s : String) : Pubkey :=
  ⟨(leBytes 32 (s.toList.foldl (fun n c => 58 * n + base58Digit c) 0)).reverse, by simp⟩

def Pubkey.borsh : Codec Pubkey := .raw 32

structure AccountInfo where
  key : Pubkey
  owner : Pubkey
  data : Slice UInt8
  deriving DecidableEq

structure AccountMeta where
  pubkey : Pubkey
  isSigner : Bool
  isWritable : Bool
  deriving DecidableEq

structure Instruction where
  programId : Pubkey
  accounts : List AccountMeta
  data : Bytes
  deriving DecidableEq

/-- Calls that leave the repository. -/
structure Runtime where
  /-- `Pubkey::find_program_address` -/
  findProgramAddress : List Bytes → Pubkey → Pubkey × UInt8
  /-- `load_instruction_at_checked`, `none` where it fails -/
  loadInstructionAtChecked : Nat → AccountInfo → Option Instruction
  /-- `solana_sha256_hasher::hash` -/
  sha256 : Bytes → List.Vector UInt8 32

def instructionsSysvarId : Pubkey := pubkey "Sysvar1nstructions1111111111111111111111111"

/-- The sysvar account describes the top-level list `topLevel`: a `u16` count at its
start, and `load_instruction_at_checked` returning each instruction below it. -/
structure Describes (rt : Runtime) (sysvar : AccountInfo) (topLevel : List Instruction) : Prop where
  two_le : 2 ≤ sysvar.data.toList.length
  count : leNat (sysvar.data.toList.take 2) = topLevel.length
  load : ∀ i (h : i < topLevel.length), rt.loadInstructionAtChecked i sysvar = some topLevel[i]

end ClearSigning
