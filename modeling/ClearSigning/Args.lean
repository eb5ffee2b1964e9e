import ClearSigning.Lib.Hex
import ClearSigning.Squads

/-! # Instruction arguments: what the offline signer is shown -/

namespace ClearSigning

inductive ProposalAction where
  | approve
  | reject
  | cancel
  | cancelV2
  deriving DecidableEq, Repr

def ProposalAction.discriminator : ProposalAction → Bytes
  | .approve => ixProposalApprove
  | .reject => ixProposalReject
  | .cancel => ixProposalCancel
  | .cancelV2 => ixProposalCancelV2

theorem ProposalAction.discriminator_inj {a b : ProposalAction} (h : a.discriminator = b.discriminator) :
    a = b := by
  cases a <;> cases b <;> first | rfl | exact absurd h (by decide)

structure ExpectedAccountMeta where
  pubkey : Pubkey
  isSigner : Bool
  isWritable : Bool
  deriving DecidableEq

structure ExpectedInstruction where
  programId : Pubkey
  accounts : List ExpectedAccountMeta
  data : Bytes
  deriving DecidableEq

structure VerifyProposalArgs where
  multisig : Pubkey
  transactionIndex : UInt64
  vaultIndex : UInt8
  numEphemeralSigners : UInt8
  member : Pubkey
  action : ProposalAction
  instructions : List ExpectedInstruction
  deriving DecidableEq

structure VerifyBufferHashArgs where
  buffer : Pubkey
  expectedHash : String
  deriving DecidableEq

/-! ## Borsh: fields in declaration order -/

/-- A fieldless enum is its variant index in one byte. -/
def ProposalAction.borsh : Codec ProposalAction :=
  Codec.u8.pmap (fun b => [approve, reject, cancel, cancelV2][b.toNat]?) (fun a => UInt8.ofNat a.ctorIdx)
    (by rintro (_ | _ | _ | _) <;> rfl) (by
      intro b a h
      have hb := (List.getElem?_eq_some_iff.mp h).1
      apply UInt8.toNat_inj.mp
      generalize b.toNat = n at h hb ⊢
      match n, hb with
      | 0, _ | 1, _ | 2, _ | 3, _ => cases h; rfl)

def ExpectedAccountMeta.borsh : Codec ExpectedAccountMeta :=
  (Pubkey.borsh.seq (Codec.bool.seq Codec.bool)).map
    { toFun := fun (pubkey, isSigner, isWritable) => ⟨pubkey, isSigner, isWritable⟩
      invFun := fun x => (x.pubkey, x.isSigner, x.isWritable)
      left_inv := fun _ => rfl
      right_inv := fun _ => rfl }

def ExpectedInstruction.borsh : Codec ExpectedInstruction :=
  (Pubkey.borsh.seq (ExpectedAccountMeta.borsh.vec.seq Codec.u8.vec)).map
    { toFun := fun (programId, accounts, data) => ⟨programId, accounts, data⟩
      invFun := fun x => (x.programId, x.accounts, x.data)
      left_inv := fun _ => rfl
      right_inv := fun _ => rfl }

def VerifyBufferHashArgs.borsh : Codec VerifyBufferHashArgs :=
  (Pubkey.borsh.seq Codec.string).map
    { toFun := fun (buffer, expectedHash) => ⟨buffer, expectedHash⟩
      invFun := fun x => (x.buffer, x.expectedHash)
      left_inv := fun _ => rfl
      right_inv := fun _ => rfl }

def VerifyProposalArgs.borsh : Codec VerifyProposalArgs :=
  (Pubkey.borsh.seq (Codec.u64.seq (Codec.u8.seq (Codec.u8.seq (Pubkey.borsh.seq (ProposalAction.borsh.seq
    ExpectedInstruction.borsh.vec)))))).map
    { toFun := fun (multisig, transactionIndex, vaultIndex, numEphemeralSigners, member, action, instructions) =>
        ⟨multisig, transactionIndex, vaultIndex, numEphemeralSigners, member, action, instructions⟩
      invFun := fun x => (x.multisig, x.transactionIndex, x.vaultIndex, x.numEphemeralSigners, x.member,
        x.action, x.instructions)
      left_inv := fun _ => rfl
      right_inv := fun _ => rfl }

end ClearSigning
