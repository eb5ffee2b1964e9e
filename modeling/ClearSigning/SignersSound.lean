import ClearSigning.ProposalSound

/-!
# Signers behind lookup tables

Resolution takes the signer count as stored and nothing on the path compares it
with the number of static keys. Where it is larger, a looked-up key counts as a
required signer, and an accepted list shows it as one.
-/

namespace ClearSigning

open Exec

/-- No account shown whose stored index falls past the static keys is marked as a signer. -/
def OnlyStaticSigners (message : VaultTransactionMessage) (shown : List ExpectedInstruction) : Prop :=
  ∀ p ∈ message.instructions.zip shown, ∀ q ∈ p.1.accountIndexes.zip p.2.accounts,
    message.accountKeys.length ≤ q.1.toNat → q.2.isSigner = false

/-- Every index of an instruction below the signer count is a static key's. -/
def SignersStored (message : VaultTransactionMessage) : Prop :=
  ∀ ix ∈ message.instructions, ∀ i ∈ ix.accountIndexes,
    i.toNat < message.numSigners.toNat → i.toNat < message.accountKeys.length

instance (message : VaultTransactionMessage) (shown : List ExpectedInstruction) :
    Decidable (OnlyStaticSigners message shown) := inferInstanceAs (Decidable (∀ p ∈ _, _))

/-! ## What an accepted list shows -/

theorem exists_mem_zip {α β : Type} {l : List α} {l' : List β} (hl : l.length = l'.length) {a : α} (h : a ∈ l) :
    ∃ b, (a, b) ∈ l.zip l' := by
  rw [← List.map_fst_zip (by omega : l.length ≤ l'.length)] at h
  obtain ⟨p, hp, rfl⟩ := List.mem_map.mp h
  exact ⟨p.2, hp⟩

section
variable {message : VaultTransactionMessage} {tables : List (List Pubkey)} {k : AccountKeys}
  {shown : List ExpectedInstruction}

theorem validateInstructions_zip (h : validateInstructions message k shown = .ok ()) :
    message.instructions.length = shown.length ∧ ∀ p ∈ message.instructions.zip shown,
      p.1.accountIndexes.length = p.2.accounts.length ∧
        ∀ q ∈ p.1.accountIndexes.zip p.2.accounts, q.2.isSigner = k.isSigner q.1.toNat := by
  obtain ⟨hlen, hzip⟩ := List.forall₂_iff_zip.mp (mapM_eq_some.mp (validateInstructions_eq_ok.mp h))
  refine ⟨hlen, fun p hp => ?_⟩
  obtain ⟨-, haccounts, -⟩ := AccountKeys.expandInstruction_eq_some.mp (hzip hp)
  obtain ⟨hlen', hzip'⟩ := List.forall₂_iff_zip.mp (mapM_eq_some.mp haccounts)
  refine ⟨hlen', fun q hq => ?_⟩
  obtain ⟨key, -, hkey⟩ := Option.map_eq_some_iff.mp (hzip' hq)
  rw [← hkey]

theorem onlyStaticSigners_of_validated (hk : AccountKeys.resolve message tables = .ok k)
    (h : validateInstructions message k shown = .ok ()) : OnlyStaticSigners message shown ↔ SignersStored message := by
  obtain ⟨hlen, hzip⟩ := validateInstructions_zip h
  obtain ⟨-, rfl⟩ := AccountKeys.resolve_eq_ok.mp hk
  refine ⟨fun hs ix hix i hi hlt => ?_, fun hs p hp q hq hle => ?_⟩
  · obtain ⟨x, hx⟩ := exists_mem_zip hlen hix
    obtain ⟨hlen', hshown⟩ := hzip _ hx
    obtain ⟨m, hm⟩ := exists_mem_zip hlen' hi
    by_cases hstatic : i.toNat < message.accountKeys.length
    · exact hstatic
    · have htrue : m.isSigner = true := (hshown _ hm).trans (decide_eq_true hlt)
      have hfalse : m.isSigner = false := hs _ hx _ hm (Nat.le_of_not_lt hstatic)
      rw [htrue] at hfalse
      cases hfalse
  · have hindex : q.1 ∈ p.1.accountIndexes := (List.of_mem_zip hq).1
    have hnot : ¬q.1.toNat < message.numSigners.toNat := by
      intro hlt
      have hstatic := hs _ (List.of_mem_zip hp).1 _ hindex hlt
      omega
    exact ((hzip _ hp).2 _ hq).trans (decide_eq_false hnot)

theorem isSigner_static_iff (hk : AccountKeys.resolve message tables = .ok k) :
    (∀ i, k.isSigner i = true → i < message.accountKeys.length) ↔
      message.numSigners.toNat ≤ message.accountKeys.length := by
  obtain ⟨-, rfl⟩ := AccountKeys.resolve_eq_ok.mp hk
  refine ⟨fun h => ?_, fun h i hi => ?_⟩
  · by_cases hle : message.numSigners.toNat ≤ message.accountKeys.length
    · exact hle
    · have hsigner := h message.accountKeys.length (decide_eq_true (Nat.lt_of_not_le hle))
      exact absurd hsigner (Nat.lt_irrefl _)
  · have hlt : i < message.numSigners.toNat := of_decide_eq_true hi
    omega

end

theorem verifyProposal_validated {rt : Runtime} {ctx : Context VerifyProposal} {args : VerifyProposalArgs}
    (h : verifyProposal rt ctx args = .ok ()) : ∃ tx tables k,
      VaultTransaction.deserializeChecked ctx.accounts.transaction.data.toList = .ok tx ∧
      AccountKeys.resolve tx.message tables = .ok k ∧ validateInstructions tx.message k args.instructions = .ok () := by
  unfold verifyProposal at h
  simp only [bind_eq_ok, require_eq_ok, exists_const] at h
  obtain ⟨-, -, tx, htx, -, -, -, -, -, tables, -, k, hk, _, hval, -⟩ := h
  exact ⟨tx, tables, k, htx, hk, hval⟩

/-- What is accepted marks only static keys as signers exactly where the stored instructions use no index
between the static keys and the signer count; the key table itself, exactly where that count is no larger. -/
theorem onlyStaticSigners_iff (rt : Runtime) :
    (∀ (ctx : Context VerifyProposal) (args : VerifyProposalArgs) (tx : VaultTransaction),
      VaultTransaction.deserializeChecked ctx.accounts.transaction.data.toList = .ok tx →
      verifyProposal rt ctx args = .ok () →
        (OnlyStaticSigners tx.message args.instructions ↔ SignersStored tx.message)) ∧
    (∀ (message : VaultTransactionMessage) (tables : List (List Pubkey)) (k : AccountKeys),
      AccountKeys.resolve message tables = .ok k →
        ((∀ i, k.isSigner i = true → i < message.accountKeys.length) ↔
          message.numSigners.toNat ≤ message.accountKeys.length)) := by
  refine ⟨fun ctx args tx htx h => ?_, fun message tables k hk => isSigner_static_iff hk⟩
  obtain ⟨tx', tables, k, htx', hk, hval⟩ := verifyProposal_validated h
  have heq : tx' = tx := by
    rw [htx] at htx'
    cases htx'
    rfl
  subst heq
  exact onlyStaticSigners_of_validated hk hval

/-! ## An accepted transaction with a looked-up signer -/

namespace LookedUpSigner

open Transfer

/-- Three signers over two static keys: the looked-up recipient is the third. -/
def message : VaultTransactionMessage := { Transfer.message with numSigners := 3 }

def tx : VaultTransaction := { Transfer.tx with message }

def args : VerifyProposalArgs where
  multisig := multisig
  transactionIndex := 1
  vaultIndex := 0
  numEphemeralSigners := 0
  member := member
  action := .approve
  instructions := [{
    programId := systemProgram
    accounts := [
      { pubkey := vault, isSigner := true, isWritable := true },
      { pubkey := recipient, isSigner := true, isWritable := true }]
    data := leBytes 4 2 ++ leBytes 8 1 }]

def top : List Instruction :=
  [{ Transfer.verify with data := verifyProposalDiscriminator ++ (VerifyProposalArgs.borsh.enc args).getD [] }, vote]

def context : Context VerifyProposal where
  accounts := {
    transaction := {
      key := transactionPda
      owner := squadsProgramId
      data := ⟨vaultTransactionDiscriminator ++ tx.serialize.getD [], by decide +kernel⟩ }
    instructionsSysvar := {
      key := instructionsSysvarId
      owner := Transfer.sysvar.owner
      data := sysvarData top 0 }
    address := rfl }
  remainingAccounts := [(ledger table).info lookupTable]

end LookedUpSigner

theorem lookedUpSigner_accepted :
    VaultTransaction.deserializeChecked LookedUpSigner.context.accounts.transaction.data.toList =
        .ok LookedUpSigner.tx ∧
      verifyProposal (Transfer.runtime LookedUpSigner.top) LookedUpSigner.context LookedUpSigner.args = .ok () ∧
      ¬OnlyStaticSigners LookedUpSigner.message LookedUpSigner.args.instructions ∧
      ∃ k, AccountKeys.resolve LookedUpSigner.message [[Transfer.recipient]] = .ok k ∧
        k.isSigner 2 = true ∧ ¬2 < LookedUpSigner.message.accountKeys.length := by
  refine ⟨by decide +kernel, by decide +kernel, by decide +kernel, ?_⟩
  refine ⟨AccountKeys.resolved LookedUpSigner.message [[Transfer.recipient]], ?_, ?_, ?_⟩
  · decide +kernel
  · decide +kernel
  · decide +kernel

end ClearSigning
