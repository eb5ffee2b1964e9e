import ClearSigning.ProposalSound

/-!
# `verify_proposal` refines the content of a ledger

Read from a ledger, the handler accepts exactly the arguments that show the
ledger's content for their transaction, given the accounts in their places and
an outer transaction of the right shape.
-/

namespace ClearSigning

open Exec

/-- The accounts of a `verify_proposal` instruction; all but the sysvar are the ledger's. -/
def Ledger.context (L : Ledger) (transaction : Pubkey) (sysvar : AccountInfo)
    (address : sysvar.key = instructionsSysvarId) (remaining : List Pubkey) : Context VerifyProposal where
  accounts := { transaction := L.info transaction, instructionsSysvar := sysvar, address }
  remainingAccounts := remaining.map L.info

theorem toOption_eq_some {ε α : Type} {x : Exec ε α} {a : α} : x.toOption = some a ↔ x = .ok a := by
  cases x <;> simp [Except.toOption]

section
variable {L : Ledger}

theorem Ledger.table_eq_some {key : Pubkey} {table : List Pubkey} : L.table key = some table ↔
    (L key).owner = addressLookupTableProgramId ∧
      parseLookupTableAddresses (L key).data.toList = .ok table := by
  unfold Ledger.table
  by_cases ho : (L key).owner = addressLookupTableProgramId
  · rw [if_pos ho, toOption_eq_some]; simp [ho]
  · rw [if_neg ho]; simp [ho]

theorem Ledger.tableAccounts_iff : ∀ {remaining : List Pubkey} {lookups : List MultisigMessageAddressTableLookup}
    {tables : List (List Pubkey)},
    (remaining.map L.info).length = lookups.length ∧
        List.Forall₂ (fun p table => TableAccount p.1 p.2 table) ((remaining.map L.info).zip lookups) tables ↔
      remaining = lookups.map (·.accountKey) ∧ lookups.mapM (fun l => L.table l.accountKey) = some tables
  | [], [], tables => by simp [eq_comm]
  | [], l :: lookups, tables => by simp
  | key :: remaining, [], tables => by simp
  | key :: remaining, l :: lookups, tables => by
    have ih := fun ts => @tableAccounts_iff remaining lookups ts
    simp only [mapM_eq_some, Ledger.table_eq_some] at ih ⊢
    simp only [List.map_cons, List.length_cons, Nat.add_right_cancel_iff, List.zip_cons_cons,
      List.forall₂_cons_left_iff, List.cons.injEq]
    refine ⟨fun ⟨hl, t, ts, ht, hts, he⟩ => ?_, fun ⟨⟨hk, hr⟩, t, ts, ⟨ho, ha⟩, hts, he⟩ => ?_⟩
    · obtain ⟨hr, hts⟩ := (ih ts).mp ⟨hl, hts⟩
      obtain ⟨hk, ho, ha⟩ := ht
      have hk' : key = l.accountKey := hk
      rw [← hk']
      exact ⟨⟨rfl, hr⟩, t, ts, ⟨ho, ha⟩, hts, he⟩
    · obtain ⟨hl, hts⟩ := (ih ts).mpr ⟨hr, hts⟩
      rw [← hk] at ho ha
      exact ⟨hl, t, ts, ⟨hk, ho, ha⟩, hts, he⟩

theorem Ledger.vaultTransaction_eq_some {rt : Runtime} {multisig : Pubkey} {index : UInt64}
    {tx : VaultTransaction} : L.vaultTransaction rt multisig index = some tx ↔
    VaultTransaction.deserializeChecked (L (deriveTransactionPda rt multisig index)).data.toList = .ok tx ∧
      (L (deriveTransactionPda rt multisig index)).owner = squadsProgramId ∧
        tx.multisig = multisig ∧ tx.index = index := by
  unfold Ledger.vaultTransaction
  simp only [Option.bind_eq_bind, Option.bind_eq_some_iff, toOption_eq_some, Option.ite_none_right_eq_some,
    Option.some.injEq]
  refine ⟨fun h => ?_, fun h => ?_⟩
  · obtain ⟨_, htx, h, rfl⟩ := h
    exact ⟨htx, h⟩
  · exact ⟨tx, h.1, h.2, rfl⟩

theorem Ledger.content_eq_some {tx : VaultTransaction} {args : VerifyProposalArgs} :
    L.content tx = some args.content ↔ tx.vaultIndex = args.vaultIndex ∧
      tx.ephemeralSignerBumps.length = args.numEphemeralSigners.toNat ∧
      ∃ tables, tx.message.addressTableLookups.mapM (fun l => L.table l.accountKey) = some tables ∧
        expansion tx.message tables = some args.instructions := by
  unfold Ledger.content VerifyProposalArgs.content
  simp only [Option.bind_eq_bind, Option.bind_eq_some_iff, Option.pure_def, Option.some.injEq, Content.mk.injEq]
  refine ⟨fun h => ?_, fun h => ?_⟩
  · obtain ⟨tables, ht, l, hl, hv, he, rfl⟩ := h
    exact ⟨hv, he, tables, ht, hl⟩
  · obtain ⟨hv, he, tables, ht, hl⟩ := h
    exact ⟨tables, ht, _, hl, hv, he, rfl⟩

theorem verifyProposal_iff_content {rt : Runtime} {transaction : Pubkey} {sysvar : AccountInfo}
    {address : sysvar.key = instructionsSysvarId} {remaining : List Pubkey} {args : VerifyProposalArgs}
    {top : List Instruction} (hs : Describes rt sysvar top) :
    verifyProposal rt (L.context transaction sysvar address remaining) args = .ok () ↔
      transaction = deriveTransactionPda rt args.multisig args.transactionIndex ∧
      ∃ tx, L.vaultTransaction rt args.multisig args.transactionIndex = some tx ∧
        remaining = tx.message.addressTableLookups.map (·.accountKey) ∧
        L.content tx = some args.content ∧
        (∀ ix ∈ top, Allowed (args.expectation rt) ix) ∧ ∃ ix ∈ top, Counts (args.expectation rt) ix := by
  have hiff := @verifyProposal_eq_ok rt (L.context transaction sysvar address remaining) args top hs
  rw [hiff]
  simp only [Ledger.vaultTransaction_eq_some, Ledger.content_eq_some]
  refine ⟨fun ⟨tx, tables, h⟩ => ?_, fun ⟨ht, tx, ⟨hd, ho, hm, hi⟩, hr, ⟨hv, he, tables, htab, hexp⟩, ha, hc⟩ => ?_⟩
  · have hk : transaction = deriveTransactionPda rt args.multisig args.transactionIndex := h.key
    obtain ⟨hr, htab⟩ := Ledger.tableAccounts_iff.mp ⟨h.remaining, h.tableAccounts⟩
    have hd : VaultTransaction.deserializeChecked (L transaction).data.toList = .ok tx := h.stored
    have ho : (L transaction).owner = squadsProgramId := h.owner
    rw [hk] at hd ho
    exact ⟨hk, tx, ⟨hd, ho, h.multisig, h.index⟩, hr, ⟨h.vaultIndex, h.ephemeralSigners, tables, htab,
      h.instructions⟩, h.allowed, h.voted⟩
  · rw [← ht] at hd ho
    obtain ⟨hlen, htabs⟩ := Ledger.tableAccounts_iff.mpr ⟨hr, htab⟩
    exact ⟨tx, tables, ht, ho, hd, hm, hi, hv, he, hlen, htabs, hexp, ha, hc⟩

end

end ClearSigning
