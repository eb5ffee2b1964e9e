import ClearSigning.LedgerSound
import ClearSigning.TablesSound

/-!
# Resolution is stable under growing lookup tables

Between approval and execution a lookup table may be extended. What a message
selects from it does not move, so an accepted proposal stays accepted and its
key table stays the same.
-/

namespace ClearSigning

open Exec

def Ledger.readTables (L : Ledger) (remaining : List Pubkey)
    (lookups : List MultisigMessageAddressTableLookup) : Result (List (List Pubkey)) :=
  ((remaining.map L.info).zip lookups).mapM fun (account, lookup) => readLookupTable account lookup

theorem Ledger.readTables_eq_ok {L : Ledger} {lookups : List MultisigMessageAddressTableLookup}
    {tables : List (List Pubkey)} (h : lookups.mapM (fun l => L.table l.accountKey) = some tables) :
    L.readTables (lookups.map (·.accountKey)) lookups = .ok tables := by
  obtain ⟨-, ht⟩ := Ledger.tableAccounts_iff.mpr ⟨rfl, h⟩
  exact mapM_eq_ok.mpr (ht.imp fun _ _ h => readLookupTable_eq_ok.mpr h)

section
variable {L L' : Ledger}

theorem Ledger.table_extends {key : Pubkey} {table : List Pubkey} (ho : (L' key).owner = (L key).owner)
    (hd : Extends (L key).data.toList (L' key).data.toList) (h : L.table key = some table) :
    ∃ table', L'.table key = some table' ∧ table <+: table' := by
  obtain ⟨howner, hp⟩ := Ledger.table_eq_some.mp h
  obtain ⟨ext, hp'⟩ := parse_extends hp hd
  refine ⟨table ++ ext, ?_, List.prefix_append _ _⟩
  apply Ledger.table_eq_some.mpr
  exact ⟨ho.trans howner, hp'⟩

theorem Ledger.tables_extends {lookups : List MultisigMessageAddressTableLookup} {tables : List (List Pubkey)}
    (hext : ∀ l ∈ lookups, (L' l.accountKey).owner = (L l.accountKey).owner ∧
      Extends (L l.accountKey).data.toList (L' l.accountKey).data.toList)
    (h : lookups.mapM (fun l => L.table l.accountKey) = some tables) :
    ∃ tables', lookups.mapM (fun l => L'.table l.accountKey) = some tables' ∧
      List.Forall₂ (· <+: ·) tables tables' := by
  simp only [mapM_eq_some] at h ⊢
  induction h with
  | nil => exact ⟨[], .nil, .nil⟩
  | cons ht _ ih =>
    rw [List.forall_mem_cons] at hext
    obtain ⟨table', ht', hp⟩ := Ledger.table_extends hext.1.1 hext.1.2 ht
    obtain ⟨tables', hts', hps⟩ := ih hext.2
    exact ⟨table' :: tables', .cons ht' hts', .cons hp hps⟩

theorem expansion_extends {message : VaultTransactionMessage} {tables tables' : List (List Pubkey)}
    {l : List ExpectedInstruction} (ht : List.Forall₂ (· <+: ·) tables tables')
    (h : expansion message tables = some l) :
    expansion message tables' = some l ∧ ∃ k, AccountKeys.resolve message tables = .ok k ∧
      AccountKeys.resolve message tables' = .ok k := by
  obtain ⟨k, hk, hv⟩ := expansion_eq_some.mp h
  have hk' := resolve_extends ht hk
  exact ⟨expansion_eq_some.mpr ⟨k, hk', hv⟩, k, hk, hk'⟩

/-- An accepted proposal stays accepted when the tables it uses grow, with one key table in both states. -/
theorem verifyProposal_stable {rt : Runtime} {transaction : Pubkey} {sysvar sysvar' : AccountInfo}
    {address : sysvar.key = instructionsSysvarId} {address' : sysvar'.key = instructionsSysvarId}
    {remaining : List Pubkey} {args : VerifyProposalArgs} {top : List Instruction} {tx : VaultTransaction}
    (hs : Describes rt sysvar top) (hs' : Describes rt sysvar' top)
    (htx : VaultTransaction.deserializeChecked (L transaction).data.toList = .ok tx)
    (hsame : L' transaction = L transaction)
    (hext : ∀ l ∈ tx.message.addressTableLookups, (L' l.accountKey).owner = (L l.accountKey).owner ∧
      Extends (L l.accountKey).data.toList (L' l.accountKey).data.toList)
    (hok : verifyProposal rt (L.context transaction sysvar address remaining) args = .ok ()) :
    verifyProposal rt (L'.context transaction sysvar' address' remaining) args = .ok () ∧
      ∃ tables tables' k, L.readTables remaining tx.message.addressTableLookups = .ok tables ∧
        L'.readTables remaining tx.message.addressTableLookups = .ok tables' ∧
        AccountKeys.resolve tx.message tables = .ok k ∧ AccountKeys.resolve tx.message tables' = .ok k := by
  obtain ⟨hkey, tx', hstored, hr, hcontent, hallowed, hvoted⟩ := (verifyProposal_iff_content hs).mp hok
  obtain ⟨hd, ho, hm, hi⟩ := Ledger.vaultTransaction_eq_some.mp hstored
  rw [← hkey] at hd ho
  have heq : tx' = tx := by rw [htx] at hd; cases hd; rfl
  subst heq
  obtain ⟨hv, he, tables, htables, hexp⟩ := Ledger.content_eq_some.mp hcontent
  obtain ⟨tables', htables', hgrow⟩ := Ledger.tables_extends hext htables
  obtain ⟨hexp', k, hk, hk'⟩ := expansion_extends hgrow hexp
  refine ⟨(verifyProposal_iff_content hs').mpr ⟨hkey, tx', ?_, hr, ?_, hallowed, hvoted⟩, tables, tables', k, ?_⟩
  · rw [Ledger.vaultTransaction_eq_some, ← hkey, hsame]
    exact ⟨hd, ho, hm, hi⟩
  · apply Ledger.content_eq_some.mpr
    exact ⟨hv, he, tables', htables', hexp'⟩
  · rw [hr]
    exact ⟨Ledger.readTables_eq_ok htables, Ledger.readTables_eq_ok htables', hk, hk'⟩

end

def Transfer.grownTable : Slice UInt8 := ⟨tableData (List.replicate 52 1) [recipient, member], by decide⟩

theorem Transfer.grownTable_extends : Extends table.toList grownTable.toList :=
  ⟨List.replicate 52 1, member.toList, by decide, by decide, by decide⟩

theorem transfer_stable :
    verifyProposal (Transfer.runtime Transfer.top) ((Transfer.ledger Transfer.grownTable).context
      Transfer.transactionPda Transfer.sysvar rfl [Transfer.lookupTable]) Transfer.args = .ok () := by
  have hext : ∀ l ∈ Transfer.tx.message.addressTableLookups,
      (Transfer.ledger Transfer.grownTable l.accountKey).owner = (Transfer.ledger Transfer.table l.accountKey).owner ∧
        Extends (Transfer.ledger Transfer.table l.accountKey).data.toList
          (Transfer.ledger Transfer.grownTable l.accountKey).data.toList := by
    intro l hl
    have hkey : l.accountKey = Transfer.lookupTable := by rw [List.mem_singleton.mp hl]
    rw [hkey, Transfer.ledger_lookupTable, Transfer.ledger_lookupTable]
    exact ⟨rfl, Transfer.grownTable_extends⟩
  have hok : verifyProposal (Transfer.runtime Transfer.top) ((Transfer.ledger Transfer.table).context
      Transfer.transactionPda Transfer.sysvar rfl [Transfer.lookupTable]) Transfer.args = .ok () := by decide +kernel
  have htx : VaultTransaction.deserializeChecked
      (Transfer.ledger Transfer.table Transfer.transactionPda).data.toList = .ok Transfer.tx := by decide +kernel
  have hsame : Transfer.ledger Transfer.grownTable Transfer.transactionPda =
      Transfer.ledger Transfer.table Transfer.transactionPda := by decide +kernel
  exact (verifyProposal_stable Transfer.sysvar_describes Transfer.sysvar_describes htx hsame hext hok).1

end ClearSigning
