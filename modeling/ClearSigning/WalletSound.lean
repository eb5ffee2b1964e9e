import ClearSigning.LayoutSound
import ClearSigning.LedgerSound
import ClearSigning.Scripts

/-!
# The honest wallet is never rejected

The wallet's key array and flags are the program's at every index, whatever the
header counts, and its list is the program's expansion where no key is missing;
so the arguments it builds show the ledger's content and are accepted. Without
lookup tables the scripts build the same list.
-/

namespace ClearSigning

open Exec

/-! ## The wallet's expansion -/

theorem ExpectedAccountMeta.toJs_injective : Function.Injective ExpectedAccountMeta.toJs := by
  intro x y h
  cases x; cases y; cases h
  rfl

theorem ExpectedInstruction.toJs_injective : Function.Injective ExpectedInstruction.toJs := by
  intro x y h
  obtain ⟨p, a, d⟩ := x
  obtain ⟨q, b, e⟩ := y
  simp only [toJs, Js.ExpectedInstruction.mk.injEq, Option.some.injEq,
    (List.map_injective_iff.mpr ExpectedAccountMeta.toJs_injective).eq_iff] at h
  obtain ⟨rfl, rfl, rfl⟩ := h
  rfl

section
variable {message : VaultTransactionMessage} {tables : List (List Pubkey)} {isWritable : Nat → Bool}

/-- A list without `undefined` is the expansion over the key table. -/
theorem expandWith_eq_map (h : ∀ i < (keyTable message tables).length, isWritable i = writableAt message tables i)
    {l : List ExpectedInstruction} :
    expandWith (keyTable message tables) message.isSignerIndex isWritable message = l.map ExpectedInstruction.toJs ↔
      message.instructions.mapM (expandInstruction message tables) = some l := by
  refine map_eq_map_iff fun ix x => ?_
  have haccount : ∀ (i : UInt8) (y : ExpectedAccountMeta), (⟨(keyTable message tables)[i.toNat]?.join,
      message.isSignerIndex i.toNat, isWritable i.toNat⟩ : Js.ExpectedAccountMeta) = y.toJs ↔
        expandAccount message tables i = some y := by
    intro i y
    obtain ⟨pubkey, isSigner, writable⟩ := y
    unfold expandAccount ExpectedAccountMeta.toJs
    cases hk : (keyTable message tables)[i.toNat]?.join with
    | none => simp
    | some key =>
      have hi := (List.getElem?_eq_some_iff.mp (Option.join_eq_some_iff.mp hk)).1
      simp [h _ hi]
  obtain ⟨programId, accounts, data⟩ := x
  simp only [expandInstruction, ExpectedInstruction.toJs, Js.ExpectedInstruction.mk.injEq, map_eq_map_iff haccount,
    Option.bind_eq_bind, Option.bind_eq_some_iff, Option.pure_def, Option.some.injEq, ExpectedInstruction.mk.injEq]
  constructor
  · intro h
    exact ⟨programId, h.1, accounts, h.2.1, rfl, rfl, h.2.2⟩
  · intro h
    obtain ⟨p, hp, a, ha, rfl, rfl, hd⟩ := h
    exact ⟨hp, ha, hd⟩

end

namespace Wallet

section
variable {message : VaultTransactionMessage} {tables : List (List Pubkey)} {l : List ExpectedInstruction}

theorem keys_eq : keys message tables = keyTable message tables := rfl

theorem expectedInstructions_eq_map : expectedInstructions message tables = l.map ExpectedInstruction.toJs ↔
    message.instructions.mapM (expandInstruction message tables) = some l :=
  expandWith_eq_map fun i _ => AccountKeys.resolved_writable message tables i

end

/-- Every index an instruction uses has a key. -/
def Keyed (message : VaultTransactionMessage) (tables : List (List Pubkey)) : Prop :=
  ∀ ix ∈ message.instructions, (keys message tables)[ix.programIdIndex.toNat]?.join.isSome ∧
    ∀ i ∈ ix.accountIndexes, (keys message tables)[i.toNat]?.join.isSome

theorem exists_expectedInstructions {message : VaultTransactionMessage} {tables : List (List Pubkey)} :
    (∃ l : List ExpectedInstruction, expectedInstructions message tables = l.map ExpectedInstruction.toJs) ↔
      Keyed message tables := by
  simp only [expectedInstructions_eq_map]
  refine ⟨fun ⟨l, hl⟩ ix hix => ?_, fun h => exists_mapM fun ix hix => ?_⟩
  · obtain ⟨x, -, hx⟩ := exists_right_of_mem (mapM_eq_some.mp hl) hix
    simp only [expandInstruction, Option.bind_eq_bind, Option.bind_eq_some_iff, mapM_eq_some] at hx
    obtain ⟨_, hp, _, ha, -⟩ := hx
    refine ⟨Option.isSome_iff_exists.mpr ⟨_, hp⟩, fun i hi => ?_⟩
    obtain ⟨_, -, hacc⟩ := exists_right_of_mem ha hi
    obtain ⟨_, hk, -⟩ := Option.map_eq_some_iff.mp hacc
    exact Option.isSome_iff_exists.mpr ⟨_, hk⟩
  · obtain ⟨hprogram, haccounts⟩ := h ix hix
    obtain ⟨programId, hp⟩ := Option.isSome_iff_exists.mp hprogram
    have haccount : ∀ i ∈ ix.accountIndexes, (expandAccount message tables i).isSome := by
      intro i hi
      rw [expandAccount, Option.isSome_map]
      exact haccounts i hi
    obtain ⟨accounts, ha⟩ := exists_mapM haccount
    unfold expandInstruction
    rw [← keys_eq, hp, ha]; rfl

/-! ## Messages whose indexes are in range -/

/-- Every lookup index is inside its table, and every index of an instruction inside the key array. -/
structure InRange (message : VaultTransactionMessage) (tables : List (List Pubkey)) : Prop where
  count : tables.length = message.addressTableLookups.length
  writable : ∀ p ∈ message.addressTableLookups.zip tables, ∀ i ∈ p.1.writableIndexes, i.toNat < p.2.length
  readonly : ∀ p ∈ message.addressTableLookups.zip tables, ∀ i ∈ p.1.readonlyIndexes, i.toNat < p.2.length
  programIds : ∀ ix ∈ message.instructions, ix.programIdIndex.toNat < (keys message tables).length
  accounts : ∀ ix ∈ message.instructions, ∀ i ∈ ix.accountIndexes, i.toNat < (keys message tables).length

section
variable {message : VaultTransactionMessage} {tables : List (List Pubkey)}

theorem InRange.isSome (h : InRange message tables) : ∀ k ∈ keyTable message tables, k.isSome := by
  unfold keyTable
  simp only [List.forall_mem_append, List.forall_mem_map, Option.isSome_some, implies_true, true_and]
  exact ⟨lookedUp_isSome_iff.mpr h.writable, lookedUp_isSome_iff.mpr h.readonly⟩

theorem isSome_join {l : List (Option Pubkey)} (h : ∀ k ∈ l, k.isSome) {i : Nat} (hi : i < l.length) :
    l[i]?.join.isSome := by
  rw [List.getElem?_eq_getElem hi]
  exact h _ (List.getElem_mem hi)

theorem InRange.keyed (h : InRange message tables) : Keyed message tables := fun ix hix =>
  ⟨isSome_join h.isSome (h.programIds ix hix), fun i hi => isSome_join h.isSome (h.accounts ix hix i hi)⟩

theorem InRange.expectedInstructions (h : InRange message tables) :
    ∃ l : List ExpectedInstruction, Wallet.expectedInstructions message tables = l.map ExpectedInstruction.toJs ∧
      expansion message tables = some l := by
  obtain ⟨l, hl⟩ := exists_expectedInstructions.mpr h.keyed
  refine ⟨l, hl, ?_⟩
  unfold expansion
  rw [if_pos ⟨h.count, List.all_eq_true.mpr h.isSome⟩, expectedInstructions_eq_map.mp hl]

theorem inRange_of_expansion {l : List ExpectedInstruction} (h : expansion message tables = some l) :
    InRange message tables := by
  unfold expansion at h
  rw [Option.ite_none_right_eq_some] at h
  obtain ⟨⟨hcount, hall⟩, hix⟩ := h
  have hkeyed := exists_expectedInstructions.mp ⟨l, expectedInstructions_eq_map.mpr hix⟩
  have hsome : ∀ k ∈ keyTable message tables, k.isSome := List.all_eq_true.mp hall
  unfold keyTable at hsome
  rw [List.forall_mem_append, List.forall_mem_append] at hsome
  have hin : ∀ {i : Nat}, (keys message tables)[i]?.join.isSome → i < (keys message tables).length := by
    intro i hi
    obtain ⟨_, hk⟩ := Option.isSome_iff_exists.mp hi
    exact (List.getElem?_eq_some_iff.mp (Option.join_eq_some_iff.mp hk)).1
  exact ⟨hcount, lookedUp_isSome_iff.mp hsome.1.2, lookedUp_isSome_iff.mp hsome.2,
    fun ix hmem => hin (hkeyed ix hmem).1, fun ix hmem i hi => hin ((hkeyed ix hmem).2 i hi)⟩

end

end Wallet

theorem keyTable_static {message : VaultTransactionMessage} (h : message.addressTableLookups = [])
    (tables : List (List Pubkey)) : keyTable message tables = message.accountKeys.map some := by
  have hload : ∀ indexes, lookedUp indexes (message.addressTableLookups.zip tables) = [] := by
    intro indexes
    rw [h]
    rfl
  unfold keyTable loadedWritable loadedReadonly
  rw [hload, hload, List.append_nil, List.append_nil]

theorem expandStatic_eq_map {message : VaultTransactionMessage} (h : message.addressTableLookups = [])
    (tables : List (List Pubkey)) {l : List ExpectedInstruction} :
    expandStatic message = l.map ExpectedInstruction.toJs ↔
      message.instructions.mapM (expandInstruction message tables) = some l := by
  have hwritable : ∀ i < (keyTable message tables).length, (decide (i < message.numWritableSigners.toNat) ||
      (decide (i ≥ message.numSigners.toNat) &&
        decide (i - message.numSigners.toNat < message.numWritableNonSigners.toNat))) =
      writableAt message tables i := by
    intro i hi
    rw [keyTable_static h, List.length_map] at hi
    rw [← AccountKeys.resolved_writable message tables i]
    exact (if_pos hi).symm
  rw [← expandWith_eq_map hwritable, keyTable_static h]
  rfl

/-! ## Acceptance -/

/-- The arguments the wallet builds are accepted beside a matching vote, and show what the scripts show. -/
theorem wallet_accepted {rt : Runtime} {L : Ledger} {tx : VaultTransaction} {e pad : Bytes}
    {tables : List (List Pubkey)} {member : Pubkey} {action : ProposalAction} {sysvar : AccountInfo}
    {address : sysvar.key = instructionsSysvarId} {top : List Instruction}
    (howner : (L (deriveTransactionPda rt tx.multisig tx.index)).owner = squadsProgramId)
    (he : tx.serialize = some e)
    (hdata : (L (deriveTransactionPda rt tx.multisig tx.index)).data.toList = vaultTransactionDiscriminator ++ e ++ pad)
    (hbumps : tx.ephemeralSignerBumps.length ≤ 255)
    (htables : tx.message.addressTableLookups.mapM (fun l => L.table l.accountKey) = some tables)
    (hrange : Wallet.InRange tx.message tables) (hs : Describes rt sysvar top)
    (htop : ∀ ix ∈ top, ix.programId = computeBudgetProgramId ∨ ix.programId = programId ∨ MatchingVote
      ⟨programId, tx.multisig, deriveProposalPda rt tx.multisig tx.index, member, action⟩ ix)
    (hvote : ∃ ix ∈ top, MatchingVote
      ⟨programId, tx.multisig, deriveProposalPda rt tx.multisig tx.index, member, action⟩ ix) :
    ∃ args : VerifyProposalArgs, Wallet.args tx.multisig tx.index tx tables member action = args.toJs ∧
      verifyProposal rt (L.context (deriveTransactionPda rt tx.multisig tx.index) sysvar address
        ((Wallet.remainingAccounts tx.message).map (·.pubkey))) args = .ok () ∧
      (tx.message.addressTableLookups = [] →
        ApproveClearsign.buildExpected tx.message = some args.toJs.instructions ∧
        ApproveClearsignV1.buildExpected tx.message = some args.toJs.instructions ∧
        E2e.buildExpected tx.message = args.toJs.instructions) := by
  obtain ⟨l, hl, hexp⟩ := hrange.expectedInstructions
  have hn : (UInt8.ofNat tx.ephemeralSignerBumps.length).toNat = tx.ephemeralSignerBumps.length :=
    UInt8.toNat_ofNat_of_lt (by show _ < 256; omega)
  let args : VerifyProposalArgs := {
    multisig := tx.multisig
    transactionIndex := tx.index
    vaultIndex := tx.vaultIndex
    numEphemeralSigners := UInt8.ofNat tx.ephemeralSignerBumps.length
    member
    action
    instructions := l }
  have hargs : Wallet.args tx.multisig tx.index tx tables member action = args.toJs := by
    unfold Wallet.args VerifyProposalArgs.toJs
    rw [hl, hn]
  refine ⟨args, hargs, ?_, fun hnil => ?_⟩
  · apply (verifyProposal_iff_content hs).mpr
    refine ⟨rfl, tx, ?_, ?_, ?_, ?_, ?_⟩
    · rw [Ledger.vaultTransaction_eq_some, VaultTransaction.deserializeChecked_eq_ok]
      exact ⟨⟨e, pad, he, hdata⟩, howner, rfl, rfl⟩
    · unfold Wallet.remainingAccounts
      rw [List.map_map]; rfl
    · apply Ledger.content_eq_some.mpr
      exact ⟨rfl, hn.symm, tables, htables, hexp⟩
    · intro ix hix
      rcases htop ix hix with h | h | h
      · exact Or.inl (Or.inr h)
      · exact Or.inl (Or.inl h)
      · exact Or.inr h
    · obtain ⟨ix, hix, hv⟩ := hvote
      exact ⟨ix, hix, squads_not_exempt rfl hv.1, hv⟩
  · have hstatic : expandStatic tx.message = args.toJs.instructions :=
      (expandStatic_eq_map hnil tables).mpr (Wallet.expectedInstructions_eq_map.mp hl)
    unfold ApproveClearsign.buildExpected ApproveClearsignV1.buildExpected E2e.buildExpected
    rw [hnil, if_neg (by decide), hstatic]
    exact ⟨rfl, rfl, rfl⟩

theorem transfer_wallet_accepted : ∃ args : VerifyProposalArgs,
    Wallet.args Transfer.multisig 1 Transfer.tx [[Transfer.recipient]] Transfer.member .approve = args.toJs ∧
    verifyProposal (Transfer.runtime Transfer.top) ((Transfer.ledger Transfer.table).context
      (deriveTransactionPda (Transfer.runtime Transfer.top) Transfer.multisig 1) Transfer.sysvar rfl
        [Transfer.lookupTable]) args = .ok () := by
  have hrange : Wallet.InRange Transfer.message [[Transfer.recipient]] :=
    ⟨rfl, by decide +kernel, by decide +kernel, by decide +kernel, by decide +kernel⟩
  have hvote : MatchingVote ⟨programId, Transfer.multisig,
      deriveProposalPda (Transfer.runtime Transfer.top) Transfer.multisig 1, Transfer.member, .approve⟩ Transfer.vote :=
    ⟨rfl, by decide, by decide, _, _, _, _, rfl, rfl, rfl, rfl, by decide +kernel⟩
  obtain ⟨args, ha, hok, -⟩ := @wallet_accepted (Transfer.runtime Transfer.top) (Transfer.ledger Transfer.table)
    Transfer.tx (Transfer.tx.serialize.getD []) [0, 0] [[Transfer.recipient]] Transfer.member .approve Transfer.sysvar
    rfl Transfer.top (by decide +kernel) (by decide +kernel) (by decide +kernel) (by decide) (by decide +kernel) hrange
    Transfer.sysvar_describes
    (by
      intro ix hix
      simp only [Transfer.top, List.mem_cons, List.not_mem_nil, or_false] at hix
      rcases hix with rfl | rfl
      · exact Or.inr (Or.inl rfl)
      · exact Or.inr (Or.inr hvote))
    ⟨Transfer.vote, by simp [Transfer.top], hvote⟩
  exact ⟨args, ha, hok⟩

end ClearSigning
