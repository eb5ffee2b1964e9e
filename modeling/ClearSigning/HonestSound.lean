import ClearSigning.HistorySound
import ClearSigning.TamperSound

/-!
# The honest wallet's vote

A wallet reads the stored transaction and its tables, builds a check and a vote,
and sends them later. Whatever is committed in between, as long as the stored
transaction and its tables are there: the two do what the vote alone does, where
every lookup index is inside its table by then, and fail elsewhere.
-/

namespace ClearSigning

open Exec

/-! ## Expanding over tables that grow -/

section
variable {message : VaultTransactionMessage} {lookups : List MultisigMessageAddressTableLookup}
  {tables tables' : List (List Pubkey)}

/-- A list whose keys are all in another one, at their places. -/
def Grows (a b : List (Option Pubkey)) : Prop := List.Forall₂ (fun x y => ∀ k, x = some k → y = some k) a b

theorem Grows.refl (a : List (Option Pubkey)) : Grows a a := List.forall₂_same.mpr fun _ _ _ => id

theorem Grows.append {a a' b b' : List (Option Pubkey)} (h : Grows a b) (h' : Grows a' b') :
    Grows (a ++ a') (b ++ b') := List.rel_append h h'

theorem Grows.get {a b : List (Option Pubkey)} (h : Grows a b) {i : Nat} {k : Pubkey} (hk : a[i]?.join = some k) :
    b[i]?.join = some k := by
  rw [Option.join_eq_some_iff, List.getElem?_eq_some_iff] at hk ⊢
  obtain ⟨hi, hk⟩ := hk
  have hi' : i < b.length := h.length_eq ▸ hi
  exact ⟨hi', (List.forall₂_iff_get.mp h).2 i hi hi' k hk⟩

theorem lookedUp_grows (indexes : MultisigMessageAddressTableLookup → List UInt8)
    (ht : List.Forall₂ (· <+: ·) tables tables') :
    Grows (lookedUp indexes (lookups.zip tables)) (lookedUp indexes (lookups.zip tables')) := by
  induction ht generalizing lookups with
  | nil => exact .refl _
  | cons hp _ ih =>
    cases lookups with
    | nil => exact .refl _
    | cons l lookups =>
      obtain ⟨ext, rfl⟩ := hp
      refine Grows.append ?_ ih
      -- an index inside a table reads the same key when the table is longer
      unfold Grows
      rw [List.forall₂_map_left_iff, List.forall₂_map_right_iff, List.forall₂_same]
      intro i _ k hk
      rw [List.getElem?_append_left (List.getElem?_eq_some_iff.mp hk).1, hk]

variable (ht : List.Forall₂ (· <+: ·) tables tables')
include ht

theorem keyTable_grows : Grows (keyTable message tables) (keyTable message tables') :=
  ((Grows.refl _).append (lookedUp_grows _ ht)).append (lookedUp_grows _ ht)

theorem expandAccount_grows {i : UInt8} {x : ExpectedAccountMeta} (h : expandAccount message tables i = some x) :
    expandAccount message tables' i = some x := by
  have hwritable : writableAt message tables' = writableAt message tables := by
    have hlen : (loadedWritable message tables).length = (loadedWritable message tables').length :=
      List.Forall₂.length_eq (lookedUp_grows _ ht)
    funext i
    unfold writableAt
    rw [hlen]
  unfold expandAccount at h ⊢
  rw [Option.map_eq_some_iff] at h ⊢
  obtain ⟨k, hk, rfl⟩ := h
  exact ⟨k, (keyTable_grows ht).get hk, by rw [hwritable]⟩

theorem expandInstruction_grows {ix : MultisigCompiledInstruction} {x : ExpectedInstruction}
    (h : expandInstruction message tables ix = some x) : expandInstruction message tables' ix = some x := by
  simp only [expandInstruction, Option.bind_eq_bind, Option.bind_eq_some_iff, mapM_eq_some] at h ⊢
  obtain ⟨programId, hp, accounts, ha, hx⟩ := h
  exact ⟨programId, (keyTable_grows ht).get hp, accounts, ha.imp fun _ _ h => expandAccount_grows ht h, hx⟩

theorem expectedInstructions_grows {l : List ExpectedInstruction}
    (h : Wallet.expectedInstructions message tables = l.map ExpectedInstruction.toJs) :
    Wallet.expectedInstructions message tables' = l.map ExpectedInstruction.toJs := by
  rw [Wallet.expectedInstructions_eq_map, mapM_eq_some] at h ⊢
  exact h.imp fun _ _ h => expandInstruction_grows ht h

end

/-! ## What the wallet builds -/

section
variable {rt : Runtime} {sdk : Sdk} {coder : Coder} {multisig member : Pubkey} {index : UInt64} {tx : VaultTransaction}
  {tables : List (List Pubkey)} {args : VerifyProposalArgs}

theorem Wallet.args_eq_toJs {action : ProposalAction} : Wallet.args multisig index tx tables member action = args.toJs ↔
    args.multisig = multisig ∧ args.transactionIndex = index ∧ tx.vaultIndex = args.vaultIndex ∧
      tx.ephemeralSignerBumps.length = args.numEphemeralSigners.toNat ∧ args.member = member ∧
      args.action = action ∧
      Wallet.expectedInstructions tx.message tables = args.instructions.map ExpectedInstruction.toJs := by
  unfold Wallet.args VerifyProposalArgs.toJs
  rw [Js.VerifyProposalArgs.mk.injEq, UInt64.toNat_inj, UInt8.toNat_inj, eq_comm (a := args.multisig),
    eq_comm (a := args.transactionIndex), eq_comm (a := args.member), eq_comm (a := args.action)]

theorem Wallet.instructions_eq_some (hsdk : sdk.Lawful rt) (hcoder : coder.Follows idl) {ixs : List Instruction}
    (h : Wallet.instructions sdk coder multisig index tx tables member = some ixs) :
    ∃ (args : VerifyProposalArgs) (verify vote : Instruction),
      Wallet.args multisig index tx tables member .approve = args.toJs ∧ ixs = [verify, vote] ∧
      ProposalCall rt args (tx.message.addressTableLookups.map (·.accountKey)) verify ∧
      MatchingVote (args.expectation rt) vote := by
  unfold Wallet.instructions at h
  simp only [Option.bind_eq_bind, Option.bind_eq_some_iff, Option.pure_def, Option.some.injEq] at h
  obtain ⟨verify, hverify, rfl⟩ := h
  obtain ⟨args, hargs, hsize, rfl⟩ := hcoder.proposal.mp hverify
  have hsized := VerifyProposalArgs.sized_of_size (Nat.lt_of_le_of_lt hsize hcoder.capacity)
  obtain ⟨hm, hi, -, -, hk, ha, -⟩ := Wallet.args_eq_toJs.mp hargs
  have ht : sdk.getTransactionPda multisig index = deriveTransactionPda rt args.multisig args.transactionIndex := by
    rw [hsdk.getTransactionPda, hm, hi]
  have hcall := laid_proposalCall hsized ht (Wallet.remainingAccounts tx.message)
  unfold Wallet.remainingAccounts at hcall
  rw [List.map_map] at hcall
  have hvote := hsdk.vote ha
  rw [hm, hi, hk] at hvote
  exact ⟨args, _, _, hargs, rfl, hcall, hvote⟩

theorem Wallet.instructions_isSome (hcoder : coder.Follows idl) :
    (Wallet.instructions sdk coder multisig index tx tables member).isSome ↔
      Wallet.Keyed tx.message tables ∧ tx.ephemeralSignerBumps.length < 256 ∧
        tx.message.argsSize ≤ coder.capacity := by
  have hsize : ∀ args : VerifyProposalArgs, Wallet.expectedInstructions tx.message tables =
      args.instructions.map ExpectedInstruction.toJs → args.size = tx.message.argsSize := fun args hx =>
    expanded_size (expanded_shape (Wallet.expectedInstructions_eq_map.mp hx))
  unfold Wallet.instructions
  simp only [Option.isSome_iff_exists, Option.bind_eq_bind, Option.bind_eq_some_iff, hcoder.proposal,
    Option.pure_def, Option.some.injEq, ← Wallet.exists_expectedInstructions]
  constructor
  · intro h
    obtain ⟨_, _, ⟨args, hargs, hfits, -⟩, -⟩ := h
    obtain ⟨-, -, -, hn, -, -, hx⟩ := Wallet.args_eq_toJs.mp hargs
    exact ⟨⟨_, hx⟩, hn ▸ args.numEphemeralSigners.toNat_lt, hsize args hx ▸ hfits⟩
  · intro h
    obtain ⟨⟨l, hl⟩, hlt, hfits⟩ := h
    let args : VerifyProposalArgs := ⟨multisig, index, tx.vaultIndex, UInt8.ofNat tx.ephemeralSignerBumps.length,
      member, .approve, l⟩
    have hargs : Wallet.args multisig index tx tables member .approve = args.toJs :=
      Wallet.args_eq_toJs.mpr ⟨rfl, rfl, rfl, count_fits.mpr hlt, rfl, rfl, hl⟩
    exact ⟨_, _, ⟨args, hargs, (hsize args hl).symm ▸ hfits, rfl⟩, rfl⟩

end

/-! ## What becomes of it -/

section
variable {σ : Type} {c : Cluster σ} {s t : σ} {sdk : Sdk} {multisig member : Pubkey} {index : UInt64}
  {tx : VaultTransaction} {tables : List (List Pubkey)} {coder : Coder}

/-- The arguments show what the ledger stores where every index of every lookup is inside its table. -/
theorem Wallet.content_iff {L : Ledger} {args : VerifyProposalArgs} {action : ProposalAction}
    {tables' : List (List Pubkey)} (hargs : Wallet.args multisig index tx tables member action = args.toJs)
    (ht : tx.message.addressTableLookups.mapM (fun l => L.table l.accountKey) = some tables')
    (hsame : Wallet.expectedInstructions tx.message tables' = Wallet.expectedInstructions tx.message tables) :
    L.content tx = some args.content ↔ ∀ k ∈ keyTable tx.message tables', k.isSome := by
  obtain ⟨-, -, hv, hn, -, -, hx⟩ := Wallet.args_eq_toJs.mp hargs
  have hlen : tables'.length = tx.message.addressTableLookups.length :=
    (List.Forall₂.length_eq (mapM_eq_some.mp ht)).symm
  rw [Ledger.content_eq_some, ← List.all_eq_true]
  refine ⟨fun ⟨_, _, tables₁, ht₁, hexp⟩ => ?_, fun hkeys => ⟨hv, hn, tables', ht, ?_⟩⟩
  · obtain rfl := Option.some.inj (ht.symm.trans ht₁)
    unfold expansion at hexp
    rw [Option.ite_none_right_eq_some] at hexp
    exact hexp.1.2
  · unfold expansion
    rw [if_pos ⟨hlen, hkeys⟩, ← Wallet.expectedInstructions_eq_map, hsame, hx]

section
variable {e : VoteExpectation} {verify vote : Instruction} (hverify : verify.programId = programId)
  (hvote : MatchingVote e vote)
include hverify hvote

theorem MatchingVote.allowed_beside (he : e.selfProgram = programId) : ∀ y ∈ [verify, vote], Allowed e y := by
  intro y hy
  rw [List.mem_cons, List.mem_singleton] at hy
  rcases hy with rfl | rfl
  · exact .inl (.inl (hverify.trans he.symm))
  · exact .inr hvote

theorem Cluster.transact_voted (hlaw : c.Lawful) : c.transact s [verify, vote] = some t ↔
    c.Passes [verify, vote] s (verify, 0) ∧ c.execute s vote = some t := by
  have hne : squadsProgramId ≠ programId := by decide +kernel
  have hother : vote.programId ≠ programId := hvote.1 ▸ hne
  have hfront : ∀ ix ∈ [verify], ix.programId = programId ∨ ix.programId = computeBudgetProgramId := by
    intro ix hix
    rw [List.mem_singleton.mp hix]
    exact .inl hverify
  have hchecks := transact_checks (s := s) (t := t) hlaw hfront hother
  rw [List.singleton_append] at hchecks
  have hfilter : [verify, vote].filter (·.programId ≠ programId) = [vote] := by
    rw [List.filter_cons_of_neg (by simp [hverify]), List.filter_cons_of_pos (by simp [hother])]
    rfl
  rw [hchecks, hfilter]
  simp only [List.zipIdx_singleton, List.forall_mem_singleton, hverify, forall_const, Trace.run_cons, Trace.run_nil,
    Option.some.injEq, exists_eq_right]

end

theorem wallet_transact {verify vote : Instruction} {args : VerifyProposalArgs} {tables' : List (List Pubkey)}
    (hlaw : c.Lawful) (hl : c.Lists [verify, vote]) (hsys : ¬(c.ledger s instructionsSysvarId).Carries)
    (htx : (c.ledger s).vaultTransaction c.rt multisig index = some tx)
    (ht : tx.message.addressTableLookups.mapM (fun l => (c.ledger s).table l.accountKey) = some tables')
    (hsame : Wallet.expectedInstructions tx.message tables' = Wallet.expectedInstructions tx.message tables)
    (hargs : Wallet.args multisig index tx tables member .approve = args.toJs)
    (hverify : ProposalCall c.rt args (tx.message.addressTableLookups.map (·.accountKey)) verify)
    (hvote : MatchingVote (args.expectation c.rt) vote) : c.transact s [verify, vote] = some t ↔
      (∀ k ∈ keyTable tx.message tables', k.isSome) ∧ c.execute s vote = some t := by
  have hcounts : ∃ y ∈ [verify, vote], Counts (args.expectation c.rt) y :=
    ⟨vote, by simp, squads_not_exempt rfl hvote.1, hvote⟩
  obtain ⟨hm, hi, -⟩ := Wallet.args_eq_toJs.mp hargs
  rw [Cluster.transact_voted hverify.programId hvote hlaw, hverify.accepts hsys hl Nat.zero_lt_two, hm, hi,
    ← Wallet.content_iff hargs ht hsame]
  refine and_congr_left fun _ => ⟨fun ⟨tx', htx', _, hc, _⟩ => ?_, fun hc => ⟨tx, htx, rfl, hc, ?_, hcounts⟩⟩
  · obtain rfl := Option.some.inj (htx.symm.trans htx')
    exact hc
  · exact hvote.allowed_beside hverify.programId rfl

/-- The wallet builds its transaction where every index of an instruction has a key, the count of signers fits its byte
and the arguments fit the coder's buffer. Sent after any history that leaves the stored transaction and its tables
there, it does what its vote does where every lookup index is inside its table by then, and fails elsewhere. -/
theorem wallet_vote_lands (hlaw : c.Lawful) (happ : c.AppendOnly) (hsdk : sdk.Lawful c.rt) (hcoder : coder.Follows idl)
    (htx : (c.ledger s).vaultTransaction c.rt multisig index = some tx)
    (ht : tx.message.addressTableLookups.mapM (fun l => (c.ledger s).table l.accountKey) = some tables) :
    ((Wallet.instructions sdk coder multisig index tx tables member).isSome ↔
      Wallet.Keyed tx.message tables ∧ tx.ephemeralSignerBumps.length < 256 ∧
        tx.message.argsSize ≤ coder.capacity) ∧
    ∀ ixs top txs, Wallet.instructions sdk coder multisig index tx tables member = some ixs →
      List.Forall₂ Instruction.CompilesTo ixs top → c.Lists top → c.OpenThrough s txs multisig index tx →
      ¬(c.ledger (c.history s txs) instructionsSysvarId).Carries →
      ∃ verify vote tables', top = [verify, vote] ∧
        tx.message.addressTableLookups.mapM (fun l => (c.ledger (c.history s txs)).table l.accountKey) = some tables' ∧
        ∀ t, c.transact (c.history s txs) top = some t ↔
          (∀ k ∈ keyTable tx.message tables', k.isSome) ∧ c.execute (c.history s txs) vote = some t := by
  refine ⟨Wallet.instructions_isSome hcoder, fun ixs top txs h hc hl hopen hsys => ?_⟩
  obtain ⟨args, verify, vote, hargs, rfl, hverify, hvote⟩ := Wallet.instructions_eq_some hsdk hcoder h
  obtain ⟨verify', rest, hcv, hrest, rfl⟩ := List.forall₂_cons_left_iff.mp hc
  obtain ⟨vote', rfl, hcvote⟩ := forall₂_singleton_left hrest
  obtain ⟨-, -, -, -, -, -, hx⟩ := Wallet.args_eq_toJs.mp hargs
  -- what is carried through the history is the expansion the wallet showed
  have hP : ∀ {a b}, List.Forall₂ (· <+: ·) a b →
      Wallet.expectedInstructions tx.message a = args.instructions.map ExpectedInstruction.toJs →
      Wallet.expectedInstructions tx.message b = args.instructions.map ExpectedInstruction.toJs :=
    fun hgrow h => expectedInstructions_grows hgrow h
  obtain ⟨htx', tables', ht', hx'⟩ := Cluster.history_tables hP happ htx ht hx hopen
  exact ⟨verify', vote', tables', rfl, ht', fun t => wallet_transact hlaw hl hsys htx' ht' (hx'.trans hx.symm) hargs
    (hverify.compiled hcv) (hvote.compiled hcvote)⟩

end

/-! ## A vote over a table that grows -/

namespace Transfer

def sdk : Sdk where
  getTransactionPda := deriveTransactionPda (runtime top)
  proposalApprove multisig index member := { vote with
    accounts := [
      { pubkey := multisig, isSigner := false, isWritable := false },
      { pubkey := member, isSigner := true, isWritable := true },
      { pubkey := deriveProposalPda (runtime top) multisig index, isSigner := false, isWritable := true }] }
  setComputeUnitLimit := Approve.sdk.setComputeUnitLimit

theorem sdk_lawful : sdk.Lawful (runtime top) where
  getTransactionPda _ _ := rfl
  proposalApprove _ _ _ := ⟨[], rfl⟩
  setComputeUnitLimit := (Approve.sdk_lawful []).setComputeUnitLimit

end Transfer

/-- The table grows after the wallet read it. -/
theorem transfer_vote_lands : Transfer.cluster.transact (Transfer.cluster.history (false, []) [[Transfer.extend]])
    Transfer.top = some (true, [⟨Transfer.proposalPda, Transfer.member, .approve⟩]) := by
  have hbuilt : Wallet.instructions Transfer.sdk Approve.coder Transfer.multisig 1 Transfer.tx
      [[Transfer.recipient]] Transfer.member = some Transfer.top := by decide +kernel
  have hopen : Transfer.cluster.OpenThrough (false, []) [[Transfer.extend]] Transfer.multisig 1 Transfer.tx := by
    intro pre hpre
    rcases List.prefix_cons_iff.mp hpre with rfl | ⟨l, rfl, hl⟩
    · exact ⟨by decide +kernel, by decide +kernel⟩
    · obtain rfl := List.prefix_nil.mp hl
      exact ⟨by decide +kernel, by decide +kernel⟩
  have hsys : ¬(Transfer.cluster.ledger (Transfer.cluster.history (false, []) [[Transfer.extend]])
      instructionsSysvarId).Carries := by
    have howner : Transfer.systemProgram ≠ addressLookupTableProgramId ∧ Transfer.systemProgram ≠ squadsProgramId ∧
        Transfer.systemProgram ≠ bpfLoaderUpgradeableId := by decide +kernel
    exact fun hc => hc.elim howner.1 fun hc => hc.elim (fun hc => howner.2.1 hc.1) howner.2.2
  obtain ⟨-, hlands⟩ := @wallet_vote_lands _ Transfer.cluster (false, []) Transfer.sdk Transfer.multisig
    Transfer.member 1 Transfer.tx [[Transfer.recipient]] Approve.coder Transfer.cluster_lawful
    Transfer.cluster_appendOnly Transfer.sdk_lawful Approve.coder_follows (by decide +kernel) (by decide +kernel)
  obtain ⟨verify, vote, tables, htop, ht, hiff⟩ := hlands _ _ _ hbuilt
    (List.forall₂_same.mpr fun ix _ => .refl ix) Transfer.cluster_lists hopen hsys
  obtain ⟨rfl, rfl⟩ : Transfer.verify = verify ∧ Transfer.vote = vote := by
    cases htop
    exact ⟨rfl, rfl⟩
  have hgrown : Transfer.tx.message.addressTableLookups.mapM (fun l =>
      (Transfer.cluster.ledger (Transfer.cluster.history (false, []) [[Transfer.extend]])).table l.accountKey) =
        some [[Transfer.recipient, Transfer.member]] := by decide +kernel
  obtain rfl := Option.some.inj (hgrown.symm.trans ht)
  have hkeys : (keyTable Transfer.tx.message [[Transfer.recipient, Transfer.member]]).all (·.isSome) = true := by
    decide +kernel
  exact (hiff _).mpr ⟨List.all_eq_true.mp hkeys, by decide +kernel⟩

end ClearSigning
