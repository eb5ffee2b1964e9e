import ClearSigning.LedgerSound

/-!
# One vote, one displayed content

Whatever `verify_proposal` instructions a transaction holds, the ones that
succeed were shown the same content: the counted vote fixes the action, the
multisig, the member and the proposal, the proposal fixes the stored
transaction, and the transaction fixes the expansion.
-/

namespace ClearSigning

open Exec

/-! ## Invocation of a top-level instruction -/

/-- The instructions sysvar, whose data ends in the position of the running instruction. -/
def Ledger.sysvar (L : Ledger) (data : Slice UInt8) : AccountInfo := { L.info instructionsSysvarId with data }

theorem Ledger.sysvar_data (L : Ledger) (data : Slice UInt8) : (L.sysvar data).data = data := rfl

/-- The accounts an instruction is invoked with; the second one is the sysvar's. -/
def Ledger.accounts (L : Ledger) (sysvar : Slice UInt8) : List AccountMeta → List AccountInfo
  | transaction :: instructionsSysvar :: remaining =>
    L.info transaction.pubkey :: { L.info instructionsSysvar.pubkey with data := sysvar } ::
      remaining.map fun m => L.info m.pubkey
  | metas => metas.map fun m => L.info m.pubkey

def IsVerifyProposal (ix : Instruction) : Prop :=
  ix.programId = programId ∧ verifyProposalDiscriminator.isPrefixOf ix.data = true

theorem report_eq_ok {α : Type} {x : Result α} {a : α} : report x = .ok a ↔ x = .ok a := by
  unfold report
  split <;> simp [fail, Exec.panic]

theorem VerifyProposal.tryAccounts_eq_ok {accounts : List AccountInfo} {ctx : Context VerifyProposal} :
    VerifyProposal.tryAccounts accounts = .ok ctx ↔
      accounts = ctx.accounts.transaction :: ctx.accounts.instructionsSysvar :: ctx.remainingAccounts := by
  obtain ⟨⟨t, s, h⟩, rest⟩ := ctx
  match accounts with
  | [] => simp [VerifyProposal.tryAccounts]
  | [_] => simp [VerifyProposal.tryAccounts]
  | t' :: s' :: rest' =>
    by_cases h' : s'.key = instructionsSysvarId
    · simp [VerifyProposal.tryAccounts, h', and_assoc]
    · have hne : s' ≠ s := fun he => h' (he ▸ h)
      simp [VerifyProposal.tryAccounts, h', hne]

theorem entry_verifyProposal {rt : Runtime} {L : Ledger} {s : Slice UInt8} {metas : List AccountMeta} {data : Bytes}
    (hd : verifyProposalDiscriminator.isPrefixOf data = true)
    (h : entry rt (L.accounts s metas) data = .ok ()) :
    ∃ args transaction remaining, decodeArgs VerifyProposalArgs.borsh data = .ok args ∧
      verifyProposal rt (L.context transaction (L.sysvar s) rfl remaining) args = .ok () := by
  unfold entry at h
  rw [if_pos hd] at h
  obtain ⟨args, ha, h⟩ := bind_eq_ok.mp h
  obtain ⟨⟨⟨t, sysvar, address⟩, rest⟩, hc, h⟩ := bind_eq_ok.mp h
  rw [VerifyProposal.tryAccounts_eq_ok] at hc
  rw [report_eq_ok] at h
  match metas, hc with
  | transaction :: instructionsSysvar :: remaining, hc =>
    simp only [Ledger.accounts, List.cons.injEq] at hc
    obtain ⟨rfl, rfl, rfl⟩ := hc
    have hkey : instructionsSysvar.pubkey = instructionsSysvarId := address
    refine ⟨args, transaction.pubkey, remaining.map (·.pubkey), ha, ?_⟩
    unfold Ledger.context Ledger.sysvar
    simp only [List.map_map, Function.comp_def, ← hkey]
    exact h

/-! ## Agreement -/

section
variable {e e' : VoteExpectation} {ix : Instruction}

theorem VoteContent.agree (h : VoteContent e ix) (h' : VoteContent e' ix) :
    e.action = e'.action ∧ e.multisig = e'.multisig ∧ e.member = e'.member ∧ e.proposal = e'.proposal := by
  have hd := h.discriminator.symm.trans h'.discriminator
  obtain ⟨a, b, c, rest, ha, h1, h2, -, h3⟩ := h.accounts
  obtain ⟨a', b', c', rest', ha', h1', h2', -, h3'⟩ := h'.accounts
  rw [ha] at ha'
  simp only [List.cons.injEq] at ha'
  obtain ⟨rfl, rfl, rfl, -⟩ := ha'
  exact ⟨ProposalAction.discriminator_inj hd, h1.symm.trans h1', h2.symm.trans h2', h3.symm.trans h3'⟩

/-- A counted vote matches every expectation under which it is allowed. -/
theorem Counts.agree (hself : e.selfProgram = e'.selfProgram) (h : Counts e ix) (h' : Allowed e' ix) :
    e.action = e'.action ∧ e.multisig = e'.multisig ∧ e.member = e'.member ∧ e.proposal = e'.proposal := by
  obtain ⟨hx, hv⟩ := h
  cases h' with
  | inl hx' =>
    unfold Exempt at hx hx'
    rw [hself] at hx
    exact absurd hx' hx
  | inr hv' => exact hv.2.agree hv'.2

end

theorem VerifyProposalArgs.content_inj {args args' : VerifyProposalArgs} (hm : args.multisig = args'.multisig)
    (hi : args.transactionIndex = args'.transactionIndex) (hmem : args.member = args'.member)
    (hact : args.action = args'.action) (hc : args.content = args'.content) : args = args' := by
  obtain ⟨m, i, v, n, mem, act, l⟩ := args
  obtain ⟨m', i', v', n', mem', act', l'⟩ := args'
  unfold content at hc
  simp only [Content.mk.injEq] at hc
  obtain ⟨rfl, hn, rfl⟩ := hc
  have hn' : n = n' := UInt8.toNat_inj.mp hn
  simp only at hm hi hmem hact
  rw [hm, hi, hmem, hact, hn']

section
variable {rt : Runtime} {L : Ledger} {top : List Instruction}
  (hinj : ∀ multisig i j, deriveProposalPda rt multisig i = deriveProposalPda rt multisig j → i = j)
include hinj

theorem accepted_agree {s s' : AccountInfo} {hk : s.key = instructionsSysvarId} {hk' : s'.key = instructionsSysvarId}
    (hs : Describes rt s top) (hs' : Describes rt s' top) {t t' : Pubkey} {remaining remaining' : List Pubkey}
    {args args' : VerifyProposalArgs} (h : verifyProposal rt (L.context t s hk remaining) args = .ok ())
    (h' : verifyProposal rt (L.context t' s' hk' remaining') args' = .ok ()) : args = args' := by
  obtain ⟨-, tx, hstored, -, hcontent, -, v, hv, hcounts⟩ := (verifyProposal_iff_content hs).mp h
  obtain ⟨-, tx', hstored', -, hcontent', hallowed, -⟩ := (verifyProposal_iff_content hs').mp h'
  have hself : (args.expectation rt).selfProgram = (args'.expectation rt).selfProgram := rfl
  obtain ⟨hact, hm, hmem, hprop⟩ := hcounts.agree hself (hallowed v hv)
  have hm' : args.multisig = args'.multisig := hm
  have hi : args.transactionIndex = args'.transactionIndex := by
    apply hinj args'.multisig
    have hp : deriveProposalPda rt args.multisig args.transactionIndex =
        deriveProposalPda rt args'.multisig args'.transactionIndex := hprop
    rwa [hm'] at hp
  -- one stored transaction, hence one content
  rw [hm', hi, hstored', Option.some.injEq] at hstored
  subst hstored
  rw [hcontent', Option.some.injEq] at hcontent
  exact VerifyProposalArgs.content_inj hm' hi hmem hact hcontent.symm

/-- All the `verify_proposal` instructions of a transaction that succeed were given the same arguments, every
Squads instruction in it is that vote, and a ledger and a list accept at most one value of the arguments. -/
theorem verifyProposal_agreement {sysvar : Nat → Slice UInt8}
    (hs : ∀ i < top.length, Describes rt (L.sysvar (sysvar i)) top) :
    ((∀ i ix, top[i]? = some ix → IsVerifyProposal ix →
        entry rt (L.accounts (sysvar i) ix.accounts) ix.data = .ok ()) →
      ∀ ix ∈ top, IsVerifyProposal ix → ∃ args,
        (∀ ix' ∈ top, IsVerifyProposal ix' → decodeArgs VerifyProposalArgs.borsh ix'.data = .ok args) ∧
        ∀ v ∈ top, v.programId = squadsProgramId → VoteContent (args.expectation rt) v) ∧
    (∀ i < top.length, ∀ j < top.length, ∀ t t' remaining remaining' args args',
      verifyProposal rt (L.context t (L.sysvar (sysvar i)) rfl remaining) args = .ok () →
      verifyProposal rt (L.context t' (L.sysvar (sysvar j)) rfl remaining') args' = .ok () → args = args') := by
  refine ⟨fun hok ix hix hver => ?_, fun i hi j hj t t' r r' args args' h h' =>
    accepted_agree hinj (hs i hi) (hs j hj) h h'⟩
  obtain ⟨i, hi, hget⟩ := List.mem_iff_getElem.mp hix
  have hok' := hok i ix (by rw [List.getElem?_eq_getElem hi, hget]) hver
  obtain ⟨args, t, remaining, -, haccept⟩ := entry_verifyProposal hver.2 hok'
  refine ⟨args, fun jx hjx hver' => ?_, fun v hv hp => ?_⟩
  · obtain ⟨j, hj, hgetj⟩ := List.mem_iff_getElem.mp hjx
    have hokj := hok j jx (by rw [List.getElem?_eq_getElem hj, hgetj]) hver'
    obtain ⟨args', t', remaining', hdec, haccept'⟩ := entry_verifyProposal hver'.2 hokj
    rw [hdec, accepted_agree hinj (hs i hi) (hs j hj) haccept haccept']
  · obtain ⟨-, -, -, -, -, hallowed, -⟩ := (verifyProposal_iff_content (hs i hi)).mp haccept
    cases hallowed v hv with
    | inl hx => exact absurd hx (squads_not_exempt rfl hp)
    | inr hmatch => exact hmatch.2

end

theorem Transfer.deriveProposalPda_eq (top : List Instruction) (multisig : Pubkey) (index : UInt64) :
    deriveProposalPda (runtime top) multisig index = proposalPda ∧ index = 1 ∨
      deriveProposalPda (runtime top) multisig index = indexKey (leBytes 8 index.toNat) := by
  have h5 : findProgramAddress [seedPrefix, multisig.toList, seedTransaction, leBytes 8 index.toNat, seedProposal]
      squadsProgramId = if [seedPrefix, multisig.toList, seedTransaction, leBytes 8 index.toNat, seedProposal] =
        [seedPrefix, Transfer.multisig.toList, seedTransaction, leBytes 8 1, seedProposal] then (proposalPda, 255)
      else (indexKey (leBytes 8 index.toNat), 255) := if_neg (by simp)
  have hpda : deriveProposalPda (runtime top) multisig index = (findProgramAddress
      [seedPrefix, multisig.toList, seedTransaction, leBytes 8 index.toNat, seedProposal] squadsProgramId).1 := rfl
  rw [hpda, h5]
  split
  · rename_i hseeds
    simp only [List.cons.injEq] at hseeds
    have h8 := leNat_leBytes 8 _ index.toNat_lt
    rw [hseeds.2.2.2.1] at h8
    exact Or.inl ⟨rfl, UInt64.toNat_inj.mp h8.symm⟩
  · exact Or.inr rfl

theorem Transfer.deriveProposalPda_inj (top : List Instruction) (multisig : Pubkey) (i j : UInt64)
    (h : deriveProposalPda (runtime top) multisig i = deriveProposalPda (runtime top) multisig j) : i = j := by
  have hnat : ∀ k : UInt64, leNat (indexKey (leBytes 8 k.toNat)).toList = k.toNat := by
    intro k
    show leNat (leBytes 32 (leNat (leBytes 8 k.toNat))) = _
    rw [leNat_leBytes 8 _ k.toNat_lt, leNat_leBytes 32 _ (Nat.lt_trans k.toNat_lt (by decide))]
  have hbig : ∀ k : UInt64, indexKey (leBytes 8 k.toNat) ≠ proposalPda := by
    intro k hk
    have hle : 2 ^ 64 ≤ leNat proposalPda.toList := by decide +kernel
    have := k.toNat_lt
    rw [← hk, hnat] at hle
    omega
  rcases deriveProposalPda_eq top multisig i with ⟨hi, hi1⟩ | hi
  · rcases deriveProposalPda_eq top multisig j with ⟨hj, hj1⟩ | hj
    · rw [hi1, hj1]
    · rw [hi, hj] at h
      exact absurd h.symm (hbig j)
  · rcases deriveProposalPda_eq top multisig j with ⟨hj, hj1⟩ | hj
    · rw [hi, hj] at h
      exact absurd h (hbig i)
    · rw [hi, hj] at h
      have hn := congrArg (fun k : Pubkey => leNat k.toList) h
      simp only [hnat] at hn
      exact UInt64.toNat_inj.mp hn

/-- The same check with a byte behind its arguments. -/
def Transfer.verifyPadded : Instruction := { verify with data := verify.data ++ [0] }

def Transfer.checkedTwice : List Instruction := [verify, verifyPadded, vote]

theorem transfer_agreement : ∃ args,
    (∀ ix ∈ Transfer.checkedTwice, IsVerifyProposal ix → decodeArgs VerifyProposalArgs.borsh ix.data = .ok args) ∧
    ∀ v ∈ Transfer.checkedTwice, v.programId = squadsProgramId →
      VoteContent (args.expectation (Transfer.runtime Transfer.checkedTwice)) v := by
  have hfits : (Transfer.listing Transfer.checkedTwice).length ≤ 2 ^ 62 := by decide +kernel
  have hagree := @verifyProposal_agreement (Transfer.runtime Transfer.checkedTwice) (Transfer.ledger Transfer.table)
    Transfer.checkedTwice (Transfer.deriveProposalPda_inj _) (Transfer.sysvarData Transfer.checkedTwice)
    (fun i _ => Transfer.describes_sysvar (by decide) hfits i (Ledger.sysvar_data ..))
  refine hagree.1 ?_ Transfer.verify (List.mem_cons_self ..) ⟨rfl, by decide +kernel⟩
  intro i ix hi hver
  obtain ⟨hlt, hget⟩ := List.getElem?_eq_some_iff.mp hi
  have hcases : i = 0 ∨ i = 1 ∨ i = 2 := by
    have hlen : Transfer.checkedTwice.length = 3 := rfl
    omega
  rcases hcases with rfl | rfl | rfl
  · obtain rfl : Transfer.verify = ix := hget
    decide +kernel
  · obtain rfl : Transfer.verifyPadded = ix := hget
    decide +kernel
  · have hvote : ix.programId = squadsProgramId := by rw [← hget]; rfl
    have hne : squadsProgramId ≠ programId := by decide +kernel
    exact absurd (hvote.symm.trans hver.1) hne

end ClearSigning
