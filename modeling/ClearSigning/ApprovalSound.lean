import ClearSigning.Approval
import ClearSigning.HashingSound
import ClearSigning.IdlSound
import ClearSigning.WalletSound

/-!
# What the approval scripts send

Both scripts send the same checks in front of the same vote, and a transaction
that is compiled from what they send still holds them. A key that is missing
stops both. Where the arguments fit the client's coder and the count of signers
its byte, the encoder written by hand and the coder write the same.
-/

namespace ClearSigning

open Exec

/-! ## The calls -/

/-- A call of `verify_buffer_hash`, whatever its accounts' flags. -/
structure BufferCall (args : VerifyBufferHashArgs) (ix : Instruction) : Prop where
  programId : ix.programId = programId
  accounts : ix.accounts.map (·.pubkey) = [args.buffer]
  shows : ShowsBuffer ix.data args

/-- A call of `verify_proposal`, whatever its accounts' flags. -/
structure ProposalCall (rt : Runtime) (args : VerifyProposalArgs) (remaining : List Pubkey) (ix : Instruction) :
    Prop where
  programId : ix.programId = programId
  accounts : ix.accounts.map (·.pubkey) =
    deriveTransactionPda rt args.multisig args.transactionIndex :: instructionsSysvarId :: remaining
  shows : ShowsProposal ix.data args

/-! ## The transaction around them -/

/-- Compute-budget instructions, the buffer checks, the check of the proposal, and the vote it announces. -/
structure Bundle (rt : Runtime) (hashes : List VerifyBufferHashArgs) (args : VerifyProposalArgs)
    (budget checks : List Instruction) (verify vote : Instruction) : Prop where
  budget : ∀ ix ∈ budget, ix.programId = computeBudgetProgramId
  checks : List.Forall₂ BufferCall hashes checks
  verify : ProposalCall rt args [] verify
  vote : MatchingVote (args.expectation rt) vote

section
variable {rt : Runtime} {hashes : List VerifyBufferHashArgs} {args : VerifyProposalArgs}
  {budget checks : List Instruction} {verify vote : Instruction} (h : Bundle rt hashes args budget checks verify vote)
include h

theorem Bundle.check {ix : Instruction} (hix : ix ∈ checks) : ∃ a ∈ hashes, BufferCall a ix :=
  exists_left_of_mem h.checks hix

theorem Bundle.front : ∀ ix ∈ budget ++ checks ++ [verify],
    ix.programId = programId ∨ ix.programId = computeBudgetProgramId := by
  simp only [List.forall_mem_append, List.forall_mem_singleton]
  refine ⟨⟨fun ix hix => .inr (h.budget ix hix), fun ix hix => ?_⟩, .inl h.verify.programId⟩
  obtain ⟨_, -, hc⟩ := h.check hix
  exact .inl hc.programId

theorem Bundle.called {a : VerifyBufferHashArgs} (ha : a ∈ hashes) : ∃ ix ∈ checks, BufferCall a ix :=
  exists_right_of_mem h.checks ha

theorem Bundle.allowed : ∀ ix ∈ budget ++ checks ++ [verify] ++ [vote], Allowed (args.expectation rt) ix := by
  intro ix hix
  rcases List.mem_append.mp hix with hix | hix
  · exact .inl (h.front ix hix)
  · rw [List.mem_singleton.mp hix]
    exact .inr h.vote

theorem Bundle.voted : ∃ ix ∈ budget ++ checks ++ [verify] ++ [vote], Counts (args.expectation rt) ix :=
  ⟨vote, by simp, squads_not_exempt rfl h.vote.1, h.vote⟩

end

/-! ## Compilation keeps it -/

section
variable {ix ix' : Instruction} (hc : ix.CompilesTo ix')
include hc

theorem Instruction.CompilesTo.pubkeys : ix'.accounts.map (·.pubkey) = ix.accounts.map (·.pubkey) := by
  symm
  apply map_eq_map_forall₂.mpr
  exact hc.accounts.imp fun _ _ h => h.1.symm

theorem BufferCall.compiled {args : VerifyBufferHashArgs} (h : BufferCall args ix) : BufferCall args ix' where
  programId := hc.programId.trans h.programId
  accounts := hc.pubkeys.trans h.accounts
  shows := hc.data ▸ h.shows

theorem ProposalCall.compiled {rt : Runtime} {args : VerifyProposalArgs} {remaining : List Pubkey}
    (h : ProposalCall rt args remaining ix) : ProposalCall rt args remaining ix' where
  programId := hc.programId.trans h.programId
  accounts := hc.pubkeys.trans h.accounts
  shows := hc.data ▸ h.shows

theorem MatchingVote.compiled {e : VoteExpectation} (h : MatchingVote e ix) : MatchingVote e ix' := by
  obtain ⟨hp, hv⟩ := h
  refine ⟨hc.programId.trans hp, hc.data ▸ hv.eight_le, hc.data ▸ hv.discriminator, ?_⟩
  obtain ⟨a, b, d, rest, hacc, ha, hb, hs, hd⟩ := hv.accounts
  have haccounts := hc.accounts
  simp only [hacc, List.forall₂_cons_left_iff] at haccounts
  obtain ⟨a', _, ⟨ha', -⟩, ⟨b', _, ⟨hb', hs'⟩, ⟨d', rest', ⟨hd', -⟩, -, rfl⟩, rfl⟩, hacc'⟩ := haccounts
  exact ⟨a', b', d', rest', hacc', ha'.trans ha, hb'.trans hb, hs' hs, hd'.trans hd⟩

end

theorem Bundle.compiled {rt : Runtime} {hashes : List VerifyBufferHashArgs} {args : VerifyProposalArgs}
    {budget checks top : List Instruction} {verify vote : Instruction}
    (h : Bundle rt hashes args budget checks verify vote)
    (hc : List.Forall₂ Instruction.CompilesTo (budget ++ checks ++ [verify] ++ [vote]) top) :
    ∃ budget' checks' verify' vote', top = budget' ++ checks' ++ [verify'] ++ [vote'] ∧
      Bundle rt hashes args budget' checks' verify' vote' := by
  obtain ⟨front, last, rfl, hfront, hlast⟩ := forall₂_append_left hc
  obtain ⟨front, middle, rfl, hfront, hmiddle⟩ := forall₂_append_left hfront
  obtain ⟨budget', checks', rfl, hbudget, hchecks⟩ := forall₂_append_left hfront
  obtain ⟨verify', rfl, hverify⟩ := forall₂_singleton_left hmiddle
  obtain ⟨vote', rfl, hvote⟩ := forall₂_singleton_left hlast
  refine ⟨budget', checks', verify', vote', rfl, ?_, ?_, h.verify.compiled hverify, h.vote.compiled hvote⟩
  · intro ix' hix'
    obtain ⟨ix, hix, hsame⟩ := exists_left_of_mem hbudget hix'
    exact hsame.programId.trans (h.budget ix hix)
  · have hlen := h.checks.length_eq.trans hchecks.length_eq
    refine List.forall₂_iff_get.mpr ⟨hlen, fun i hi hi' => ?_⟩
    have hib : i < checks.length := by rw [← h.checks.length_eq]; exact hi
    exact ((List.forall₂_iff_get.mp h.checks).2 i hi hib).compiled ((List.forall₂_iff_get.mp hchecks).2 i hib hi')

/-! ## What the scripts build -/

theorem buildExpected_eq_some {message : VaultTransactionMessage} {expected : List ExpectedInstruction} :
    ApproveClearsign.buildExpected message = some (expected.map ExpectedInstruction.toJs) ↔
      message.addressTableLookups = [] ∧ expansion message [] = some expected := by
  unfold ApproveClearsign.buildExpected
  cases hl : message.addressTableLookups with
  | cons l ls => simp
  | nil =>
    have hall : (keyTable message []).all Option.isSome = true := by
      rw [keyTable_static hl, List.all_map]
      simp
    unfold expansion
    rw [if_neg (by simp), if_pos ⟨by rw [hl]; rfl, hall⟩, Option.some.injEq, expandStatic_eq_map hl []]
    simp

section
variable {message : VaultTransactionMessage} {tables : List (List Pubkey)} {expected : List ExpectedInstruction}

theorem expanded_shape (hx : message.instructions.mapM (expandInstruction message tables) = some expected) :
    List.Forall₂ (fun ix x => x.accounts.length = ix.accountIndexes.length ∧ x.data = ix.data)
      message.instructions expected := by
  rw [mapM_eq_some] at hx
  refine hx.imp fun ix x h => ?_
  simp only [expandInstruction, Option.bind_eq_bind, Option.bind_eq_some_iff, Option.pure_def, Option.some.injEq,
    mapM_eq_some] at h
  obtain ⟨_, -, accounts, haccounts, rfl⟩ := h
  exact ⟨haccounts.length_eq.symm, rfl⟩

theorem expansion_shape (hx : expansion message tables = some expected) :
    List.Forall₂ (fun ix x => x.accounts.length = ix.accountIndexes.length ∧ x.data = ix.data)
      message.instructions expected := by
  unfold expansion at hx
  rw [Option.ite_none_right_eq_some] at hx
  exact expanded_shape hx.2

end

theorem expansion_sized {rt : Runtime} {L : Ledger} {multisig : Pubkey} {index : UInt64} {tx : VaultTransaction}
    {expected : List ExpectedInstruction} (htx : L.vaultTransaction rt multisig index = some tx)
    (hx : expansion tx.message [] = some expected) : expected.length < 2 ^ 32 ∧ ∀ x ∈ expected, x.Sized := by
  obtain ⟨e, -, he, -⟩ := VaultTransaction.deserializeChecked_eq_ok.mp (Ledger.vaultTransaction_eq_some.mp htx).1
  have hsized := ((VaultTransaction.writes tx e).mp he).1.message
  have hshape := expansion_shape hx
  refine ⟨hshape.length_eq ▸ hsized.instructions, fun x hmem => ?_⟩
  obtain ⟨ix, hix, hlen, hdata⟩ := exists_left_of_mem hshape hmem
  have hfits := hsized.instruction ix hix
  exact ⟨hlen ▸ hfits.1, hdata ▸ hfits.2⟩

/-! ### The list that may have been tampered with -/

section
variable {env : Environment} {expected shown : List ExpectedInstruction}

theorem printed_eq_some {l l' : List Js.ExpectedInstruction} :
    printed l = some l' ↔ l' = l ∧ l.all (·.programId.isSome) = true := by
  unfold printed
  rw [Option.ite_none_right_eq_some, Option.some.injEq, and_comm, eq_comm]

theorem printed_map :
    printed (expected.map ExpectedInstruction.toJs) = some (expected.map ExpectedInstruction.toJs) := by
  refine printed_eq_some.mpr ⟨rfl, ?_⟩
  rw [List.all_map]
  exact List.all_eq_true.mpr fun _ _ => rfl

/-- The tampered list has all its keys only where the list had them. -/
theorem tampered_defined {l : List Js.ExpectedInstruction}
    (h : tampered env l = some (shown.map ExpectedInstruction.toJs)) :
    ∃ expected : List ExpectedInstruction, l = expected.map ExpectedInstruction.toJs := by
  unfold tampered at h
  split at h
  · cases l with
    | nil => cases h
    | cons x rest =>
      simp only [flipByte, Option.some.injEq] at h
      cases shown with
      | nil => cases h
      | cons y shown =>
        obtain ⟨hx, rfl⟩ := List.cons.inj h
        refine ⟨{ y with data := x.data } :: shown, ?_⟩
        obtain ⟨hp, ha, -⟩ := Js.ExpectedInstruction.mk.inj hx
        rw [List.map_cons]
        congr 1
        obtain ⟨p, a, d⟩ := x
        rw [show p = _ from hp, show a = _ from ha]
        rfl
  · exact ⟨shown, Option.some.inj h⟩

theorem flipByte_eq_some
    (h : flipByte (expected.map ExpectedInstruction.toJs) = some (shown.map ExpectedInstruction.toJs)) :
    ∃ x y rest, expected = x :: rest ∧ shown = y :: rest ∧ y.programId = x.programId ∧ y.accounts = x.accounts ∧
      y.data.length = x.data.length ∧ (y.data = x.data ↔ x.data = []) := by
  have hflip : ∀ b : UInt8, b ^^^ 0xff ≠ b := forall_byte (by decide +kernel)
  cases expected with
  | nil => cases h
  | cons x rest =>
    have htyped : shown.map ExpectedInstruction.toJs =
        ({ x with data := x.data.modifyHead (· ^^^ 0xff) } :: rest).map ExpectedInstruction.toJs :=
      (Option.some.inj h).symm
    obtain rfl := List.map_injective_iff.mpr ExpectedInstruction.toJs_injective htyped
    refine ⟨x, _, rest, rfl, rfl, rfl, rfl, List.length_modifyHead, ?_⟩
    cases x.data with
    | nil => simp
    | cons b d => simp [hflip b]

theorem exists_tampered (h : env.tamper = "data" → expected ≠ []) : ∃ shown : List ExpectedInstruction,
    tampered env (expected.map ExpectedInstruction.toJs) = some (shown.map ExpectedInstruction.toJs) := by
  unfold tampered
  split
  · cases expected with
    | nil => exact absurd rfl (h ‹_›)
    | cons x rest => exact ⟨{ x with data := x.data.modifyHead (· ^^^ 0xff) } :: rest, rfl⟩
  · exact ⟨expected, rfl⟩

theorem tampered_shape
    (h : tampered env (expected.map ExpectedInstruction.toJs) = some (shown.map ExpectedInstruction.toJs)) :
    List.Forall₂ (fun x y => y.accounts = x.accounts ∧ y.data.length = x.data.length) expected shown := by
  unfold tampered at h
  split at h
  · obtain ⟨x, y, rest, rfl, rfl, -, ha, hd, -⟩ := flipByte_eq_some h
    exact .cons ⟨ha, hd⟩ (List.forall₂_same.mpr fun _ _ => ⟨rfl, rfl⟩)
  · obtain rfl := List.map_injective_iff.mpr ExpectedInstruction.toJs_injective (Option.some.inj h)
    exact List.forall₂_same.mpr fun _ _ => ⟨rfl, rfl⟩

theorem tampered_sized
    (h : tampered env (expected.map ExpectedInstruction.toJs) = some (shown.map ExpectedInstruction.toJs))
    (hx : expected.length < 2 ^ 32 ∧ ∀ x ∈ expected, x.Sized) : shown.length < 2 ^ 32 ∧ ∀ x ∈ shown, x.Sized := by
  have hshape := tampered_shape h
  refine ⟨hshape.length_eq ▸ hx.1, fun y hy => ?_⟩
  obtain ⟨x, hmem, ha, hd⟩ := exists_left_of_mem hshape hy
  obtain ⟨hacc, hdata⟩ := hx.2 x hmem
  exact ⟨ha ▸ hacc, hd ▸ hdata⟩

end

/-! ### The calls -/

/-- The arguments that reach the program, with the count of signers modulo 256. -/
def announced (env : Environment) (tx : VaultTransaction) (shown : List ExpectedInstruction) : VerifyProposalArgs where
  multisig := env.multisig
  transactionIndex := env.txIndex
  vaultIndex := tx.vaultIndex
  numEphemeralSigners := UInt8.ofNat tx.ephemeralSignerBumps.length
  member := env.wallet
  action := .approve
  instructions := shown

theorem count_fits {n : Nat} : n = (UInt8.ofNat n).toNat ↔ n < 256 := by
  rw [UInt8.toNat_ofNat']
  omega

section
variable {rt : Runtime} {sdk : Sdk} {coder : Coder} {env : Environment} {tx : VaultTransaction}
  {shown : List ExpectedInstruction} {l : List Js.ExpectedInstruction}

theorem ApproveClearsign.args_eq_toJs {args : VerifyProposalArgs} : ApproveClearsign.args env tx l = args.toJs ↔
    ∃ shown : List ExpectedInstruction, l = shown.map ExpectedInstruction.toJs ∧ tx.ephemeralSignerBumps.length < 256 ∧
      args = announced env tx shown := by
  refine ⟨fun h => ?_, fun ⟨shown, hl, hlt, hargs⟩ => ?_⟩
  · obtain ⟨m, i, v, n, k, a, shown⟩ := args
    obtain ⟨rfl, hi, hv, hn, rfl, rfl, rfl⟩ := Js.VerifyProposalArgs.mk.inj h
    obtain rfl := UInt64.toNat_inj.mp hi
    obtain rfl := UInt8.toNat_inj.mp hv
    refine ⟨shown, rfl, hn ▸ n.toNat_lt, ?_⟩
    unfold announced
    rw [hn, UInt8.ofNat_toNat]
  · unfold ApproveClearsign.args VerifyProposalArgs.toJs
    rw [hl, hargs, count_fits.mpr hlt]
    rfl

theorem ApproveClearsignV1.encode_eq_some {keys : List AccountMeta} {ix : Instruction} :
    encodeVerifyProposalIx programId (ApproveClearsignV1.args env tx l) keys = some ix ↔
      ∃ shown : List ExpectedInstruction, l = shown.map ExpectedInstruction.toJs ∧ ix = {
        programId
        accounts := keys
        data := verifyProposalDiscriminator ++ (announced env tx shown).layout } := by
  have hwritten : ∀ shown : List ExpectedInstruction,
      encodeVerifyProposalIx programId (ApproveClearsignV1.args env tx (shown.map ExpectedInstruction.toJs)) keys =
        some {
          programId
          accounts := keys
          data := verifyProposalDiscriminator ++ (announced env tx shown).layout } := by
    intro shown
    have hwraps := @encodeVerifyProposalIx_wraps programId (announced env tx shown).toEncoder keys
      tx.ephemeralSignerBumps.length
    exact hwraps.symm.trans (encodeVerifyProposalIx_eq programId (announced env tx shown) keys)
  refine ⟨fun h => ?_, fun ⟨shown, hl, hix⟩ => by rw [hl, hix, hwritten]⟩
  obtain ⟨shown, hl⟩ := encodeVerifyProposalIx_defined h
  have hl : l = shown.map ExpectedInstruction.toJs := hl
  rw [hl, hwritten, Option.some.injEq] at h
  exact ⟨shown, hl, h.symm⟩

theorem laid_proposalCall {args : VerifyProposalArgs} (hsized : args.Sized) {transaction : Pubkey}
    (ht : transaction = deriveTransactionPda rt args.multisig args.transactionIndex) (metas : List AccountMeta) :
    ProposalCall rt args (metas.map (·.pubkey)) {
      programId
      accounts := { pubkey := transaction, isSigner := false, isWritable := false } ::
        { pubkey := instructionsSysvarId, isSigner := false, isWritable := false } :: metas
      data := verifyProposalDiscriminator ++ args.layout } where
  programId := rfl
  accounts := by rw [← ht]; rfl
  shows := ⟨args.layout, [], VerifyProposalArgs.writes.enc hsized, (List.append_nil _).symm⟩

def Environment.hashes (env : Environment) (expectedHash : Bytes → String) : List VerifyBufferHashArgs :=
  env.buffer.toList.map fun (buffer, so) => { buffer, expectedHash := expectedHash so }

theorem bufferCheck_eq_some (hcoder : coder.Follows idl) {f : Bytes → String} {checks : List Instruction}
    (h : bufferCheck coder env f = some checks) : List.Forall₂ BufferCall (env.hashes f) checks := by
  unfold bufferCheck at h
  unfold Environment.hashes
  cases hb : env.buffer with
  | none =>
    rw [hb] at h
    cases h
    exact .nil
  | some p =>
    obtain ⟨buffer, so⟩ := p
    rw [hb] at h
    simp only [Option.bind_eq_bind, Option.bind_eq_some_iff, Option.pure_def, Option.some.injEq] at h
    obtain ⟨ix, hix, rfl⟩ := h
    obtain ⟨hp, ha, hs⟩ := @Coder.Follows.buffer coder hcoder ⟨buffer, f so⟩ ix hix
    exact .cons ⟨hp, ha, hs⟩ .nil

theorem Sdk.Lawful.vote (hsdk : sdk.Lawful rt) {args : VerifyProposalArgs} (ha : args.action = .approve) :
    MatchingVote (args.expectation rt) (sdk.proposalApprove args.multisig args.transactionIndex args.member) := by
  obtain ⟨data, hvote⟩ := hsdk.proposalApprove args.multisig args.transactionIndex args.member
  have hdisc : (args.expectation rt).action.discriminator = ixProposalApprove := by
    unfold VerifyProposalArgs.expectation
    rw [ha]
    rfl
  rw [hvote]
  refine ⟨rfl, ?_, ?_, _, _, _, [], rfl, rfl, rfl, rfl, rfl⟩
  · rw [List.length_append]
    exact Nat.le_add_right 8 _
  · rw [hdisc]
    exact List.take_left' rfl

end

/-! ### The transaction -/

def scriptHash (rt : Runtime) (tamper : String) (so : Bytes) : String :=
  expectedHashScript (fun b => (rt.sha256 b).toList) tamper so trimScript

/-- What both scripts send: their checks, of a list that may have been tampered with, and the vote. -/
def Sends (rt : Runtime) (env : Environment) (tx : VaultTransaction) (ixs : List Instruction) : Prop :=
  ∃ (expected shown : List ExpectedInstruction) (budget checks : List Instruction) (verify vote : Instruction),
    ApproveClearsign.buildExpected tx.message = some (expected.map ExpectedInstruction.toJs) ∧
    tampered env (expected.map ExpectedInstruction.toJs) = some (shown.map ExpectedInstruction.toJs) ∧
    ixs = budget ++ checks ++ [verify] ++ [vote] ∧
    Bundle rt (env.hashes (scriptHash rt env.tamper)) (announced env tx shown) budget checks verify vote

theorem accountRole_flags (k : AccountMeta) :
    (accountRole k).isSigner = k.isSigner ∧ (accountRole k).isWritable = k.isWritable := by
  unfold accountRole
  cases k.isSigner <;> cases k.isWritable <;> exact ⟨rfl, rfl⟩

theorem toKitIx_plain (ix : Instruction) : (toKitIx ix).plain = ix := by
  unfold toKitIx KitInstruction.plain
  simp only [List.map_map, Function.comp_def, accountRole_flags]
  rw [List.map_id']

section
variable {rt : Runtime} {sdk : Sdk} {coder : Coder} {env : Environment} {tx : VaultTransaction}
  (hsdk : sdk.Lawful rt) (hcoder : coder.Follows idl)
include hsdk hcoder

theorem ApproveClearsign.sends {ixs : List Instruction}
    (h : ApproveClearsign.instructions (fun b => (rt.sha256 b).toList) sdk coder env tx = some ixs) :
    Sends rt env tx ixs ∧ tx.ephemeralSignerBumps.length < 256 := by
  unfold ApproveClearsign.instructions at h
  simp only [Option.bind_eq_bind, Option.bind_eq_some_iff, Option.pure_def, Option.some.injEq, printed_eq_some] at h
  obtain ⟨l, hexp, _, ⟨rfl, -⟩, checks, hchecks, l', hshown, verify, hverify, rfl⟩ := h
  obtain ⟨args, hargs, hsize, rfl⟩ := hcoder.proposal.mp hverify
  obtain ⟨shown, rfl, hlt, rfl⟩ := ApproveClearsign.args_eq_toJs.mp hargs
  obtain ⟨expected, rfl⟩ := tampered_defined hshown
  have hsized := VerifyProposalArgs.sized_of_size (Nat.lt_of_le_of_lt hsize hcoder.capacity)
  have hbudget : ∀ ix ∈ ApproveClearsign.budget sdk env, ix.programId = computeBudgetProgramId := by
    unfold ApproveClearsign.budget
    split
    · rw [List.forall_mem_singleton]
      exact hsdk.setComputeUnitLimit _
    · exact List.forall_mem_nil _
  refine ⟨⟨expected, shown, _, checks, _, _, hexp, hshown, ?_, hbudget, bufferCheck_eq_some hcoder hchecks,
    laid_proposalCall hsized (hsdk.getTransactionPda ..) [], hsdk.vote rfl⟩, hlt⟩
  simp only [List.append_assoc]
  rfl

theorem ApproveClearsignV1.sends {L : Ledger} (htx : L.vaultTransaction rt env.multisig env.txIndex = some tx)
    {kit : List KitInstruction}
    (h : ApproveClearsignV1.instructions (fun b => (rt.sha256 b).toList) sdk coder env tx = some kit) :
    Sends rt env tx (kit.map KitInstruction.plain) := by
  unfold ApproveClearsignV1.instructions at h
  simp only [Option.bind_eq_bind, Option.bind_eq_some_iff, Option.pure_def, Option.some.injEq, printed_eq_some] at h
  obtain ⟨l, hexp, _, ⟨rfl, -⟩, checks, hchecks, l', hshown, verify, hverify, rfl⟩ := h
  rw [idl_address] at hverify
  obtain ⟨shown, rfl, rfl⟩ := ApproveClearsignV1.encode_eq_some.mp hverify
  obtain ⟨expected, rfl⟩ := tampered_defined hshown
  have hsized : (announced env tx shown).Sized :=
    tampered_sized hshown (expansion_sized htx (buildExpected_eq_some.mp hexp).2)
  have hplain : KitInstruction.plain ∘ toKitIx = id := funext toKitIx_plain
  refine ⟨expected, shown, [], checks, _, _, hexp, hshown, ?_, List.forall_mem_nil _,
    bufferCheck_eq_some hcoder hchecks, laid_proposalCall hsized (hsdk.getTransactionPda ..) [], hsdk.vote rfl⟩
  simp only [List.map_map, hplain, List.map_id, List.nil_append, List.append_assoc]
  rfl

def Scripted (rt : Runtime) (sdk : Sdk) (coder : Coder) (env : Environment) (tx : VaultTransaction)
    (ixs : List Instruction) : Prop :=
  ApproveClearsign.instructions (fun b => (rt.sha256 b).toList) sdk coder env tx = some ixs ∨
    ∃ kit, ApproveClearsignV1.instructions (fun b => (rt.sha256 b).toList) sdk coder env tx = some kit ∧
      ixs = kit.map KitInstruction.plain

theorem Scripted.sends {L : Ledger} (htx : L.vaultTransaction rt env.multisig env.txIndex = some tx)
    {ixs : List Instruction} (h : Scripted rt sdk coder env tx ixs) : Sends rt env tx ixs := by
  rcases h with h | ⟨kit, h, rfl⟩
  · exact (ApproveClearsign.sends hsdk hcoder h).1
  · exact ApproveClearsignV1.sends hsdk hcoder htx h

end

/-! ### The two scripts agree -/

/-- Bytes of the encoded arguments, off the stored message. -/
def VaultTransactionMessage.argsSize (message : VaultTransactionMessage) : Nat :=
  79 + (message.instructions.map fun ix => 40 + 34 * ix.accountIndexes.length + ix.data.length).sum

theorem expanded_size {message : VaultTransactionMessage} {expected : List ExpectedInstruction}
    (h : List.Forall₂ (fun ix x => x.accounts.length = ix.accountIndexes.length ∧ x.data = ix.data)
      message.instructions expected) :
    79 + (expected.map fun x => 40 + 34 * x.accounts.length + x.data.length).sum = message.argsSize := by
  have hstored : (expected.map fun x => 40 + 34 * x.accounts.length + x.data.length) =
      message.instructions.map fun ix => 40 + 34 * ix.accountIndexes.length + ix.data.length := by
    symm
    apply map_eq_map_forall₂.mpr
    exact h.imp fun ix x h => by rw [h.1, h.2]
  unfold VaultTransactionMessage.argsSize
  rw [hstored]

section
variable {coder : Coder} {env : Environment} {tx : VaultTransaction}

end

theorem exists_buildExpected {message : VaultTransactionMessage} :
    (∃ expected : List ExpectedInstruction,
      ApproveClearsign.buildExpected message = some (expected.map ExpectedInstruction.toJs)) ↔
        Wallet.InRange message [] := by
  simp only [buildExpected_eq_some]
  refine ⟨fun ⟨expected, _, hx⟩ => Wallet.inRange_of_expansion hx, fun h => ?_⟩
  obtain ⟨expected, -, hx⟩ := h.expectedInstructions
  exact ⟨expected, List.length_eq_zero_iff.mp h.count.symm, hx⟩

theorem ApproveClearsignV1.instructions_isSome {sha256 : Bytes → Bytes} {sdk : Sdk} {coder : Coder} {env : Environment}
    {tx : VaultTransaction} : (ApproveClearsignV1.instructions sha256 sdk coder env tx).isSome ↔
      Wallet.InRange tx.message [] ∧ (env.tamper = "data" → tx.message.instructions ≠ []) ∧
        (bufferCheck coder env (ApproveClearsignV1.expectedHash sha256 env.tamper)).isSome := by
  have hexpected : ApproveClearsignV1.buildExpected tx.message = ApproveClearsign.buildExpected tx.message := rfl
  unfold ApproveClearsignV1.instructions
  simp only [hexpected, idl_address, Option.bind_eq_bind, Option.isSome_iff_exists, Option.bind_eq_some_iff,
    Option.pure_def, Option.some.injEq, printed_eq_some]
  constructor
  · intro h
    obtain ⟨_, l, hexp, _, ⟨rfl, -⟩, checks, hchecks, l', hshown, verify, hverify, -⟩ := h
    obtain ⟨shown, rfl, -⟩ := ApproveClearsignV1.encode_eq_some.mp hverify
    obtain ⟨expected, rfl⟩ := tampered_defined hshown
    refine ⟨exists_buildExpected.mp ⟨expected, hexp⟩, ?_, checks, hchecks⟩
    intro ht hnil
    have hshape := expansion_shape (buildExpected_eq_some.mp hexp).2
    unfold tampered at hshown
    rw [if_pos ht] at hshown
    obtain ⟨x, y, rest, rfl, -⟩ := flipByte_eq_some hshown
    rw [hnil] at hshape
    cases hshape
  · intro h
    obtain ⟨hrange, hsome, checks, hchecks⟩ := h
    obtain ⟨expected, hexp⟩ := exists_buildExpected.mpr hrange
    have hshape := expansion_shape (buildExpected_eq_some.mp hexp).2
    have hne : env.tamper = "data" → expected ≠ [] := by
      intro ht hnil
      rw [hnil] at hshape
      exact hsome ht (List.forall₂_nil_right_iff.mp hshape)
    obtain ⟨shown, hshown⟩ := exists_tampered hne
    exact ⟨_, _, hexp, _, printed_eq_some.mp printed_map, checks, hchecks, _, hshown, _,
      ApproveClearsignV1.encode_eq_some.mpr ⟨shown, rfl, rfl⟩, rfl⟩

namespace Approve

def sdk : Sdk where
  getTransactionPda := deriveTransactionPda (Transfer.runtime [])
  proposalApprove multisig index member := {
    programId := squadsProgramId
    accounts := [
      { pubkey := multisig, isSigner := false, isWritable := false },
      { pubkey := member, isSigner := true, isWritable := true },
      { pubkey := deriveProposalPda (Transfer.runtime []) multisig index, isSigner := false, isWritable := true }]
    data := ixProposalApprove ++ [0] }
  setComputeUnitLimit units := { programId := computeBudgetProgramId, accounts := [], data := 2 :: leBytes 4 units }

theorem sdk_lawful (top : List Instruction) : sdk.Lawful (Transfer.runtime top) where
  getTransactionPda _ _ := rfl
  proposalApprove _ _ _ := ⟨[0], rfl⟩
  setComputeUnitLimit _ := rfl

def coder : Coder := idl.writer 1000

theorem coder_follows : coder.Follows idl := idl_writer_follows

/-- One lamport from the vault, without a lookup. -/
def message : VaultTransactionMessage where
  numSigners := 1
  numWritableSigners := 1
  numWritableNonSigners := 1
  accountKeys := [Transfer.vault, Transfer.recipient, Transfer.systemProgram]
  instructions := [{ programIdIndex := 2, accountIndexes := [0, 1], data := leBytes 4 2 ++ leBytes 8 1 }]
  addressTableLookups := []

def tx : VaultTransaction := { Transfer.tx with message }

def sha256 (_ : Bytes) : Bytes := List.replicate 32 0

section
variable (tamper : String)

def env : Environment where
  wallet := Transfer.member
  multisig := Transfer.multisig
  txIndex := 1
  buffer := some (bufferKey, [1])
  tamper

def sent : List Instruction := (ApproveClearsign.instructions sha256 sdk coder (env tamper) tx).getD []

end

end Approve

end ClearSigning
