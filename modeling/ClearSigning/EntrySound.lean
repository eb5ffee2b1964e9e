import ClearSigning.AgreementSound
import ClearSigning.RefusalSound

/-!
# What an instruction's bytes decide

An instruction of the program succeeds exactly where its data are a handler's
discriminator and encoded arguments, with anything after them, its accounts are
the handler's, and the handler accepts. The arguments a run acts on are
therefore the ones its bytes show, and bytes never show two.
-/

namespace ClearSigning

open Exec

/-! ## Arguments behind a discriminator -/

theorem discriminators_length : verifyProposalDiscriminator.length = 8 ∧ verifyBufferHashDiscriminator.length = 8 :=
  ⟨rfl, rfl⟩

section
variable {α : Type} {c : Codec α} {d data : Bytes} {a : α}

theorem decodeArgs_eq_ok (hd : d.length = 8) :
    d <+: data ∧ decodeArgs c data = .ok a ↔ ∃ e tail, c.enc a = some e ∧ data = d ++ e ++ tail := by
  unfold decodeArgs
  simp only [okOr_eq_ok, Option.map_eq_some_iff, Prod.exists, exists_and_right, exists_eq_right]
  refine ⟨fun ⟨⟨rest, hr⟩, s, hs⟩ => ?_, fun ⟨e, tail, he, hdata⟩ => ?_⟩
  · subst hr
    rw [List.drop_left' hd] at hs
    obtain ⟨e, he, rfl⟩ := c.enc_dec hs
    exact ⟨e, s, he, (List.append_assoc d e s).symm⟩
  · subst hdata
    rw [List.append_assoc, List.drop_left' hd]
    exact ⟨List.prefix_append d _, tail, c.dec_enc he tail⟩

theorem decodeArgs_cases :
    (∃ a, decodeArgs c data = .ok a) ∨ decodeArgs c data = fail .instructionDidNotDeserialize := by
  unfold decodeArgs
  cases c.dec (data.drop 8) with
  | none => exact .inr rfl
  | some p => exact .inl ⟨p.1, rfl⟩

theorem decodeArgs_eq_fail {e : Error} : decodeArgs c data = fail e ↔
    e = .instructionDidNotDeserialize ∧ c.dec (data.drop 8) = none := by
  unfold decodeArgs
  rw [okOr_eq_fail, Option.map_eq_none_iff]
  exact ⟨fun ⟨h, he⟩ => ⟨he.symm, h⟩, fun ⟨he, h⟩ => ⟨h, he.symm⟩⟩

end

theorem not_verifyProposal_of_verifyBufferHash {data : Bytes} (h : verifyBufferHashDiscriminator <+: data) :
    ¬verifyProposalDiscriminator <+: data := by
  intro h'
  have hle := List.prefix_of_prefix_length_le h h' (Nat.le_refl 8)
  revert hle
  decide

/-! ## Dispatch -/

theorem VerifyBufferHash.tryAccounts_eq_ok {accounts : List AccountInfo} {ctx : Context VerifyBufferHash} :
    VerifyBufferHash.tryAccounts accounts = .ok ctx ↔
      accounts = ctx.accounts.buffer :: ctx.remainingAccounts := by
  obtain ⟨⟨b⟩, rest⟩ := ctx
  cases accounts with
  | nil => simp [VerifyBufferHash.tryAccounts]
  | cons b' rest' => simp [VerifyBufferHash.tryAccounts]

section
variable {rt : Runtime} {accounts : List AccountInfo} {data : Bytes}

def ShowsProposal (data : Bytes) (args : VerifyProposalArgs) : Prop :=
  ∃ e tail, VerifyProposalArgs.borsh.enc args = some e ∧ data = verifyProposalDiscriminator ++ e ++ tail

def ShowsBuffer (data : Bytes) (args : VerifyBufferHashArgs) : Prop :=
  ∃ e tail, VerifyBufferHashArgs.borsh.enc args = some e ∧ data = verifyBufferHashDiscriminator ++ e ++ tail

theorem ShowsProposal.unique {args args' : VerifyProposalArgs} (h : ShowsProposal data args)
    (h' : ShowsProposal data args') : args = args' := by
  have hd := ((decodeArgs_eq_ok discriminators_length.1).mpr h).2
  rw [((decodeArgs_eq_ok discriminators_length.1).mpr h').2] at hd
  cases hd
  rfl

theorem ShowsBuffer.unique {args args' : VerifyBufferHashArgs} (h : ShowsBuffer data args)
    (h' : ShowsBuffer data args') : args = args' := by
  have hd := ((decodeArgs_eq_ok discriminators_length.2).mpr h).2
  rw [((decodeArgs_eq_ok discriminators_length.2).mpr h').2] at hd
  cases hd
  rfl

theorem ShowsProposal.isPrefix {args : VerifyProposalArgs} (h : ShowsProposal data args) :
    verifyProposalDiscriminator <+: data := ((decodeArgs_eq_ok discriminators_length.1).mpr h).1

theorem decodeArgs_eq_ok_proposal {args : VerifyProposalArgs} (h : verifyProposalDiscriminator <+: data) :
    decodeArgs VerifyProposalArgs.borsh data = .ok args ↔ ShowsProposal data args :=
  ⟨fun ha => (decodeArgs_eq_ok discriminators_length.1).mp ⟨h, ha⟩,
    fun ha => ((decodeArgs_eq_ok discriminators_length.1).mpr ha).2⟩

theorem decodeArgs_eq_ok_buffer {args : VerifyBufferHashArgs} (h : verifyBufferHashDiscriminator <+: data) :
    decodeArgs VerifyBufferHashArgs.borsh data = .ok args ↔ ShowsBuffer data args :=
  ⟨fun ha => (decodeArgs_eq_ok discriminators_length.2).mp ⟨h, ha⟩,
    fun ha => ((decodeArgs_eq_ok discriminators_length.2).mpr ha).2⟩

theorem entry_of_proposal (h : verifyProposalDiscriminator <+: data) : entry rt accounts data =
    (decodeArgs VerifyProposalArgs.borsh data >>= fun args => VerifyProposal.tryAccounts accounts >>= fun ctx =>
      report (verifyProposal rt ctx args)) := by
  unfold entry
  rw [if_pos (List.isPrefixOf_iff_prefix.mpr h)]

theorem entry_of_buffer (h : verifyBufferHashDiscriminator <+: data) : entry rt accounts data =
    (decodeArgs VerifyBufferHashArgs.borsh data >>= fun args => VerifyBufferHash.tryAccounts accounts >>= fun ctx =>
      report (verifyBufferHash rt ctx args)) := by
  have hn := not_verifyProposal_of_verifyBufferHash h
  rw [← List.isPrefixOf_iff_prefix] at hn
  unfold entry
  rw [if_neg hn, if_pos (List.isPrefixOf_iff_prefix.mpr h)]

def VerifyProposal.Takes (accounts : List AccountInfo) (ctx : Context VerifyProposal) : Prop :=
  accounts = ctx.accounts.transaction :: ctx.accounts.instructionsSysvar :: ctx.remainingAccounts

def VerifyBufferHash.Takes (accounts : List AccountInfo) (ctx : Context VerifyBufferHash) : Prop :=
  accounts = ctx.accounts.buffer :: ctx.remainingAccounts

theorem report_eq_fail {α : Type} {x : Result α} {e : ClearSigningError} :
    report x = fail (.clearSigning e) ↔ x = fail e := by
  unfold report
  split <;> simp [fail, Exec.panic]

theorem VerifyProposal.tryAccounts_eq_fail {e : ClearSigningError} :
    VerifyProposal.tryAccounts accounts = fail (.clearSigning e) ↔ e = .instructionsSysvarError ∧
      ∃ transaction sysvar rest, accounts = transaction :: sysvar :: rest ∧ sysvar.key ≠ instructionsSysvarId := by
  match accounts with
  | [] => simp [VerifyProposal.tryAccounts, fail]
  | [_] => simp [VerifyProposal.tryAccounts, fail]
  | t :: s :: rest =>
    by_cases h : s.key = instructionsSysvarId
    · simp [VerifyProposal.tryAccounts, h, fail]
    · simp only [VerifyProposal.tryAccounts, h, dite_false, fail_inj, Error.clearSigning.injEq, List.cons.injEq]
      exact ⟨fun he => ⟨he.symm, t, s, rest, ⟨rfl, rfl, rfl⟩, h⟩, fun hx => hx.1.symm⟩

theorem VerifyBufferHash.tryAccounts_ne_fail {e : ClearSigningError} :
    VerifyBufferHash.tryAccounts accounts ≠ fail (.clearSigning e) := by
  cases accounts <;> simp [VerifyBufferHash.tryAccounts, fail]

theorem entry_proposal_eq_ok (h : verifyProposalDiscriminator <+: data) : entry rt accounts data = .ok () ↔
    ∃ args ctx, ShowsProposal data args ∧ VerifyProposal.Takes accounts ctx ∧ verifyProposal rt ctx args = .ok () := by
  rw [entry_of_proposal h]
  simp only [bind_eq_ok, VerifyProposal.tryAccounts_eq_ok, report_eq_ok, decodeArgs_eq_ok_proposal h]
  exact ⟨fun ⟨args, ha, ctx, hc, hok⟩ => ⟨args, ctx, ha, hc, hok⟩,
    fun ⟨args, ctx, ha, hc, hok⟩ => ⟨args, ha, ctx, hc, hok⟩⟩

theorem entry_buffer_eq_ok (h : verifyBufferHashDiscriminator <+: data) : entry rt accounts data = .ok () ↔
    ∃ args ctx, ShowsBuffer data args ∧ VerifyBufferHash.Takes accounts ctx ∧
      verifyBufferHash rt ctx args = .ok () := by
  rw [entry_of_buffer h]
  simp only [bind_eq_ok, VerifyBufferHash.tryAccounts_eq_ok, report_eq_ok, decodeArgs_eq_ok_buffer h]
  exact ⟨fun ⟨args, ha, ctx, hc, hok⟩ => ⟨args, ctx, ha, hc, hok⟩,
    fun ⟨args, ctx, ha, hc, hok⟩ => ⟨args, ha, ctx, hc, hok⟩⟩

theorem entry_proposal_eq_fail {e : ClearSigningError} (h : verifyProposalDiscriminator <+: data) :
    entry rt accounts data = fail (.clearSigning e) ↔ ∃ args, ShowsProposal data args ∧
      ((e = .instructionsSysvarError ∧ ∃ transaction sysvar rest, accounts = transaction :: sysvar :: rest ∧
          sysvar.key ≠ instructionsSysvarId) ∨
        ∃ ctx, VerifyProposal.Takes accounts ctx ∧ ProposalRefused rt ctx args e) := by
  rw [entry_of_proposal h, bind_eq_fail, decodeArgs_eq_fail]
  simp only [reduceCtorEq, false_and, false_or, decodeArgs_eq_ok_proposal h]
  refine exists_congr fun args => and_congr_right fun _ => ?_
  rw [bind_eq_fail, VerifyProposal.tryAccounts_eq_fail]
  simp only [VerifyProposal.tryAccounts_eq_ok, report_eq_fail, verifyProposal_eq_fail]
  rfl

theorem entry_buffer_eq_fail {e : ClearSigningError} (h : verifyBufferHashDiscriminator <+: data) :
    entry rt accounts data = fail (.clearSigning e) ↔ ∃ args ctx, ShowsBuffer data args ∧
      VerifyBufferHash.Takes accounts ctx ∧ BufferRefused rt ctx.accounts.buffer args e := by
  rw [entry_of_buffer h, bind_eq_fail, decodeArgs_eq_fail]
  simp only [reduceCtorEq, false_and, false_or, decodeArgs_eq_ok_buffer h]
  refine exists_congr fun args => ?_
  rw [exists_and_left]
  refine and_congr_right fun _ => ?_
  rw [bind_eq_fail]
  simp only [VerifyBufferHash.tryAccounts_ne_fail, false_or, VerifyBufferHash.tryAccounts_eq_ok, report_eq_fail,
    verifyBufferHash_eq_fail]
  rfl

/-- The framework's errors before any argument is read. -/
def Unread (e : Error) : Prop :=
  e = .instructionFallbackNotFound ∨ e = .eventInstructionStub ∨ e = .instructionDidNotDeserialize

theorem Unread.ne_clearSigning {e : Error} (h : Unread e) (e' : ClearSigningError) : e ≠ .clearSigning e' := by
  rcases h with rfl | rfl | rfl <;> simp

theorem entry_fallback (hp : ¬verifyProposalDiscriminator <+: data) (hb : ¬verifyBufferHashDiscriminator <+: data) :
    ∃ e, Unread e ∧ entry rt accounts data = fail e := by
  rw [← List.isPrefixOf_iff_prefix] at hp hb
  unfold entry
  rw [if_neg hp, if_neg hb]
  by_cases hevent : eventIxTag.isPrefixOf data
  · rw [if_pos hevent]
    exact ⟨_, .inr (.inl rfl), rfl⟩
  · rw [if_neg hevent]
    exact ⟨_, .inl rfl, rfl⟩

theorem ShowsBuffer.isPrefix {args : VerifyBufferHashArgs} (h : ShowsBuffer data args) :
    verifyBufferHashDiscriminator <+: data := ((decodeArgs_eq_ok discriminators_length.2).mpr h).1

end

/-- An instruction of the program succeeds exactly where its bytes show arguments that the handler accepts over its
accounts, and reports a code of the program exactly where they show arguments refused with it. -/
theorem entry_decides (rt : Runtime) (accounts : List AccountInfo) (data : Bytes) :
    (entry rt accounts data = .ok () ↔
      (∃ args ctx top tx tables, ShowsProposal data args ∧ VerifyProposal.Takes accounts ctx ∧
        Describes rt ctx.accounts.instructionsSysvar top ∧ Accepted rt ctx args top tx tables) ∨
      ∃ args ctx, ShowsBuffer data args ∧ VerifyBufferHash.Takes accounts ctx ∧
        ctx.accounts.buffer.key = args.buffer ∧ Holds rt ctx.accounts.buffer args.expectedHash) ∧
    ∀ e : ClearSigningError, entry rt accounts data = fail (.clearSigning e) ↔
      (∃ args, ShowsProposal data args ∧
        ((e = .instructionsSysvarError ∧ ∃ transaction sysvar rest, accounts = transaction :: sysvar :: rest ∧
            sysvar.key ≠ instructionsSysvarId) ∨
          ∃ ctx, VerifyProposal.Takes accounts ctx ∧ ProposalRefused rt ctx args e)) ∨
      ∃ args ctx, ShowsBuffer data args ∧ VerifyBufferHash.Takes accounts ctx ∧
        BufferRefused rt ctx.accounts.buffer args e := by
  by_cases hp : verifyProposalDiscriminator <+: data
  · have hnb : ∀ {args}, ¬ShowsBuffer data args := fun h => not_verifyProposal_of_verifyBufferHash h.isPrefix hp
    refine ⟨?_, fun e => ?_⟩
    · rw [entry_proposal_eq_ok hp]
      simp only [verifyProposal_eq_ok_iff, hnb, false_and, exists_false, or_false, exists_and_left]
    · rw [entry_proposal_eq_fail hp]
      simp only [hnb, false_and, exists_false, or_false]
  · have hnp : ∀ {args}, ¬ShowsProposal data args := fun h => hp h.isPrefix
    by_cases hb : verifyBufferHashDiscriminator <+: data
    · refine ⟨?_, fun e => ?_⟩
      · rw [entry_buffer_eq_ok hb]
        simp only [verifyBufferHash_holds, hnp, false_and, exists_false, false_or]
      · rw [entry_buffer_eq_fail hb]
        simp only [hnp, false_and, exists_false, false_or]
    · have hnb : ∀ {args}, ¬ShowsBuffer data args := fun h => hb h.isPrefix
      obtain ⟨e', he', hentry⟩ := @entry_fallback rt accounts data hp hb
      rw [hentry]
      simp [hnp, hnb, fail, he'.ne_clearSigning]

end ClearSigning
