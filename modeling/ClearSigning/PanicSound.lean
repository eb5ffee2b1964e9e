import ClearSigning.BufferSound
import ClearSigning.KeysSound
import ClearSigning.ShapeSound

/-!
# The handlers do not panic

Each slice, index, array conversion and checked operation stands behind a guard,
often in another function. For any account data, arguments and top-level
instructions both handlers return or report an error.
-/

namespace ClearSigning

open Exec

/-! ## Account data -/

theorem deserializeChecked_noPanic (d : Bytes) : NoPanic (VaultTransaction.deserializeChecked d) := by
  unfold VaultTransaction.deserializeChecked
  refine NoPanic.require_bind fun hl => ?_
  rw [sliceTo_of_le (by omega), ok_bind]
  refine NoPanic.require_bind fun _ => ?_
  rw [sliceFrom_of_le (by omega), ok_bind]
  exact NoPanic.okOr _ _

theorem length_of_mem_chunksExact {n : Nat} {l c : Bytes} (h : c ∈ chunksExact n l) : c.length = n := by
  obtain ⟨i, hi, rfl⟩ := List.mem_map.mp h
  have hlt : i < l.length / n := List.mem_range.mp hi
  have hmul : (i + 1) * n ≤ l.length := (Nat.mul_le_mul_right n hlt).trans (Nat.div_mul_le_self _ _)
  rw [Nat.succ_mul] at hmul
  rw [List.length_take, List.length_drop]
  omega

theorem parseLookupTableAddresses_noPanic (d : Bytes) : NoPanic (parseLookupTableAddresses d) := by
  unfold parseLookupTableAddresses
  refine NoPanic.require_bind fun hd => ?_
  have h56 : lookupTableMetaSize = 56 := rfl
  rw [u32FromLeBytes_slice_bind (by omega)]
  refine NoPanic.require_bind fun _ => ?_
  rw [sliceFrom_of_le hd, ok_bind]
  refine NoPanic.require_bind fun _ => ?_
  refine (Ensures.mapM (P := fun _ _ => True) (E := fun _ => True) fun c hc => ?_).noPanic
  rw [toArray_of_length (length_of_mem_chunksExact hc)]
  exact .ok trivial

theorem extractBufferProgramBytes_ensures (d : Bytes) :
    Ensures (extractBufferProgramBytes d) (· = d.drop bufferMetadataSize) fun _ => True := by
  unfold extractBufferProgramBytes
  refine .require_bind (fun _ => trivial) fun hd => ?_
  have h37 : bufferMetadataSize = 37 := rfl
  rw [u32FromLeBytes_slice_bind (by omega)]
  refine .require_bind (fun _ => trivial) fun _ => ?_
  rw [sliceFrom_of_le hd]
  exact .ok rfl

/-! ## The key table and the diff -/

theorem resolve_noPanic (message : VaultTransactionMessage) (tables : List (List Pubkey)) :
    NoPanic (AccountKeys.resolve message tables) := by
  rw [AccountKeys.resolve_eq]
  split
  · split
    · exact .ok trivial
    · exact .fail trivial
  · exact .fail trivial

section
variable (k : AccountKeys)

theorem validateAccount_noPanic (i : UInt8) (x : ExpectedAccountMeta) : NoPanic (validateAccount k i x) := by
  unfold validateAccount AccountKeys.get
  refine NoPanic.okOr_bind fun key _ => ?_
  refine NoPanic.require_bind fun _ => ?_
  rw [AccountKeys.isWritable_eq, ok_bind]
  refine NoPanic.require_bind fun _ => ?_
  exact NoPanic.require _ _

theorem validateInstruction_noPanic (ix : MultisigCompiledInstruction) (x : ExpectedInstruction) :
    NoPanic (validateInstruction k ix x) := by
  unfold validateInstruction AccountKeys.get
  refine NoPanic.okOr_bind fun programId _ => ?_
  refine NoPanic.require_bind fun _ => ?_
  refine NoPanic.require_bind fun _ => ?_
  refine (Ensures.forM fun p _ => validateAccount_noPanic k p.1 p.2).bind fun _ _ => ?_
  exact NoPanic.require _ _

theorem validateInstructions_noPanic (message : VaultTransactionMessage) (expected : List ExpectedInstruction) :
    NoPanic (validateInstructions message k expected) := by
  unfold validateInstructions
  refine NoPanic.require_bind fun _ => ?_
  exact Ensures.forM fun p _ => validateInstruction_noPanic k p.1 p.2

end

/-! ## The outer transaction -/

theorem countVote_ensures (e : VoteExpectation) {votes : Nat} (h : votes + 1 ≤ usizeMax) (ix : Instruction) :
    Ensures (countVote e votes ix) (· ≤ votes + 1) fun _ => True := by
  rw [countVote_eq]
  split
  · exact .ok (Nat.le_succ votes)
  · split
    · cases validateVote_cases e ix with
      | inl hok =>
        rw [hok, ok_bind, addUsize_of_le h]
        exact .ok (Nat.le_refl _)
      | inr hfail =>
        obtain ⟨x, hf⟩ := hfail
        rw [hf, fail_bind]
        exact .fail trivial
    · exact .fail trivial

theorem validateTransactionShape_noPanic {top : List Instruction} (h : top.length ≤ usizeMax) (e : VoteExpectation) :
    NoPanic (validateTransactionShape top e) := by
  unfold validateTransactionShape
  have hloop : Ensures (top.foldlM (countVote e) 0) (fun votes => votes ≤ top.length) fun _ => True := by
    apply Ensures.foldlM (I := fun pre votes => votes ≤ pre.length) (Nat.le_refl 0)
    intro pre ix post votes htop hle
    have hlen : pre.length + 1 ≤ top.length := by
      rw [htop, List.length_append, List.length_cons]; omega
    refine (countVote_ensures e (by omega) ix).mono (fun n hn => ?_) fun _ => id
    rw [List.length_append, List.length_singleton]
    omega
  refine hloop.bind fun votes _ => ?_
  exact NoPanic.require _ _

/-- The count is a `u16`. -/
theorem readTopLevel_ensures (rt : Runtime) (sysvar : AccountInfo) :
    Ensures (readTopLevel rt sysvar) (·.length < 2 ^ 16) fun _ => True := by
  unfold readTopLevel
  refine .require_bind (fun _ => trivial) fun hd => ?_
  obtain ⟨a, b, rest, hdata⟩ : ∃ a b rest, sysvar.data.toList = a :: b :: rest := by
    match sysvar.data.toList, hd with
    | a :: b :: rest, _ => exact ⟨a, b, rest, rfl⟩
  simp only [hdata, index, List.getElem?_cons_zero, List.getElem?_cons_succ, ok_bind]
  refine (Ensures.mapM (P := fun _ _ => True) fun i _ => ?_).mono (fun top htop => ?_) fun _ => id
  · exact NoPanic.okOr _ _
  · rw [← htop.length_eq, List.length_range]
    have hlt := leNat_lt [a, b]
    have h2 : [a, b].length = 2 := rfl
    rw [h2] at hlt
    omega

/-! ## The handlers -/

theorem readLookupTable_noPanic (account : AccountInfo) (lookup : MultisigMessageAddressTableLookup) :
    NoPanic (readLookupTable account lookup) := by
  unfold readLookupTable
  refine NoPanic.require_bind fun _ => ?_
  refine NoPanic.require_bind fun _ => ?_
  exact parseLookupTableAddresses_noPanic _

theorem verifyProposal_noPanic (rt : Runtime) (ctx : Context VerifyProposal) (args : VerifyProposalArgs) :
    NoPanic (verifyProposal rt ctx args) := by
  unfold verifyProposal
  refine NoPanic.require_bind fun _ => ?_
  refine NoPanic.require_bind fun _ => ?_
  refine (deserializeChecked_noPanic _).bind fun tx _ => ?_
  refine NoPanic.require_bind fun _ => ?_
  refine NoPanic.require_bind fun _ => ?_
  refine NoPanic.require_bind fun _ => ?_
  refine NoPanic.require_bind fun _ => ?_
  refine NoPanic.require_bind fun _ => ?_
  refine (Ensures.mapM fun p _ => readLookupTable_noPanic p.1 p.2).bind fun tables _ => ?_
  refine (resolve_noPanic _ tables).bind fun k _ => ?_
  refine (validateInstructions_noPanic k _ _).bind fun _ _ => ?_
  refine (readTopLevel_ensures rt _).bind fun top htop => ?_
  apply validateTransactionShape_noPanic
  unfold usizeMax
  omega

theorem verifyBufferHash_noPanic (rt : Runtime) (ctx : Context VerifyBufferHash) (args : VerifyBufferHashArgs) :
    NoPanic (verifyBufferHash rt ctx args) := by
  unfold verifyBufferHash
  obtain ⟨p, hp⟩ := exists_trimmed ctx.accounts.buffer.program
  refine NoPanic.require_bind fun _ => ?_
  refine NoPanic.require_bind fun _ => ?_
  refine (extractBufferProgramBytes_ensures _).bind fun b hb => ?_
  have hprogram : b = ctx.accounts.buffer.program := hb
  rw [hprogram, computeProgramHash_eq rt hp, ok_bind]
  refine (hexToHash_ensures args.expectedHash).noPanic.bind fun expected _ => ?_
  split
  · rw [hashToHex_eq, ok_bind]
    exact .fail trivial
  · rw [trimTrailingZeros_eq ctx.accounts.buffer.program_length_le hp, ok_bind]
    exact .ok trivial

/-- Whatever the accounts, their data, the arguments and the outer transaction hold, both handlers return or
report an error. -/
theorem handlers_return (rt : Runtime) :
    (∀ (ctx : Context VerifyProposal) (args : VerifyProposalArgs),
      verifyProposal rt ctx args = .ok () ∨ ∃ e, verifyProposal rt ctx args = fail e) ∧
    (∀ (ctx : Context VerifyBufferHash) (args : VerifyBufferHashArgs),
      verifyBufferHash rt ctx args = .ok () ∨ ∃ e, verifyBufferHash rt ctx args = fail e) := by
  refine ⟨fun ctx args => ?_, fun ctx args => ?_⟩
  · exact NoPanic.unit_cases (verifyProposal_noPanic rt ctx args)
  · exact NoPanic.unit_cases (verifyBufferHash_noPanic rt ctx args)

end ClearSigning
