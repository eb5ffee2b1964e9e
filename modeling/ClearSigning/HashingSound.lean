import ClearSigning.HexSound
import ClearSigning.Scripts
import ClearSigning.UpgradeSound

/-!
# Off-chain and on-chain hashing of a build

The scripts trim with a countdown, the program with a backward search. Both give
the bytes before the trailing zeros, so the zeros a deployment pads a build with
do not change the hash; and a hash with one character replaced is refused.
-/

namespace ClearSigning

open Exec

/-- `hash_to_hex(compute_program_hash(extract_buffer_program_bytes(data)))` -/
def bufferHashHex (rt : Runtime) (data : Bytes) : Result String := do
  let programBytes ← extractBufferProgramBytes data
  let hash ← computeProgramHash rt programBytes
  hashToHex hash

/-! ## The countdown -/

theorem trimEnd_trimmed {l : Bytes} {stop n : Nat} (hle : stop ≤ l.length)
    (hl : l = l.take stop ++ List.replicate n 0) : Trimmed l (l.take (trimEnd l stop)) := by
  induction stop generalizing n with
  | zero => exact ⟨by simp [trimEnd], n, hl⟩
  | succ stop ih =>
    have hlt : stop < l.length := hle
    have htake : l.take (stop + 1) = l.take stop ++ [l[stop]] := List.take_succ_eq_append_getElem hlt
    unfold trimEnd
    by_cases hz : l[stop]? = some 0
    · rw [if_pos hz]
      have hzero : l[stop] = 0 := by
        rw [List.getElem?_eq_getElem hlt] at hz
        exact Option.some.inj hz
      apply ih (Nat.le_of_lt hlt) (n := n + 1)
      rw [htake, hzero, List.append_assoc] at hl
      exact hl
    · rw [if_neg hz]
      refine ⟨?_, n, hl⟩
      rw [htake, List.getLast?_concat, ← List.getElem?_eq_getElem hlt]
      exact hz

theorem trimScript_trimmed (l : Bytes) : Trimmed l (trimScript l) :=
  trimEnd_trimmed (Nat.le_refl _) (n := 0) (by simp)

/-! ## A replaced character -/

theorem tamperHash_ne {s : String} (h : s.length = 64) : tamperHash s ≠ s := by
  intro he
  have hlen : s.toList.length = 64 := by rw [String.length_toList, h]
  have hget := congrArg (fun t : String => t.toList[5]?) he
  have h5 : (s.toList.take 5).length = 5 := List.length_take_of_le (by omega)
  unfold tamperHash at hget
  simp only [String.toList_ofList, List.append_assoc] at hget
  rw [List.getElem?_append_right (by omega), h5] at hget
  simp only [Nat.sub_self, List.singleton_append, List.getElem?_cons_zero] at hget
  split at hget
  · rename_i hf
    rw [hf] at hget
    cases hget
  · rename_i hf
    exact hf hget.symm

/-! ## Agreement -/

section
variable {rt : Runtime} {ctx : Context VerifyBufferHash} {args : VerifyBufferHashArgs} {p : Bytes}

theorem verifyBufferHash_mismatch (hp : Trimmed ctx.accounts.buffer.program p)
    (hk : ctx.accounts.buffer.key = args.buffer) (hb : IsBuffer ctx.accounts.buffer)
    (hne : args.expectedHash ≠ hexString (rt.sha256 p).toList) :
    verifyBufferHash rt ctx args = fail .bufferHashMismatch := by
  rw [verifyBufferHash_of_isBuffer hp hk hb]
  rcases (hexToHash_ensures args.expectedHash).cases with ⟨h, hok, -⟩ | ⟨e, he, rfl⟩
  · have hother : rt.sha256 p ≠ h := by
      intro heq
      rw [heq] at hne
      exact hne (hexToHash_eq_ok.mp hok)
    rw [hok, ok_bind, if_neg hother]
  · rw [he, fail_bind]

end

/-- However many zeros a build is padded with, the scripts and the program compute one hash of it, which
`verify_buffer_hash` accepts; with a character replaced it is refused. -/
theorem buildHash_agrees {rt : Runtime} {account : AccountInfo} {authority so : Bytes} {n : Nat}
    (hauthority : authority.length = 33)
    (hdata : account.data.toList = leBytes 4 1 ++ authority ++ so ++ List.replicate n 0) :
    ∃ s, bufferHashHex rt account.data.toList = .ok s ∧
      (∀ tamper ≠ "hash", ApproveClearsign.expectedHash (fun b => (rt.sha256 b).toList) tamper so = s ∧
        ApproveClearsignV1.expectedHash (fun b => (rt.sha256 b).toList) tamper so = s) ∧
      ProgramHash.buffer (fun b => (rt.sha256 b).toList) account.data.toList = some s ∧
      ∀ ctx : Context VerifyBufferHash, ctx.accounts.buffer = account → account.owner = bpfLoaderUpgradeableId →
        verifyBufferHash rt ctx ⟨account.key, s⟩ = .ok () ∧
        verifyBufferHash rt ctx ⟨account.key,
          ApproveClearsign.expectedHash (fun b => (rt.sha256 b).toList) "hash" so⟩ = fail .bufferHashMismatch ∧
        verifyBufferHash rt ctx ⟨account.key,
          ApproveClearsignV1.expectedHash (fun b => (rt.sha256 b).toList) "hash" so⟩ = fail .bufferHashMismatch := by
  have hhead : (leBytes 4 1 ++ authority).length = bufferMetadataSize := by
    rw [List.length_append, leBytes_length, hauthority]; rfl
  have hprogram : account.program = so ++ List.replicate n 0 := by
    rw [AccountInfo.program, hdata, List.append_assoc, List.drop_left' hhead]
  have hsize : bufferMetadataSize ≤ account.data.toList.length := by
    rw [hdata, List.append_assoc, List.length_append, hhead]
    exact Nat.le_add_right _ _
  have htag : leNat (account.data.toList.take 4) = 1 := by
    rw [hdata, List.append_assoc, List.append_assoc, List.take_left' (leBytes_length 4 1)]
    decide
  -- the file trimmed is the padded program trimmed
  have hso : Trimmed account.program (trimScript so) := hprogram ▸ (trimScript_trimmed so).append_zeros n
  have hextract : extractBufferProgramBytes account.data.toList = .ok account.program :=
    extractBufferProgramBytes_eq_ok.mpr ⟨hsize, htag, rfl⟩
  refine ⟨hexString (rt.sha256 (trimScript so)).toList, ?_, fun tamper ht => ?_, ?_, ?_⟩
  · unfold bufferHashHex
    rw [hextract, ok_bind, computeProgramHash_eq rt hso, ok_bind, hashToHex_eq]
  · exact ⟨if_neg ht, if_neg ht⟩
  · have h37 : ProgramHash.bufferMetadataSize = bufferMetadataSize := rfl
    have hbuild : ProgramHash.trim account.program = trimScript so := trimmed_unique (trimScript_trimmed _) hso
    have h4 : 4 ≤ account.data.toList.length := Nat.le_trans (by decide) hsize
    unfold ProgramHash.buffer ProgramHash.digest
    rw [if_pos ⟨h4, htag⟩, h37, ← AccountInfo.program, hbuild]
  · intro ctx hctx howner
    subst hctx
    have hb : IsBuffer ctx.accounts.buffer := ⟨howner, hsize, htag⟩
    have hne := tamperHash_ne (canonicalHex_hexString (rt.sha256 (trimScript so))).length
    refine ⟨?_, ?_, ?_⟩
    · exact (verifyBufferHash_eq_ok hso).mpr ⟨rfl, hb, rfl⟩
    · exact verifyBufferHash_mismatch hso rfl hb hne
    · exact verifyBufferHash_mismatch hso rfl hb hne

/-- The build `[1]` under three zeros of padding. -/
def paddedBuffer : AccountInfo where
  key := bufferKey
  owner := bpfLoaderUpgradeableId
  data := ⟨leBytes 4 1 ++ encodeAuthority (some vaultKey) ++ [1] ++ List.replicate 3 0, by decide⟩

theorem paddedBuffer_agrees : ∃ s, bufferHashHex twoDigestsRuntime paddedBuffer.data.toList = .ok s ∧
    verifyBufferHash twoDigestsRuntime ⟨⟨paddedBuffer⟩, []⟩ ⟨bufferKey, s⟩ = .ok () ∧
    verifyBufferHash twoDigestsRuntime ⟨⟨paddedBuffer⟩, []⟩ ⟨bufferKey,
      ApproveClearsign.expectedHash (fun b => (twoDigests b).toList) "hash" [1]⟩ = fail .bufferHashMismatch := by
  have hauthority : (encodeAuthority (some vaultKey)).length = 33 := encodeAuthority_length _
  obtain ⟨s, hs, -, -, hverify⟩ :=
    @buildHash_agrees twoDigestsRuntime paddedBuffer (encodeAuthority (some vaultKey)) [1] 3 hauthority rfl
  obtain ⟨hok, hfail, -⟩ := hverify ⟨⟨paddedBuffer⟩, []⟩ rfl rfl
  exact ⟨s, hs, hok, hfail⟩

end ClearSigning
