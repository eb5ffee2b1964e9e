import ClearSigning.Handlers
import ClearSigning.HexSound

/-!
# When `verify_buffer_hash` accepts

The hash is taken of the program bytes without their trailing zeros, and the
argument is decoded, which only the lowercase form of a digest survives. So a
buffer accepts exactly one hash string.
-/

namespace ClearSigning

open Exec

/-! ## Trailing zeros -/

/-- `p` is the part of `l` before its trailing zeros. -/
def Trimmed (l p : Bytes) : Prop := p.getLast? ≠ some 0 ∧ ∃ n, l = p ++ List.replicate n 0

theorem exists_trimmed (l : Bytes) : ∃ p, Trimmed l p := by
  induction l using List.reverseRecOn with
  | nil => exact ⟨[], by simp, 0, rfl⟩
  | append_singleton l b ih =>
    by_cases hb : b = 0
    · obtain ⟨p, hp, n, rfl⟩ := ih
      exact ⟨p, hp, n + 1, by rw [hb, List.replicate_succ', List.append_assoc]⟩
    · exact ⟨l ++ [b], by simp [hb], 0, by simp⟩

theorem Trimmed.cases {l p : Bytes} (h : Trimmed l p) :
    p = [] ∧ (∀ b ∈ l, b = 0) ∨ ∃ q b n, p = q ++ [b] ∧ b ≠ 0 ∧ l = q ++ b :: List.replicate n 0 := by
  obtain ⟨hp, n, rfl⟩ := h
  rcases List.eq_nil_or_concat p with rfl | ⟨q, b, rfl⟩
  · exact Or.inl ⟨rfl, fun b hb => List.eq_of_mem_replicate hb⟩
  · have hb : b ≠ 0 := by simpa using hp
    exact Or.inr ⟨q, b, n, by simp, hb, by simp⟩

theorem findIdx?_reverse_zeros (q : Bytes) {b : UInt8} (hb : b ≠ 0) (n : Nat) :
    (q ++ b :: List.replicate n 0).reverse.findIdx? (· != 0) = some n := by
  rw [List.reverse_append, List.reverse_cons, List.reverse_replicate, List.append_assoc, List.findIdx?_append]
  simp [List.findIdx?_cons, hb]

theorem trimTrailingZeros_eq {l p : Bytes} (hl : l.length ≤ usizeMax) (h : Trimmed l p) :
    trimTrailingZeros l = .ok p := by
  unfold trimTrailingZeros rposition
  rcases h.cases with ⟨rfl, hzero⟩ | ⟨q, b, n, rfl, hb, rfl⟩
  · have hnone : l.reverse.findIdx? (· != 0) = none := by
      rw [List.findIdx?_eq_none_iff]
      intro b hm
      simp [hzero b (List.mem_reverse.mp hm)]
    rw [hnone]
    simp [sliceTo_of_le]
  · have hlen : (q ++ b :: List.replicate n 0).length - 1 - n = q.length := by simp
    simp only [findIdx?_reverse_zeros q hb, Option.map_some, hlen]
    rw [addUsize_of_le (by simp at hl; omega), ok_bind, sliceTo_of_le (by simp)]
    simp [List.take_append]

theorem trimmed_unique {l p p' : Bytes} (h : Trimmed l p) (h' : Trimmed l p') : p = p' := by
  rcases h.cases with ⟨rfl, hz⟩ | ⟨q, b, n, rfl, hb, hl⟩
  · rcases h'.cases with ⟨rfl, -⟩ | ⟨q', b', n', rfl, hb', hl'⟩
    · rfl
    · exact absurd (hz b' (by simp [hl'])) hb'
  · rcases h'.cases with ⟨rfl, hz'⟩ | ⟨q', b', n', rfl, hb', hl'⟩
    · exact absurd (hz' b (by simp [hl])) hb
    · have hn : n = n' := by
        have hi := findIdx?_reverse_zeros q hb n
        rw [← hl, hl', findIdx?_reverse_zeros q' hb' n'] at hi
        exact (Option.some.inj hi).symm
      subst hn
      have hq : q ++ [b] ++ List.replicate n 0 = q' ++ [b'] ++ List.replicate n 0 := by
        simpa using hl.symm.trans hl'
      exact List.append_cancel_right hq

theorem Trimmed.append_zeros {l p : Bytes} (h : Trimmed l p) (m : Nat) : Trimmed (l ++ List.replicate m 0) p := by
  obtain ⟨hp, n, rfl⟩ := h
  exact ⟨hp, n + m, by rw [List.append_assoc, List.replicate_append_replicate]⟩

/-! ## Acceptance -/

/-- An uploaded build: the account of a loader buffer with a header, whose tag says so. -/
structure IsBuffer (account : AccountInfo) : Prop where
  owner : account.owner = bpfLoaderUpgradeableId
  size : bufferMetadataSize ≤ account.data.toList.length
  tag : leNat (account.data.toList.take 4) = bufferStateTag

def AccountInfo.program (account : AccountInfo) : Bytes := account.data.toList.drop bufferMetadataSize

theorem AccountInfo.program_length_le (account : AccountInfo) : account.program.length ≤ usizeMax := by
  have := account.data.length_le
  unfold AccountInfo.program usizeMax
  rw [List.length_drop]; omega

theorem computeProgramHash_eq (rt : Runtime) {account : AccountInfo} {p : Bytes} (hp : Trimmed account.program p) :
    computeProgramHash rt account.program = .ok (rt.sha256 p) := by
  unfold computeProgramHash
  rw [trimTrailingZeros_eq account.program_length_le hp, ok_bind, pure_eq]

theorem extractBufferProgramBytes_eq_ok {d b : Bytes} : extractBufferProgramBytes d = .ok b ↔
    bufferMetadataSize ≤ d.length ∧ leNat (d.take 4) = bufferStateTag ∧ b = d.drop bufferMetadataSize := by
  unfold extractBufferProgramBytes
  rw [require_bind_eq_ok]
  refine and_congr_right fun hd => ?_
  have h37 : bufferMetadataSize = 37 := rfl
  rw [u32FromLeBytes_slice_bind (by omega), require_bind_eq_ok, sliceFrom_of_le hd, Except.ok.injEq,
    eq_comm (a := b)]

section
variable {rt : Runtime} {ctx : Context VerifyBufferHash} {args : VerifyBufferHashArgs} {p : Bytes}

theorem isBuffer_of_verified (h : verifyBufferHash rt ctx args = .ok ()) :
    ctx.accounts.buffer.key = args.buffer ∧ IsBuffer ctx.accounts.buffer := by
  unfold verifyBufferHash at h
  simp only [bind_eq_ok, require_eq_ok, exists_const, extractBufferProgramBytes_eq_ok] at h
  obtain ⟨hk, ho, _, ⟨hsize, htag, _⟩, _⟩ := h
  exact ⟨hk, ho, hsize, htag⟩

/-- On a buffer only the decoded argument is left to compare. -/
theorem verifyBufferHash_of_isBuffer (hp : Trimmed ctx.accounts.buffer.program p)
    (hk : ctx.accounts.buffer.key = args.buffer) (hb : IsBuffer ctx.accounts.buffer) :
    verifyBufferHash rt ctx args = (hexToHash args.expectedHash >>= fun expected =>
      if rt.sha256 p = expected then .ok () else fail .bufferHashMismatch) := by
  have hextract : extractBufferProgramBytes ctx.accounts.buffer.data.toList = .ok ctx.accounts.buffer.program :=
    extractBufferProgramBytes_eq_ok.mpr ⟨hb.size, hb.tag, rfl⟩
  unfold verifyBufferHash
  simp only [require_pos hk, require_pos hb.owner, hextract, computeProgramHash_eq rt hp, ok_bind]
  congr 1
  funext expected
  by_cases he : rt.sha256 p = expected
  · rw [if_neg (not_not_intro he), if_pos he, trimTrailingZeros_eq ctx.accounts.buffer.program_length_le hp, ok_bind,
      pure_eq]
  · rw [if_pos he, if_neg he, hashToHex_eq, ok_bind]
    rfl

theorem verifyBufferHash_eq_ok (hp : Trimmed ctx.accounts.buffer.program p) :
    verifyBufferHash rt ctx args = .ok () ↔ ctx.accounts.buffer.key = args.buffer ∧
      IsBuffer ctx.accounts.buffer ∧ args.expectedHash = hexString (rt.sha256 p).toList := by
  refine ⟨fun h => ?_, fun ⟨hk, hb, hs⟩ => ?_⟩
  · obtain ⟨hk, hb⟩ := isBuffer_of_verified h
    rw [verifyBufferHash_of_isBuffer hp hk hb] at h
    obtain ⟨expected, hexp, h⟩ := bind_eq_ok.mp h
    by_cases he : rt.sha256 p = expected
    · rw [he]
      exact ⟨hk, hb, hexToHash_eq_ok.mp hexp⟩
    · rw [if_neg he] at h
      exact absurd h (fail_ne_ok _ _)
  · rw [verifyBufferHash_of_isBuffer hp hk hb, hexToHash_eq_ok.mpr hs, ok_bind, if_pos rfl]

end

/-- Exactly the lowercase hex digest of the trimmed program bytes is accepted; so a buffer accepts one
string, and trailing zeros do not matter. -/
theorem verifyBufferHash_accepts (rt : Runtime) :
    (∀ ctx args, verifyBufferHash rt ctx args = .ok () ↔
      ctx.accounts.buffer.key = args.buffer ∧ IsBuffer ctx.accounts.buffer ∧
        ∃ p, Trimmed ctx.accounts.buffer.program p ∧ args.expectedHash = hexString (rt.sha256 p).toList) ∧
    (∀ account : AccountInfo, ∃! p, Trimmed account.program p) ∧
    (∀ ctx : Context VerifyBufferHash, IsBuffer ctx.accounts.buffer →
      ∃! s, verifyBufferHash rt ctx ⟨ctx.accounts.buffer.key, s⟩ = .ok ()) ∧
    (∀ ctx ctx' : Context VerifyBufferHash, IsBuffer ctx.accounts.buffer → IsBuffer ctx'.accounts.buffer →
      (∃ p n m, ctx.accounts.buffer.program = p ++ List.replicate n 0 ∧
        ctx'.accounts.buffer.program = p ++ List.replicate m 0) →
      ∀ s, verifyBufferHash rt ctx ⟨ctx.accounts.buffer.key, s⟩ = .ok () ↔
        verifyBufferHash rt ctx' ⟨ctx'.accounts.buffer.key, s⟩ = .ok ()) := by
  refine ⟨fun ctx args => ?_, fun account => ?_, fun ctx hb => ?_, fun ctx ctx' hb hb' h s => ?_⟩
  · obtain ⟨p, hp⟩ := exists_trimmed ctx.accounts.buffer.program
    rw [verifyBufferHash_eq_ok hp]
    refine ⟨fun ⟨hk, hb, hs⟩ => ⟨hk, hb, p, hp, hs⟩, fun ⟨hk, hb, p', hp', hs⟩ => ?_⟩
    rw [trimmed_unique hp hp']
    exact ⟨hk, hb, hs⟩
  · obtain ⟨p, hp⟩ := exists_trimmed account.program
    exact ⟨p, hp, fun p' hp' => trimmed_unique hp' hp⟩
  · obtain ⟨p, hp⟩ := exists_trimmed ctx.accounts.buffer.program
    refine ⟨hexString (rt.sha256 p).toList, (verifyBufferHash_eq_ok hp).mpr ⟨rfl, hb, rfl⟩, fun s hs => ?_⟩
    exact ((verifyBufferHash_eq_ok hp).mp hs).2.2
  · obtain ⟨q, n, m, hq, hq'⟩ := h
    obtain ⟨p, hp⟩ := exists_trimmed q
    have ht : Trimmed ctx.accounts.buffer.program p := hq ▸ hp.append_zeros n
    have ht' : Trimmed ctx'.accounts.buffer.program p := hq' ▸ hp.append_zeros m
    rw [verifyBufferHash_eq_ok ht, verifyBufferHash_eq_ok ht']
    exact ⟨fun ⟨_, _, hs⟩ => ⟨rfl, hb', hs⟩, fun ⟨_, _, hs⟩ => ⟨rfl, hb, hs⟩⟩

end ClearSigning
