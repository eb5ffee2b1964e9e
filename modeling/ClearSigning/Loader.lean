import ClearSigning.Lib.Trace
import ClearSigning.BufferSound
import ClearSigning.Spec
import Mathlib.Logic.Function.Basic

/-!
# Buffers between the check and the upgrade

What is assumed of the upgradeable loader, and no more: the authority of a
buffer stands in bytes 4 to 37 of its account, the program bytes and that field
change only by writes and hand-overs that the recorded authority signs, and an
upgrade copies the program bytes of a buffer whose recorded authority is the
upgraded program's, the vault.
-/

namespace ClearSigning

open Exec

/-- The accounts, and the bytes deployed for the upgraded program. -/
structure Chain where
  ledger : Ledger
  deployed : Bytes

def Chain.put (s : Chain) (key : Pubkey) (account : AccountState) : Chain where
  ledger := Function.update s.ledger key account
  deployed := s.deployed

@[simp] theorem Chain.put_self (s : Chain) (key : Pubkey) (account : AccountState) :
    (s.put key account).ledger key = account := Function.update_self ..

theorem Chain.put_of_ne (s : Chain) {key key' : Pubkey} (h : key' ≠ key) (account : AccountState) :
    (s.put key account).ledger key' = s.ledger key' := Function.update_of_ne h ..

/-- The authority field of account data: bytes 4 to 37, an option tag and a key. -/
def authorityField (data : Bytes) : Bytes := (data.drop 4).take 33

def encodeAuthority : Option Pubkey → Bytes
  | some authority => 1 :: authority.toList
  | none => List.replicate 33 0

def Records (data : Bytes) (authority : Pubkey) : Prop := authorityField data = encodeAuthority (some authority)

instance (data : Bytes) (authority : Pubkey) : Decidable (Records data authority) :=
  inferInstanceAs (Decidable (_ = _))

instance (account : AccountInfo) : Decidable (IsBuffer account) :=
  decidable_of_iff (account.owner = bpfLoaderUpgradeableId ∧ bufferMetadataSize ≤ account.data.toList.length ∧
    leNat (account.data.toList.take 4) = bufferStateTag)
    ⟨fun ⟨ho, hs, ht⟩ => ⟨ho, hs, ht⟩, fun h => ⟨h.owner, h.size, h.tag⟩⟩

theorem encodeAuthority_length (authority : Option Pubkey) : (encodeAuthority authority).length = 33 := by
  cases authority with
  | none => rfl
  | some a => rw [encodeAuthority, List.length_cons, a.toList_length]

/-! ## Writing in place -/

def overwrite (d : Bytes) (i : Nat) (b : Bytes) : Bytes := d.take i ++ b ++ d.drop (i + b.length)

section
variable {d b : Bytes} {i : Nat} (h : i + b.length ≤ d.length)
include h

theorem overwrite_length : (overwrite d i b).length = d.length := by
  simp only [overwrite, List.length_append, List.length_take, List.length_drop]; omega

theorem overwrite_take {j : Nat} (hj : j ≤ i) : (overwrite d i b).take j = d.take j := by
  have hi : (d.take i).length = i := List.length_take_of_le (by omega)
  rw [overwrite, List.append_assoc, List.take_append_of_le_length (by omega), List.take_take, Nat.min_eq_left hj]

theorem overwrite_drop {j : Nat} (hj : i + b.length ≤ j) : (overwrite d i b).drop j = d.drop j := by
  have hi : (d.take i ++ b).length = i + b.length := by
    rw [List.length_append, List.length_take_of_le (by omega)]
  obtain ⟨m, rfl⟩ := Nat.exists_eq_add_of_le hj
  rw [overwrite, ← hi, List.drop_length_add_append, List.drop_drop, hi]

theorem overwrite_take_drop : ((overwrite d i b).drop i).take b.length = b := by
  have hi : (d.take i).length = i := List.length_take_of_le (by omega)
  rw [overwrite, List.append_assoc, List.drop_left' hi, List.take_left' rfl]

end

def AccountState.overwrite (a : AccountState) (i : Nat) (b : Bytes) (h : i + b.length ≤ a.data.toList.length) :
    AccountState where
  owner := a.owner
  data := ⟨ClearSigning.overwrite a.data.toList i b, overwrite_length h ▸ a.data.length_le⟩

/-! ## Steps -/

theorem authorityField_fits {account : AccountInfo} (h : IsBuffer account) (authority : Option Pubkey) :
    4 + (encodeAuthority authority).length ≤ account.data.toList.length := by
  rw [encodeAuthority_length]; exact h.size

inductive Action where
  | write (signer buffer : Pubkey) (offset : Nat) (bytes : Bytes)
  | setAuthority (signer buffer : Pubkey) (authority : Option Pubkey)
  /-- `Upgrade`, signed by the vault. -/
  | upgrade (buffer : Pubkey)
  /-- A transaction with `verify_buffer_hash`, which changes nothing whether it succeeds or not. -/
  | verify (args : VerifyBufferHashArgs)

def Action.signer? : Action → Option Pubkey
  | .write signer .. => some signer
  | .setAuthority signer .. => some signer
  | _ => none

variable (vault : Pubkey)

def Chain.step (s : Chain) : Action → Option Chain
  | .write signer buffer offset bytes =>
    let account := s.ledger buffer
    if h : IsBuffer (s.ledger.info buffer) ∧ Records account.data.toList signer ∧
        bufferMetadataSize + offset + bytes.length ≤ account.data.toList.length then
      some (s.put buffer (account.overwrite (bufferMetadataSize + offset) bytes h.2.2))
    else none
  | .setAuthority signer buffer authority =>
    let account := s.ledger buffer
    if h : IsBuffer (s.ledger.info buffer) ∧ Records account.data.toList signer then
      some (s.put buffer (account.overwrite 4 (encodeAuthority authority) (authorityField_fits h.1 authority)))
    else none
  | .upgrade buffer =>
    if IsBuffer (s.ledger.info buffer) ∧ Records (s.ledger buffer).data.toList vault then
      some { s with deployed := (s.ledger.info buffer).program }
    else none
  | .verify _ => some s

def Chain.Verified (rt : Runtime) (s : Chain) (args : VerifyBufferHashArgs) : Prop :=
  verifyBufferHash rt ⟨⟨s.ledger.info args.buffer⟩, []⟩ args = .ok ()

/-! ## What one step does -/

section
variable {vault} {s t : Chain}

theorem Chain.step_write {signer buffer : Pubkey} {offset : Nat} {bytes : Bytes} :
    s.step vault (.write signer buffer offset bytes) = some t ↔ ∃ h, IsBuffer (s.ledger.info buffer) ∧
      Records (s.ledger buffer).data.toList signer ∧
        t = s.put buffer ((s.ledger buffer).overwrite (bufferMetadataSize + offset) bytes h) := by
  unfold Chain.step
  refine ⟨fun h => ?_, fun ⟨hl, hb, hr, ht⟩ => ?_⟩
  · simp only [Option.dite_none_right_eq_some, Option.some.injEq] at h
    obtain ⟨⟨hb, hr, hl⟩, ht⟩ := h
    exact ⟨hl, hb, hr, ht.symm⟩
  · rw [ht]
    exact dif_pos ⟨hb, hr, hl⟩

theorem Chain.step_setAuthority {signer buffer : Pubkey} {authority : Option Pubkey} :
    s.step vault (.setAuthority signer buffer authority) = some t ↔ ∃ h, IsBuffer (s.ledger.info buffer) ∧
      Records (s.ledger buffer).data.toList signer ∧
        t = s.put buffer ((s.ledger buffer).overwrite 4 (encodeAuthority authority) h) := by
  unfold Chain.step
  refine ⟨fun h => ?_, fun ⟨hl, hb, hr, ht⟩ => ?_⟩
  · simp only [Option.dite_none_right_eq_some, Option.some.injEq] at h
    obtain ⟨⟨hb, hr⟩, ht⟩ := h
    exact ⟨authorityField_fits hb authority, hb, hr, ht.symm⟩
  · rw [ht]
    exact dif_pos ⟨hb, hr⟩

theorem Chain.step_upgrade {buffer : Pubkey} : s.step vault (.upgrade buffer) = some t ↔
    (IsBuffer (s.ledger.info buffer) ∧ Records (s.ledger buffer).data.toList vault) ∧
      t = { s with deployed := (s.ledger.info buffer).program } := by
  unfold Chain.step
  rw [Option.ite_none_right_eq_some, Option.some.injEq, eq_comm (a := t)]

/-- An account whose data no signer of the step has authority over is left alone. -/
theorem Chain.step_frame {a : Action} {buffer : Pubkey}
    (hsig : ∀ signer, a.signer? = some signer → ¬Records (s.ledger buffer).data.toList signer)
    (h : s.step vault a = some t) : t.ledger buffer = s.ledger buffer := by
  cases a with
  | write signer other offset bytes =>
    obtain ⟨_, _, hr, rfl⟩ := Chain.step_write.mp h
    have hne : buffer ≠ other := by
      intro he
      exact hsig signer rfl (he ▸ hr)
    exact s.put_of_ne hne _
  | setAuthority signer other authority =>
    obtain ⟨_, _, hr, rfl⟩ := Chain.step_setAuthority.mp h
    have hne : buffer ≠ other := by
      intro he
      exact hsig signer rfl (he ▸ hr)
    exact s.put_of_ne hne _
  | upgrade other =>
    obtain ⟨-, rfl⟩ := Chain.step_upgrade.mp h
    rfl
  | verify args =>
    cases h; rfl

/-! ## What the recorded authority can do -/

theorem authorityField_eq (data : Bytes) : authorityField data = (data.take bufferMetadataSize).drop 4 := by
  have h37 : bufferMetadataSize = 37 := rfl
  rw [authorityField, List.drop_take, h37]

theorem IsBuffer.overwrite {key : Pubkey} {a : AccountState} (h : IsBuffer ⟨key, a.owner, a.data⟩) {i : Nat}
    {b : Bytes} (hi : 4 ≤ i) (hl : i + b.length ≤ a.data.toList.length) :
    IsBuffer ⟨key, (a.overwrite i b hl).owner, (a.overwrite i b hl).data⟩ := by
  obtain ⟨ho, hs, ht⟩ := h
  refine ⟨ho, ?_, ?_⟩
  · show bufferMetadataSize ≤ (ClearSigning.overwrite a.data.toList i b).length
    rw [overwrite_length hl]; exact hs
  · show leNat ((ClearSigning.overwrite a.data.toList i b).take 4) = bufferStateTag
    rw [overwrite_take hl hi]; exact ht

variable {buffer authority : Pubkey}

theorem Chain.can_write (hb : IsBuffer (s.ledger.info buffer))
    (hr : Records (s.ledger buffer).data.toList authority) {bytes : Bytes}
    (hlen : bytes.length = (s.ledger.info buffer).program.length) :
    ∃ t, s.step vault (.write authority buffer 0 bytes) = some t ∧ IsBuffer (t.ledger.info buffer) ∧
      Records (t.ledger buffer).data.toList authority ∧ (t.ledger.info buffer).program = bytes := by
  have hsize : bufferMetadataSize ≤ (s.ledger buffer).data.toList.length := hb.size
  have hprog : bytes.length = (s.ledger buffer).data.toList.length - bufferMetadataSize := by
    rw [hlen, AccountInfo.program, List.length_drop]; rfl
  have hfit : bufferMetadataSize + 0 + bytes.length ≤ (s.ledger buffer).data.toList.length := by omega
  refine ⟨_, Chain.step_write.mpr ⟨hfit, hb, hr, rfl⟩, ?_, ?_, ?_⟩
  · unfold Ledger.info
    rw [Chain.put_self]
    exact hb.overwrite (by decide) hfit
  · rw [Chain.put_self]
    show authorityField (overwrite _ _ _) = _
    rw [authorityField_eq, overwrite_take hfit (Nat.le_add_right bufferMetadataSize 0), ← authorityField_eq]
    exact hr
  · unfold Ledger.info
    rw [Chain.put_self]
    have hall := overwrite_take_drop hfit
    rw [List.take_of_length_le] at hall
    · exact hall
    · rw [List.length_drop, overwrite_length hfit]; omega

theorem Chain.can_hand_over (hb : IsBuffer (s.ledger.info buffer))
    (hr : Records (s.ledger buffer).data.toList authority) (new : Pubkey) :
    ∃ t, s.step vault (.setAuthority authority buffer (some new)) = some t ∧ IsBuffer (t.ledger.info buffer) ∧
      Records (t.ledger buffer).data.toList new ∧
      (t.ledger.info buffer).program = (s.ledger.info buffer).program := by
  have hfit := authorityField_fits hb (some new)
  have h33 := encodeAuthority_length (some new)
  refine ⟨_, Chain.step_setAuthority.mpr ⟨hfit, hb, hr, rfl⟩, ?_, ?_, ?_⟩
  · unfold Ledger.info
    rw [Chain.put_self]
    exact hb.overwrite (Nat.le_refl _) hfit
  · rw [Chain.put_self]
    have hall := overwrite_take_drop hfit
    rw [h33] at hall
    exact hall
  · unfold Ledger.info
    rw [Chain.put_self]
    exact overwrite_drop hfit (by rw [h33]; exact Nat.le_refl _)

end

end ClearSigning
