import ClearSigning.Loader

/-!
# A verified hash and the build deployed later

The check reads the program bytes and skips the authority in front of them. With
the vault recorded, nothing can change the buffer before the upgrade and the
hash holds of what is deployed. With another authority recorded, that authority
can write after the check and hand the buffer over to the vault.
-/

namespace ClearSigning

open Exec

/-- A loader buffer whose program bytes, trimmed, have the hash `h`. -/
def Holds (rt : Runtime) (account : AccountInfo) (h : String) : Prop :=
  IsBuffer account ∧ ∃ p, Trimmed account.program p ∧ h = hexString (rt.sha256 p).toList

theorem Chain.verified_iff {rt : Runtime} {s : Chain} {args : VerifyBufferHashArgs} :
    s.Verified rt args ↔ Holds rt (s.ledger.info args.buffer) args.expectedHash := by
  obtain ⟨p, hp⟩ := exists_trimmed (s.ledger.info args.buffer).program
  have h := @verifyBufferHash_eq_ok rt ⟨⟨s.ledger.info args.buffer⟩, []⟩ args p hp
  refine ⟨fun hv => ?_, fun ⟨hb, p', hp', hh⟩ => ?_⟩
  · obtain ⟨-, hb, hh⟩ := h.mp hv
    exact ⟨hb, p, hp, hh⟩
  · rw [← trimmed_unique hp hp'] at hh
    apply h.mpr
    exact ⟨rfl, hb, hh⟩

def VaultOnlyUpgrades (vault : Pubkey) (l : List Action) : Prop := ∀ a ∈ l, a.signer? ≠ some vault

/-- In the run `l` from `s`, what is upgraded from a buffer after `verify_buffer_hash` accepted it has the
hash that was accepted. -/
def HashPinned (rt : Runtime) (vault : Pubkey) (s : Chain) (l : List Action) : Prop :=
  ∀ pre args mid post s₁ s₂ s₃, l = pre ++ .verify args :: (mid ++ .upgrade args.buffer :: post) →
    Trace.run (Chain.step vault) s pre = some s₁ → s₁.Verified rt args →
    Trace.run (Chain.step vault) s₁ (.verify args :: mid) = some s₂ →
    s₂.step vault (.upgrade args.buffer) = some s₃ →
    ∀ p, Trimmed s₃.deployed p → args.expectedHash = hexString (rt.sha256 p).toList

/-- Wherever a hash is checked that the buffer has, the buffer records no authority but the vault. -/
def HeldByVault (rt : Runtime) (vault : Pubkey) (s : Chain) (l : List Action) : Prop :=
  ∀ pre args post s₁, l = pre ++ .verify args :: post → Trace.run (Chain.step vault) s pre = some s₁ →
    Holds rt (s₁.ledger.info args.buffer) args.expectedHash →
    ∀ authority, Records (s₁.ledger args.buffer).data.toList authority → authority = vault

section
variable {rt : Runtime} {vault : Pubkey}

theorem buffer_frozen {s t : Chain} {buffer : Pubkey} {l : List Action}
    (hheld : ∀ authority, Records (s.ledger buffer).data.toList authority → authority = vault)
    (hl : VaultOnlyUpgrades vault l) (h : Trace.run (Chain.step vault) s l = some t) :
    t.ledger buffer = s.ledger buffer := by
  have hstep : ∀ {u a v}, (∀ authority, Records (u.ledger buffer).data.toList authority → authority = vault) →
      a.signer? ≠ some vault → Chain.step vault u a = some v → v.ledger buffer = u.ledger buffer := by
    intro u a v hu ha hv
    apply Chain.step_frame _ hv
    intro signer hs hr
    exact ha (hu signer hr ▸ hs)
  exact Trace.run_frozen (f := fun c : Chain => c.ledger buffer)
    (F := fun account => ∀ authority, Records account.data.toList authority → authority = vault)
    hstep hheld hl h

theorem held_pinned {s : Chain} {l : List Action} (hl : VaultOnlyUpgrades vault l)
    (hheld : HeldByVault rt vault s l) : HashPinned rt vault s l := by
  intro pre args mid post s₁ s₂ s₃ hs h₁ hver h₂ h₃ p hp
  have hholds := Chain.verified_iff.mp hver
  have hauth := hheld pre args _ s₁ hs h₁ hholds
  have hmid : VaultOnlyUpgrades vault (.verify args :: mid) := by
    intro a ha
    apply hl
    rw [hs]
    simp only [List.mem_append, List.mem_cons] at ha ⊢
    tauto
  have hsame := buffer_frozen hauth hmid h₂
  obtain ⟨-, rfl⟩ := Chain.step_upgrade.mp h₃
  obtain ⟨-, q, hq, hh⟩ := hholds
  have hprog : (s₂.ledger.info args.buffer).program = (s₁.ledger.info args.buffer).program := by
    unfold Ledger.info; rw [hsame]
  have hp' : Trimmed (s₁.ledger.info args.buffer).program p := hprog ▸ hp
  rw [hh, trimmed_unique hp' hq]

/-- After an accepted check, an authority writes other bytes and hands the buffer over. -/
theorem not_pinned {s : Chain} {args : VerifyBufferHashArgs} {authority : Pubkey} {bytes p : Bytes}
    (hholds : Holds rt (s.ledger.info args.buffer) args.expectedHash)
    (hr : Records (s.ledger args.buffer).data.toList authority)
    (hlen : bytes.length = (s.ledger.info args.buffer).program.length) (hp : Trimmed bytes p)
    (hne : args.expectedHash ≠ hexString (rt.sha256 p).toList) :
    ¬HashPinned rt vault s [.verify args, .write authority args.buffer 0 bytes,
      .setAuthority authority args.buffer (some vault), .upgrade args.buffer] := by
  intro hpin
  obtain ⟨s₁, h₁, hb₁, hr₁, hprog₁⟩ := @Chain.can_write vault s _ _ hholds.1 hr _ hlen
  obtain ⟨s₂, h₂, hb₂, hr₂, hprog₂⟩ := @Chain.can_hand_over vault s₁ _ _ hb₁ hr₁ vault
  have hrun : Trace.run (Chain.step vault) s [.verify args, .write authority args.buffer 0 bytes,
      .setAuthority authority args.buffer (some vault)] = some s₂ := by
    simp only [Trace.run_cons, Trace.run_nil, Option.some.injEq]
    exact ⟨s, rfl, s₁, h₁, s₂, h₂, rfl⟩
  have hver := Chain.verified_iff.mpr hholds
  have hupg := Chain.step_upgrade.mpr ⟨⟨hb₂, hr₂⟩, rfl⟩
  have hdep : Trimmed (s₂.ledger.info args.buffer).program p := by
    rw [hprog₂, hprog₁]; exact hp
  exact hne (hpin [] args _ [] s s₂ _ rfl rfl hver hrun hupg p hdep)

end

/-- A hash accepted while the buffer records no authority but the vault is the hash of whatever is upgraded
from it; and accepted while it records another one, some run of that authority's deploys any other bytes. -/
theorem verifyBufferHash_pins (rt : Runtime) (vault : Pubkey) :
    (∀ s l, VaultOnlyUpgrades vault l → HeldByVault rt vault s l → HashPinned rt vault s l) ∧
    (∀ (s : Chain) (args : VerifyBufferHashArgs) (authority : Pubkey) (bytes p : Bytes),
      Holds rt (s.ledger.info args.buffer) args.expectedHash →
      Records (s.ledger args.buffer).data.toList authority → authority ≠ vault →
      bytes.length = (s.ledger.info args.buffer).program.length → Trimmed bytes p →
      args.expectedHash ≠ hexString (rt.sha256 p).toList →
      ∃ l, VaultOnlyUpgrades vault (.verify args :: l) ∧ ¬HashPinned rt vault s (.verify args :: l)) := by
  refine ⟨fun s l hl hheld => held_pinned hl hheld, fun s args authority bytes p hholds hr hne hlen hp hh => ?_⟩
  refine ⟨_, ?_, not_pinned hholds hr hlen hp hh⟩
  intro a ha
  simp only [List.mem_cons, List.not_mem_nil, or_false] at ha
  rcases ha with rfl | rfl | rfl | rfl <;> simp [Action.signer?, hne]

/-! ## A run that deploys another build -/

/-- The digests of the one-byte builds `[1]` and `[2]`. -/
def twoDigests (b : Bytes) : List.Vector UInt8 32 :=
  if b = [1] then
    ⟨[0x4b, 0xf5, 0x12, 0x2f, 0x34, 0x45, 0x54, 0xc5, 0x3b, 0xde, 0x2e, 0xbb, 0x8c, 0xd2, 0xb7, 0xe3,
      0xd1, 0x60, 0x0a, 0xd6, 0x31, 0xc3, 0x85, 0xa5, 0xd7, 0xcc, 0xe2, 0x3c, 0x77, 0x85, 0x45, 0x9a], rfl⟩
  else
    ⟨[0xdb, 0xc1, 0xb4, 0xc9, 0x00, 0xff, 0xe4, 0x8d, 0x57, 0x5b, 0x5d, 0xa5, 0xc6, 0x38, 0x04, 0x01,
      0x25, 0xf6, 0x5d, 0xb0, 0xfe, 0x3e, 0x24, 0x49, 0x4b, 0x76, 0xea, 0x98, 0x64, 0x57, 0xd9, 0x86], rfl⟩

def twoDigestsRuntime : Runtime where
  findProgramAddress _ _ := (List.Vector.replicate 32 0, 255)
  loadInstructionAtChecked _ _ := none
  sha256 := twoDigests

def deployer : Pubkey := List.Vector.replicate 32 1

def vaultKey : Pubkey := List.Vector.replicate 32 2

def bufferKey : Pubkey := List.Vector.replicate 32 3

/-- A buffer holding the build `[1]`, still under the deployer's authority. -/
def stagedBuffer : AccountState where
  owner := bpfLoaderUpgradeableId
  data := ⟨leBytes 4 1 ++ encodeAuthority (some deployer) ++ [1], by decide⟩

def staged : Chain where
  ledger _ := stagedBuffer
  deployed := []

def reviewedHash : VerifyBufferHashArgs where
  buffer := bufferKey
  expectedHash := "4bf5122f344554c53bde2ebb8cd2b7e3d1600ad631c385a5d7cce23c7785459a"

def deployerRun : List Action :=
  [.verify reviewedHash, .write deployer bufferKey 0 [2], .setAuthority deployer bufferKey (some vaultKey),
    .upgrade bufferKey]

theorem deployerRun_not_pinned :
    VaultOnlyUpgrades vaultKey deployerRun ∧ ¬HashPinned twoDigestsRuntime vaultKey staged deployerRun := by
  have h1 : Trimmed [1] [1] := ⟨by decide, 0, rfl⟩
  have h2 : Trimmed [2] [2] := ⟨by decide, 0, rfl⟩
  have hholds : Holds twoDigestsRuntime (staged.ledger.info bufferKey) reviewedHash.expectedHash :=
    ⟨by decide +kernel, [1], h1, by decide +kernel⟩
  refine ⟨by unfold VaultOnlyUpgrades; decide +kernel, ?_⟩
  exact not_pinned hholds (by decide +kernel) (by decide +kernel) h2 (by decide +kernel)

end ClearSigning
