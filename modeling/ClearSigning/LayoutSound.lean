import ClearSigning.Squads

/-!
# The stored vault transaction's format is exact

`deserializeChecked` accepts the discriminator followed by an encoding and any
tail, and nothing else (`deserializeChecked_eq_ok`). What can be encoded is a
transaction whose vectors fit their counts.
-/

namespace ClearSigning

open Exec

/-! ## Layouts, and what has one -/

def MultisigCompiledInstruction.Sized (x : MultisigCompiledInstruction) : Prop :=
  x.accountIndexes.length < 2 ^ 32 ∧ x.data.length < 2 ^ 32

def MultisigCompiledInstruction.layout (x : MultisigCompiledInstruction) : Bytes :=
  [x.programIdIndex] ++ ((leBytes 4 x.accountIndexes.length ++ x.accountIndexes) ++
    (leBytes 4 x.data.length ++ x.data))

def MultisigMessageAddressTableLookup.Sized (x : MultisigMessageAddressTableLookup) : Prop :=
  x.writableIndexes.length < 2 ^ 32 ∧ x.readonlyIndexes.length < 2 ^ 32

def MultisigMessageAddressTableLookup.layout (x : MultisigMessageAddressTableLookup) : Bytes :=
  x.accountKey.toList ++ ((leBytes 4 x.writableIndexes.length ++ x.writableIndexes) ++
    (leBytes 4 x.readonlyIndexes.length ++ x.readonlyIndexes))

structure VaultTransactionMessage.Sized (m : VaultTransactionMessage) : Prop where
  accountKeys : m.accountKeys.length < 2 ^ 32
  instructions : m.instructions.length < 2 ^ 32
  instruction : ∀ ix ∈ m.instructions, ix.Sized
  addressTableLookups : m.addressTableLookups.length < 2 ^ 32
  addressTableLookup : ∀ l ∈ m.addressTableLookups, l.Sized

def VaultTransactionMessage.layout (m : VaultTransactionMessage) : Bytes :=
  [m.numSigners] ++ ([m.numWritableSigners] ++ ([m.numWritableNonSigners] ++
    ((leBytes 4 m.accountKeys.length ++ m.accountKeys.flatMap List.Vector.toList) ++
      ((leBytes 4 m.instructions.length ++ m.instructions.flatMap MultisigCompiledInstruction.layout) ++
        (leBytes 4 m.addressTableLookups.length ++
          m.addressTableLookups.flatMap MultisigMessageAddressTableLookup.layout)))))

/-- Every vector is shorter than `2 ^ 32`. -/
structure VaultTransaction.Sized (tx : VaultTransaction) : Prop where
  ephemeralSignerBumps : tx.ephemeralSignerBumps.length < 2 ^ 32
  message : tx.message.Sized

def VaultTransaction.layout (tx : VaultTransaction) : Bytes :=
  tx.multisig.toList ++ (tx.creator.toList ++ (leBytes 8 tx.index.toNat ++ ([tx.bump] ++ ([tx.vaultIndex] ++
    ([tx.vaultBump] ++ ((leBytes 4 tx.ephemeralSignerBumps.length ++ tx.ephemeralSignerBumps) ++
      tx.message.layout))))))

theorem MultisigCompiledInstruction.writes : MultisigCompiledInstruction.borsh.Writes Sized layout :=
  ((Codec.u8_writes.seq (Codec.u8Vec_writes.seq Codec.u8Vec_writes)).map _).congr
    (fun _ => ⟨fun h => ⟨trivial, h⟩, fun h => h.2⟩) fun _ => rfl

theorem MultisigMessageAddressTableLookup.writes :
    MultisigMessageAddressTableLookup.borsh.Writes Sized layout :=
  (((Codec.raw_writes 32).seq (Codec.u8Vec_writes.seq Codec.u8Vec_writes)).map _).congr
    (fun _ => ⟨fun h => ⟨trivial, h⟩, fun h => h.2⟩) fun _ => rfl

theorem VaultTransactionMessage.writes : VaultTransactionMessage.borsh.Writes Sized layout := by
  refine ((Codec.u8_writes.seq (Codec.u8_writes.seq (Codec.u8_writes.seq ((Codec.raw_writes 32).vec.seq
    (MultisigCompiledInstruction.writes.vec.seq MultisigMessageAddressTableLookup.writes.vec))))).map _).congr
    (fun m => ⟨fun h => ?_, fun h => ?_⟩) fun _ => rfl
  · exact ⟨trivial, trivial, trivial, ⟨h.accountKeys, fun _ _ => trivial⟩, ⟨h.instructions, h.instruction⟩,
      h.addressTableLookups, h.addressTableLookup⟩
  · obtain ⟨-, -, -, ⟨hk, -⟩, ⟨hi, hi'⟩, hl, hl'⟩ := h
    exact ⟨hk, hi, hi', hl, hl'⟩

namespace VaultTransaction

theorem writes : borsh.Writes Sized layout := by
  refine (((Codec.raw_writes 32).seq ((Codec.raw_writes 32).seq (Codec.u64_writes.seq (Codec.u8_writes.seq
    (Codec.u8_writes.seq (Codec.u8_writes.seq (Codec.u8Vec_writes.seq
      VaultTransactionMessage.writes))))))).map _).congr (fun tx => ⟨fun h => ?_, fun h => ?_⟩) fun _ => rfl
  · exact ⟨trivial, trivial, trivial, trivial, trivial, trivial, h.ephemeralSignerBumps, h.message⟩
  · obtain ⟨-, -, -, -, -, -, he, hm⟩ := h
    exact ⟨he, hm⟩

theorem serialize_of_sized {tx : VaultTransaction} (h : tx.Sized) : tx.serialize = some tx.layout :=
  writes.enc h

/-! ## Acceptance -/

theorem serialize_ne_nil {tx : VaultTransaction} {e : Bytes} (h : tx.serialize = some e) : e ≠ [] := by
  intro he
  subst he
  have hd := borsh.dec_enc h []
  cases hd

theorem deserializeChecked_eq_ok {d : Bytes} {tx : VaultTransaction} :
    deserializeChecked d = .ok tx ↔
      ∃ e s, tx.serialize = some e ∧ d = vaultTransactionDiscriminator ++ e ++ s := by
  have h8 : vaultTransactionDiscriminator.length = 8 := rfl
  unfold deserializeChecked
  refine ⟨fun h => ?_, fun h => ?_⟩
  · obtain ⟨hl, h⟩ := require_bind_eq_ok.mp h
    rw [sliceTo_of_le (by omega), ok_bind] at h
    obtain ⟨hdisc, h⟩ := require_bind_eq_ok.mp h
    rw [sliceFrom_of_le (by omega), ok_bind] at h
    obtain ⟨⟨tx', s⟩, hr, rfl⟩ := Option.map_eq_some_iff.mp (okOr_eq_ok.mp h)
    obtain ⟨e, he, hs⟩ := borsh.enc_dec hr
    refine ⟨e, s, he, ?_⟩
    rw [List.append_assoc, ← hs, ← hdisc, List.take_append_drop]
  · obtain ⟨e, s, he, rfl⟩ := h
    have hpos := List.length_pos_iff.mpr (serialize_ne_nil he)
    have hl : (vaultTransactionDiscriminator ++ e ++ s).length > 8 := by
      simp only [List.length_append, h8]; omega
    have hd : borsh.dec (e ++ s) = some (tx, s) := borsh.dec_enc he s
    rw [require_pos hl, ok_bind, sliceTo_of_le (by omega), ok_bind, List.append_assoc, List.take_left' h8,
      require_pos rfl, ok_bind, sliceFrom_of_le (by simp [h8]), ok_bind, List.drop_left' h8, hd]
    rfl

end VaultTransaction

/-- The codec is exact: written values are read back in front of any tail, what is read was written,
an accepted account has one reading, and no proper prefix of an encoding is accepted. -/
theorem vaultTransaction_codec_exact :
    (∀ (tx : VaultTransaction) (s : Bytes), tx.Sized → ∃ e, tx.serialize = some e ∧
      VaultTransaction.deserializeChecked (vaultTransactionDiscriminator ++ e ++ s) = .ok tx) ∧
    (∀ (d : Bytes) (tx : VaultTransaction), VaultTransaction.deserializeChecked d = .ok tx →
      ∃ e s, tx.serialize = some e ∧ d = vaultTransactionDiscriminator ++ e ++ s) ∧
    (∀ (d : Bytes) (tx : VaultTransaction), VaultTransaction.deserializeChecked d = .ok tx →
      ∃! r : VaultTransaction × Bytes, ∃ e, r.1.serialize = some e ∧ d = vaultTransactionDiscriminator ++ e ++ r.2) ∧
    (∀ (tx : VaultTransaction) (e p : Bytes), tx.serialize = some e → p <+: vaultTransactionDiscriminator ++ e →
      p ≠ vaultTransactionDiscriminator ++ e → ∀ tx', VaultTransaction.deserializeChecked p ≠ .ok tx') := by
  refine ⟨fun tx s h => ?_, fun d tx h => VaultTransaction.deserializeChecked_eq_ok.mp h, fun d tx h => ?_,
    fun tx e p he hp hne tx' h => ?_⟩
  · have he := VaultTransaction.serialize_of_sized h
    refine ⟨tx.layout, he, ?_⟩
    apply VaultTransaction.deserializeChecked_eq_ok.mpr
    exact ⟨tx.layout, s, he, rfl⟩
  · obtain ⟨e, s, he, rfl⟩ := VaultTransaction.deserializeChecked_eq_ok.mp h
    refine ⟨(tx, s), ⟨e, he, rfl⟩, fun r hr => ?_⟩
    obtain ⟨e', he', hd⟩ := hr
    rw [List.append_assoc, List.append_assoc] at hd
    have hu := VaultTransaction.borsh.read_unique he he' (List.append_cancel_left hd)
    exact Prod.ext hu.1.symm hu.2.symm
  · obtain ⟨e', s, he', rfl⟩ := VaultTransaction.deserializeChecked_eq_ok.mp h
    -- an accepted prefix holds a whole encoding of its own
    rw [List.append_assoc] at hp hne
    have hp' : e' ++ s <+: e := (List.prefix_append_right_inj _).mp hp
    have hnone := VaultTransaction.borsh.dec_prefix he hp' fun heq => hne (by rw [heq])
    rw [VaultTransaction.borsh.dec_enc he' s] at hnone
    cases hnone

end ClearSigning
