import ClearSigning.KeysSound

/-!
# The six segments of the key table

Under a well-formed header the resolved table is the static keys in four
segments, then the looked-up keys in two, and within a segment the flags do not
change. Without that condition the flags are still those of the message.
-/

namespace ClearSigning

open Exec

/-- What Squads guarantees of a header when the transaction is created. -/
structure VaultTransactionMessage.WellFormed (m : VaultTransactionMessage) : Prop where
  writableSigners : m.numWritableSigners.toNat ≤ m.numSigners.toNat
  signers : m.numSigners.toNat ≤ m.accountKeys.length
  writableNonSigners : m.numWritableNonSigners.toNat ≤ m.accountKeys.length - m.numSigners.toNat

/-- One lookup table for each lookup, and every index inside its own table. -/
def LookupsInRange (message : VaultTransactionMessage) (tables : List (List Pubkey)) : Prop :=
  tables.length = message.addressTableLookups.length ∧
    ∀ p ∈ message.addressTableLookups.zip tables,
      (∀ i ∈ p.1.writableIndexes, i.toNat < p.2.length) ∧ ∀ i ∈ p.1.readonlyIndexes, i.toNat < p.2.length

def segment (keys : List Pubkey) (isSigner isWritable : Bool) : List ExpectedAccountMeta :=
  keys.map fun pubkey => { pubkey, isSigner, isWritable }

/-- The segments in order; the looked-up keys are given. -/
def segments (message : VaultTransactionMessage) (writable readonly : List Pubkey) : List ExpectedAccountMeta :=
  let keys := message.accountKeys
  let numSigners := message.numSigners.toNat
  let numWritableSigners := message.numWritableSigners.toNat
  let numWritableNonSigners := message.numWritableNonSigners.toNat
  segment (keys.take numWritableSigners) true true ++
    segment ((keys.drop numWritableSigners).take (numSigners - numWritableSigners)) true false ++
    segment ((keys.drop numSigners).take numWritableNonSigners) false true ++
    segment (keys.drop (numSigners + numWritableNonSigners)) false false ++
    segment writable false true ++
    segment readonly false false

namespace AccountKeys

/-- `(get(i), is_signer(i), is_writable(i))` -/
def row (k : AccountKeys) (i : Nat) : Result ExpectedAccountMeta := do
  let pubkey ← k.get i
  let isWritable ← k.isWritable i
  return { pubkey, isSigner := k.isSigner i, isWritable }

section
variable {k : AccountKeys}

theorem get_of_lt {i : Nat} (h : i < k.keys.length) : k.get i = .ok k.keys[i] := by
  unfold get
  rw [List.getElem?_eq_getElem h, okOr_some]

theorem get_eq_fail {i : Nat} : (∃ e, k.get i = fail e) ↔ k.keys.length ≤ i := by
  refine ⟨fun h => ?_, fun h => ?_⟩
  · obtain ⟨e, he⟩ := h
    by_cases hi : i < k.keys.length
    · rw [get_of_lt hi] at he
      cases he
    · omega
  · refine ⟨.accountIndexOutOfBounds, ?_⟩
    unfold get
    rw [List.getElem?_eq_none h, okOr_none]

theorem rows_eq (k : AccountKeys) : (List.range k.keys.length).mapM k.row =
    .ok (k.keys.mapIdx fun i pubkey => { pubkey, isSigner := k.isSigner i, isWritable := k.writable i }) := by
  rw [mapM_eq_ok, List.forall₂_iff_get]
  refine ⟨by simp, fun i h₁ h₂ => ?_⟩
  have hi : i < k.keys.length := by simpa using h₁
  unfold row
  simp only [List.get_eq_getElem, List.getElem_range, List.getElem_mapIdx, get_of_lt hi, isWritable_eq, ok_bind,
    pure_eq]

end

/-! ## Resolution -/

section
variable {message : VaultTransactionMessage} {tables : List (List Pubkey)} {k : AccountKeys}

theorem exists_resolve : (∃ k, resolve message tables = .ok k) ↔ LookupsInRange message tables := by
  simp only [resolve_eq_ok, exists_and_left, exists_eq, and_true]
  unfold LookupsInRange keyTable loadedWritable loadedReadonly
  simp only [List.forall_mem_append, List.forall_mem_map, Option.isSome_some, implies_true, true_and,
    lookedUp_isSome_iff, forall_and]

theorem resolve_keys (h : resolve message tables = .ok k) : ∃ writable readonly : List Pubkey,
    loadedWritable message tables = writable.map some ∧ loadedReadonly message tables = readonly.map some ∧
      k.keys = message.accountKeys ++ writable ++ readonly := by
  obtain ⟨⟨-, hall⟩, rfl⟩ := resolve_eq_ok.mp h
  have hparts := hall
  unfold keyTable at hparts
  simp only [List.forall_mem_append] at hparts
  obtain ⟨⟨-, hw⟩, hr⟩ := hparts
  refine ⟨_, _, (reduceOption_map_some hw).symm, (reduceOption_map_some hr).symm, ?_⟩
  apply List.map_injective_iff.mpr (Option.some_injective Pubkey)
  unfold resolved
  simp only [List.map_append, reduceOption_map_some hall, reduceOption_map_some hw, reduceOption_map_some hr]
  rfl

end

end AccountKeys

/-! ## The segments -/

section
variable {f : Nat → Pubkey → ExpectedAccountMeta} {keys keys' : List Pubkey} {isSigner isWritable : Bool}

theorem mapIdx_eq_segment (h : ∀ i < keys.length, ∀ pubkey, f i pubkey = { pubkey, isSigner, isWritable }) :
    keys.mapIdx f = segment keys isSigner isWritable := by
  unfold segment
  apply List.ext_getElem
  · rw [List.length_mapIdx, List.length_map]
  · intro i h₁ h₂
    rw [List.getElem_mapIdx, List.getElem_map]
    exact h i (by simpa using h₁) _

theorem mapIdx_append_segment {rows : List ExpectedAccountMeta} (hrows : keys.mapIdx f = rows)
    (h : ∀ i < keys'.length, ∀ pubkey, f (i + keys.length) pubkey = { pubkey, isSigner, isWritable }) :
    (keys ++ keys').mapIdx f = rows ++ segment keys' isSigner isWritable := by
  rw [List.mapIdx_append, hrows, mapIdx_eq_segment h]

end

section
variable {message : VaultTransactionMessage} {tables : List (List Pubkey)}

/-- Writable: a static key of the two writable segments, or one of the first looked-up keys. -/
theorem writable_resolved (i : Nat) : (AccountKeys.resolved message tables).writable i =
    decide (i < message.accountKeys.length ∧ (i < message.numWritableSigners.toNat ∨
        message.numSigners.toNat ≤ i ∧ i < message.numSigners.toNat + message.numWritableNonSigners.toNat) ∨
      message.accountKeys.length ≤ i ∧
        i < message.accountKeys.length + (loadedWritable message tables).length) := by
  unfold AccountKeys.writable AccountKeys.resolved
  rw [Bool.eq_iff_iff, decide_eq_true_iff]
  by_cases hs : i < message.accountKeys.length
  · simp only [hs, if_true, Bool.or_eq_true, Bool.and_eq_true, decide_eq_true_iff, true_and]
    omega
  · simp only [hs, if_false, decide_eq_true_iff, false_and, false_or]
    omega

theorem static_segments (h : message.WellFormed) : message.accountKeys.take message.numWritableSigners.toNat ++
      (message.accountKeys.drop message.numWritableSigners.toNat).take
        (message.numSigners.toNat - message.numWritableSigners.toNat) ++
      (message.accountKeys.drop message.numSigners.toNat).take message.numWritableNonSigners.toNat ++
      message.accountKeys.drop (message.numSigners.toNat + message.numWritableNonSigners.toNat) =
    message.accountKeys := by
  rw [← List.take_add, Nat.add_sub_cancel' h.writableSigners, ← List.take_add, List.take_append_drop]

theorem rows_segments {k : AccountKeys} (hk : AccountKeys.resolve message tables = .ok k) (h : message.WellFormed)
    {writable readonly : List Pubkey} (hw : loadedWritable message tables = writable.map some)
    (hkeys : k.keys = message.accountKeys ++ writable ++ readonly) :
    (List.range k.keys.length).mapM k.row = .ok (segments message writable readonly) := by
  obtain ⟨-, rfl⟩ := AccountKeys.resolve_eq_ok.mp hk
  have hlen : (loadedWritable message tables).length = writable.length := by rw [hw, List.length_map]
  have hsigner : ∀ i, (AccountKeys.resolved message tables).isSigner i = decide (i < message.numSigners.toNat) :=
    fun _ => rfl
  rw [AccountKeys.rows_eq, hkeys, ← static_segments h]
  obtain ⟨hws, hs, hwn⟩ := h
  congr 1
  simp only [hsigner, writable_resolved, hlen]
  -- the first key of each segment stands at the total length of the segments before it
  apply mapIdx_append_segment
  · apply mapIdx_append_segment
    · apply mapIdx_append_segment
      · apply mapIdx_append_segment
        · apply mapIdx_append_segment
          · apply mapIdx_eq_segment
            intro i hi pubkey
            rw [List.length_take] at hi
            rw [decide_eq_true (by omega), decide_eq_true (by omega)]
          · intro i hi pubkey
            simp only [List.length_take, List.length_drop] at hi ⊢
            rw [decide_eq_true (by omega), decide_eq_false (by omega)]
        · intro i hi pubkey
          simp only [List.length_append, List.length_take, List.length_drop] at hi ⊢
          rw [decide_eq_false (by omega), decide_eq_true (by omega)]
      · intro i hi pubkey
        simp only [List.length_append, List.length_take, List.length_drop] at hi ⊢
        rw [decide_eq_false (by omega), decide_eq_false (by omega)]
    · intro i hi pubkey
      simp only [List.length_append, List.length_take, List.length_drop] at hi ⊢
      rw [decide_eq_false (by omega), decide_eq_true (by omega)]
  · intro i hi pubkey
    simp only [List.length_append, List.length_take, List.length_drop] at hi ⊢
    rw [decide_eq_false (by omega), decide_eq_false (by omega)]

end

/-- Resolution succeeds exactly where the lookups are in range; under a well-formed header the rows of the
table are the six segments in order, and `get` fails exactly past its end. -/
theorem accountKeys_segments (message : VaultTransactionMessage) (tables : List (List Pubkey)) :
    ((∃ k, AccountKeys.resolve message tables = .ok k) ↔ LookupsInRange message tables) ∧
    (∀ k, AccountKeys.resolve message tables = .ok k → message.WellFormed →
      ∃ writable readonly : List Pubkey, loadedWritable message tables = writable.map some ∧
        loadedReadonly message tables = readonly.map some ∧
        (List.range k.keys.length).mapM k.row = .ok (segments message writable readonly)) ∧
    (∀ k, AccountKeys.resolve message tables = .ok k → ∀ i, (∃ e, k.get i = fail e) ↔ k.keys.length ≤ i) := by
  refine ⟨AccountKeys.exists_resolve, fun k hk h => ?_, fun k _ i => AccountKeys.get_eq_fail⟩
  obtain ⟨writable, readonly, hw, hr, hkeys⟩ := AccountKeys.resolve_keys hk
  exact ⟨writable, readonly, hw, hr, rows_segments hk h hw hkeys⟩

/-! ## The flags under any header -/

theorem loadedWritable_length {message : VaultTransactionMessage} {tables : List (List Pubkey)}
    (h : tables.length = message.addressTableLookups.length) :
    (loadedWritable message tables).length =
      (message.addressTableLookups.map fun l => l.writableIndexes.length).sum := by
  have hfst : (message.addressTableLookups.zip tables).map Prod.fst = message.addressTableLookups := by
    rw [List.map_fst_zip (by omega)]
  unfold loadedWritable
  rw [lookedUp_length, ← hfst, List.map_map]
  simp only [hfst]
  rfl

/-- The flags of a resolved table are the message's own, whether its header is consistent or not. -/
theorem resolve_flags_agree {message : VaultTransactionMessage} {tables : List (List Pubkey)} {k : AccountKeys}
    (h : AccountKeys.resolve message tables = .ok k) (i : Nat) :
    k.isSigner i = message.isSignerIndex i ∧
    ∃ w, k.isWritable i = .ok w ∧ (w = true ↔ message.isStaticWritableIndex i = true ∨
      message.accountKeys.length ≤ i ∧
        i < message.accountKeys.length + (message.addressTableLookups.map fun l => l.writableIndexes.length).sum) := by
  obtain ⟨⟨hlen, -⟩, rfl⟩ := AccountKeys.resolve_eq_ok.mp h
  refine ⟨rfl, _, AccountKeys.isWritable_eq _ i, ?_⟩
  rw [AccountKeys.resolved_writable, writableAt, loadedWritable_length hlen]
  simp only [Bool.or_eq_true, Bool.and_eq_true, decide_eq_true_iff]

/-- A header that counts more writable signers than signers, and more signers than keys. -/
theorem transfer_flags : ∃ k, AccountKeys.resolve { Transfer.message with numSigners := 3, numWritableSigners := 5 }
    [[Transfer.recipient]] = .ok k ∧ k.isSigner 2 = true ∧ ∃ w, k.isWritable 2 = .ok w ∧ w = true := by
  have h : AccountKeys.resolve { Transfer.message with numSigners := 3, numWritableSigners := 5 }
      [[Transfer.recipient]] = .ok (AccountKeys.resolved
        { Transfer.message with numSigners := 3, numWritableSigners := 5 } [[Transfer.recipient]]) := by
    decide +kernel
  obtain ⟨hs, w, hw, hiff⟩ := resolve_flags_agree h 2
  refine ⟨_, h, hs, w, hw, hiff.mpr ?_⟩
  exact Or.inr (by decide)

end ClearSigning
