import ClearSigning.Spec
import Mathlib.Data.List.ReduceOption

/-!
# The resolved key table is the specified one

`resolve` succeeds exactly where every lookup is inside its table, and then its
keys and flags are those of the specification, whatever the header counts.
-/

namespace ClearSigning

open Exec

/-! ## Looking up -/

section
variable {indexes : MultisigMessageAddressTableLookup → List UInt8}
  {lookups : List (MultisigMessageAddressTableLookup × List Pubkey)}

theorem lookedUp_length : (lookedUp indexes lookups).length = (lookups.map fun p => (indexes p.1).length).sum := by
  unfold lookedUp
  rw [List.length_flatMap]
  simp only [List.length_map]

theorem lookedUp_isSome_iff : (∀ k ∈ lookedUp indexes lookups, k.isSome) ↔
    ∀ p ∈ lookups, ∀ i ∈ indexes p.1, i.toNat < p.2.length := by
  unfold lookedUp
  simp only [List.forall_mem_flatMap, List.forall_mem_map, isSome_getElem?]

end

/-! ## The loading loops -/

theorem reduceOption_map_some {α : Type} {l : List (Option α)} (h : ∀ x ∈ l, x.isSome) :
    l.reduceOption.map some = l := by
  induction l with
  | nil => rfl
  | cons x l ih =>
    rw [List.forall_mem_cons] at h
    obtain ⟨a, rfl⟩ := Option.isSome_iff_exists.mp h.1
    rw [List.reduceOption_cons_of_some, List.map_cons, ih h.2]

namespace AccountKeys

theorem pushLookups_eq (indexes : MultisigMessageAddressTableLookup → List UInt8)
    (lookups : List (MultisigMessageAddressTableLookup × List Pubkey)) (keys : List Pubkey) :
    pushLookups indexes lookups keys =
      if (lookedUp indexes lookups).all Option.isSome then
        .ok (keys ++ (lookedUp indexes lookups).reduceOption)
      else fail .lookupTableIndexOutOfBounds := by
  induction lookups generalizing keys with
  | nil => simp [pushLookups, lookedUp]
  | cons p lookups ih =>
    obtain ⟨l, table⟩ := p
    have hpush := foldlM_push (fun i : UInt8 => table[i.toNat]?) ClearSigningError.lookupTableIndexOutOfBounds
      (indexes l) keys
    have hcons : pushLookups indexes ((l, table) :: lookups) keys =
        ((indexes l).foldlM (fun keys i => okOr table[i.toNat]? .lookupTableIndexOutOfBounds >>= fun k =>
          .ok (keys ++ [k])) keys >>= fun keys => pushLookups indexes lookups keys) := by
      unfold pushLookups; rw [List.foldlM_cons]; rfl
    rw [hcons, hpush]
    by_cases h : ∀ i ∈ indexes l, (table[i.toNat]?).isSome
    · rw [if_pos h, ok_bind, ih]
      have hr : (lookedUp indexes ((l, table) :: lookups)).reduceOption =
          (indexes l).filterMap (fun i => table[i.toNat]?) ++ (lookedUp indexes lookups).reduceOption := by
        simp only [lookedUp, List.flatMap_cons, List.reduceOption, List.filterMap_append, List.filterMap_map]
        rfl
      have hall : (lookedUp indexes ((l, table) :: lookups)).all Option.isSome =
          (lookedUp indexes lookups).all Option.isSome := by
        have hl : ((indexes l).map fun i => table[i.toNat]?).all Option.isSome = true := by
          rw [List.all_map, List.all_eq_true]
          exact h
        simp only [lookedUp, List.flatMap_cons, List.all_append, hl, Bool.true_and]
      simp only [hr, hall, List.append_assoc]
    · rw [if_neg h, fail_bind, if_neg]
      simp only [lookedUp, List.flatMap_cons, List.all_append, Bool.and_eq_true, List.all_map, List.all_eq_true]
      intro hk
      exact h hk.1

/-! ## Resolution -/

/-- The key table that `resolve` builds where it succeeds. -/
def resolved (message : VaultTransactionMessage) (tables : List (List Pubkey)) : AccountKeys where
  keys := (keyTable message tables).reduceOption
  numStatic := message.accountKeys.length
  numLoadedWritable := (loadedWritable message tables).length
  numSigners := message.numSigners.toNat
  numWritableSigners := message.numWritableSigners.toNat
  numWritableNonSigners := message.numWritableNonSigners.toNat

theorem resolve_eq (message : VaultTransactionMessage) (tables : List (List Pubkey)) :
    resolve message tables =
      if tables.length = message.addressTableLookups.length then
        if (keyTable message tables).all Option.isSome then .ok (resolved message tables)
        else fail .lookupTableIndexOutOfBounds
      else fail .lookupTableCountMismatch := by
  unfold resolve
  rw [require_bind]
  split
  · simp only [pushLookups_eq]
    have hkeys : (keyTable message tables).all Option.isSome =
        ((loadedWritable message tables).all Option.isSome && (loadedReadonly message tables).all Option.isSome) := by
      simp [keyTable, List.all_append]
    rw [hkeys]
    by_cases hw : (loadedWritable message tables).all Option.isSome
    · have hlen : (loadedWritable message tables).reduceOption.length = (loadedWritable message tables).length := by
        rw [← List.length_map (f := some), reduceOption_map_some (List.all_eq_true.mp hw)]
      rw [hw, Bool.true_and]
      unfold loadedWritable at hw
      rw [if_pos hw, ok_bind, subUsize_of_le (by simp), ok_bind]
      by_cases hr : (loadedReadonly message tables).all Option.isSome
      · rw [hr, if_pos rfl]
        unfold loadedReadonly at hr
        rw [if_pos hr, ok_bind, pure_eq]
        congr 1
        unfold resolved
        congr 1
        · simp [keyTable, loadedWritable, loadedReadonly, List.reduceOption, List.filterMap_map]
        · rw [List.length_append, Nat.add_sub_cancel_left]; exact hlen
      · rw [Bool.eq_false_of_not_eq_true hr]
        unfold loadedReadonly at hr
        rw [if_neg hr, fail_bind]
        rfl
    · rw [Bool.eq_false_of_not_eq_true hw, Bool.false_and]
      unfold loadedWritable at hw
      rw [if_neg hw, fail_bind]
      rfl
  · rfl

theorem resolve_eq_ok {message : VaultTransactionMessage} {tables : List (List Pubkey)} {k : AccountKeys} :
    resolve message tables = .ok k ↔ (tables.length = message.addressTableLookups.length ∧
      ∀ k ∈ keyTable message tables, k.isSome) ∧ k = resolved message tables := by
  rw [resolve_eq, ← List.all_eq_true]
  by_cases hl : tables.length = message.addressTableLookups.length
  · by_cases hk : (keyTable message tables).all Option.isSome
    · rw [if_pos hl, if_pos hk]
      refine ⟨fun h => ?_, fun h => by rw [h.2]⟩
      cases h
      exact ⟨⟨hl, hk⟩, rfl⟩
    · rw [if_pos hl, if_neg hk]
      exact ⟨fun h => absurd h (fail_ne_ok _ _), fun h => absurd h.1.2 hk⟩
  · rw [if_neg hl]
    exact ⟨fun h => absurd h (fail_ne_ok _ _), fun h => absurd h.1.1 hl⟩

/-! ## Flags -/

/-- `isWritable` without its subtractions' guards. -/
def writable (k : AccountKeys) (i : Nat) : Bool :=
  if i < k.numStatic then
    decide (i < k.numWritableSigners) ||
      (decide (k.numSigners ≤ i) && decide (i - k.numSigners < k.numWritableNonSigners))
  else decide (i - k.numStatic < k.numLoadedWritable)

theorem isWritable_eq (k : AccountKeys) (i : Nat) : k.isWritable i = .ok (k.writable i) := by
  unfold isWritable writable
  by_cases hs : i < k.numStatic
  · by_cases hw : i < k.numWritableSigners
    · simp [hs, hw]
    · by_cases hn : i ≥ k.numSigners
      · simp [hs, hw, hn, subUsize_of_le hn]
      · simp [hs, hw, hn]
  · simp [hs, subUsize_of_le (Nat.le_of_not_lt hs)]

theorem resolved_writable (message : VaultTransactionMessage) (tables : List (List Pubkey)) (i : Nat) :
    (resolved message tables).writable i = writableAt message tables i := by
  unfold writable writableAt VaultTransactionMessage.isStaticWritableIndex resolved
  by_cases hs : i < message.accountKeys.length
  · have hs' : ¬message.accountKeys.length ≤ i := Nat.not_le.mpr hs
    by_cases hw : i < message.numWritableSigners.toNat
    · simp [hs, hs', hw]
    · by_cases hn : message.numSigners.toNat ≤ i
      · simp [hs, hs', hw, hn]
      · simp [hs, hs', hw, hn]
  · have hs' : message.accountKeys.length ≤ i := Nat.le_of_not_lt hs
    simp only [hs, if_false, ge_iff_le, hs', if_true, Bool.false_or, decide_true, Bool.true_and, decide_eq_decide]
    omega

theorem resolved_get {message : VaultTransactionMessage} {tables : List (List Pubkey)}
    (h : ∀ k ∈ keyTable message tables, k.isSome) (i : Nat) :
    (resolved message tables).keys[i]? = (keyTable message tables)[i]?.join := by
  have hk : (keyTable message tables)[i]? = (resolved message tables).keys[i]?.map some := by
    rw [← List.getElem?_map]; unfold resolved; rw [reduceOption_map_some h]
  rw [hk]
  cases (resolved message tables).keys[i]? <;> rfl

end AccountKeys

end ClearSigning
