import ClearSigning.KeysSound

/-!
# Lookup tables: the format, and growing a table

A table account is accepted exactly where its tag is right and whole addresses
follow its meta. Growing it appends addresses, and what a message selects from
the old addresses it selects from the new ones.
-/

namespace ClearSigning

open Exec

/-! ## The format -/

theorem chunksExact_append {n : Nat} (hn : 0 < n) {c : Bytes} (hc : c.length = n) (l : Bytes) :
    chunksExact n (c ++ l) = c :: chunksExact n l := by
  unfold chunksExact
  rw [List.length_append, hc, Nat.add_div_left _ hn, List.range_succ_eq_map, List.map_cons, List.map_map]
  congr 1
  · rw [Nat.zero_mul, List.drop_zero, List.take_left' hc]
  · apply List.map_congr_left
    intro i _
    have hi : (i + 1) * n = c.length + i * n := by rw [hc, Nat.succ_mul, Nat.add_comm]
    rw [Function.comp_apply, Nat.succ_eq_add_one, hi, List.drop_length_add_append]

theorem mapM_toArray_chunks (ks : List Pubkey) :
    (chunksExact 32 (ks.flatMap List.Vector.toList)).mapM (toArray 32) = (.ok ks : Result (List Pubkey)) := by
  induction ks with
  | nil => rfl
  | cons k ks ih =>
    rw [List.flatMap_cons, chunksExact_append (by decide) k.toList_length, List.mapM_cons, ih,
      toArray_of_length k.toList_length]
    rfl

theorem exists_addresses {n : Nat} {a : Bytes} (h : a.length = 32 * n) :
    ∃ ks : List Pubkey, a = ks.flatMap List.Vector.toList := by
  induction n generalizing a with
  | zero => exact ⟨[], List.eq_nil_of_length_eq_zero h⟩
  | succ n ih =>
    have hdrop : (a.drop 32).length = 32 * n := by rw [List.length_drop]; omega
    obtain ⟨ks, hks⟩ := ih hdrop
    let k : Pubkey := ⟨a.take 32, List.length_take_of_le (by omega)⟩
    refine ⟨k :: ks, ?_⟩
    rw [List.flatMap_cons, ← hks]
    exact (List.take_append_drop 32 a).symm

theorem flatMap_toList_length (ks : List Pubkey) : (ks.flatMap List.Vector.toList).length = 32 * ks.length := by
  induction ks with
  | nil => rfl
  | cons k ks ih =>
    rw [List.flatMap_cons, List.length_append, k.toList_length, ih, List.length_cons]; omega

theorem parseLookupTableAddresses_eq_ok {d : Bytes} {ks : List Pubkey} :
    parseLookupTableAddresses d = .ok ks ↔
      lookupTableMetaSize ≤ d.length ∧ d.take 4 = leBytes 4 1 ∧
        d.drop lookupTableMetaSize = ks.flatMap List.Vector.toList := by
  unfold parseLookupTableAddresses
  rw [require_bind_eq_ok]
  refine and_congr_right fun hd => ?_
  have h56 : lookupTableMetaSize = 56 := rfl
  have h4 : (d.take 4).length = 4 := List.length_take_of_le (by omega)
  have htag : leNat (d.take 4) = 1 ↔ d.take 4 = leBytes 4 1 :=
    ⟨fun h => leNat_inj (by rw [h4]; rfl) (h.trans (by decide)), fun h => by rw [h]; decide⟩
  rw [u32FromLeBytes_slice_bind (by omega), require_bind_eq_ok, htag]
  refine and_congr_right fun _ => ?_
  rw [sliceFrom_of_le hd, ok_bind, require_bind_eq_ok]
  refine ⟨fun ⟨hm, h⟩ => ?_, fun h => ?_⟩
  · obtain ⟨ks', hks'⟩ := exists_addresses (Nat.eq_mul_of_div_eq_right (Nat.dvd_of_mod_eq_zero hm) rfl)
    rw [hks', mapM_toArray_chunks] at h
    cases h
    exact hks'
  · rw [h, flatMap_toList_length, mapM_toArray_chunks]
    exact ⟨Nat.mul_mod_right .., rfl⟩

theorem flatMap_toList_inj {ks ks' : List Pubkey} (h : ks.flatMap List.Vector.toList = ks'.flatMap List.Vector.toList) :
    ks = ks' := by
  have hok : (.ok ks : Result (List Pubkey)) = .ok ks' := by
    rw [← mapM_toArray_chunks, h, mapM_toArray_chunks]
  cases hok
  rfl

theorem parse_layout {m : Bytes} (hm : m.length = 52) (a : Bytes) {ks : List Pubkey} :
    parseLookupTableAddresses (leBytes 4 1 ++ m ++ a) = .ok ks ↔ a = ks.flatMap List.Vector.toList := by
  have hhead : (leBytes 4 1 ++ m).length = lookupTableMetaSize := by
    rw [List.length_append, leBytes_length, hm]; rfl
  rw [parseLookupTableAddresses_eq_ok, List.drop_left' hhead, List.append_assoc, List.take_left' (leBytes_length 4 1)]
  refine ⟨fun h => h.2.2, fun h => ⟨?_, rfl, h⟩⟩
  rw [← List.append_assoc, List.length_append, hhead]
  exact Nat.le_add_right _ _

theorem exists_layout_iff {d : Bytes} : (∃ ks, parseLookupTableAddresses d = .ok ks) ↔
    ∃ m a : Bytes, m.length = 52 ∧ 32 ∣ a.length ∧ d = leBytes 4 1 ++ m ++ a := by
  refine ⟨fun h => ?_, fun h => ?_⟩
  · obtain ⟨ks, hks⟩ := h
    obtain ⟨hlen, htag, haddr⟩ := parseLookupTableAddresses_eq_ok.mp hks
    have h56 : lookupTableMetaSize = 56 := rfl
    refine ⟨(d.drop 4).take 52, d.drop lookupTableMetaSize, ?_, ?_, ?_⟩
    · rw [List.length_take, List.length_drop]; omega
    · rw [haddr, flatMap_toList_length]
      exact Nat.dvd_mul_right 32 _
    · rw [← htag, h56, ← List.take_add, List.take_append_drop]
  · obtain ⟨m, a, hm, ⟨n, hn⟩, rfl⟩ := h
    obtain ⟨ks, hks⟩ := exists_addresses hn
    exact ⟨ks, (parse_layout hm a).mpr hks⟩

/-! ## Growing a table -/

/-- The meta after the tag is changed, and whole addresses are appended. -/
def Extends (d d' : Bytes) : Prop :=
  ∃ m a : Bytes, m.length = ((d.drop 4).take 52).length ∧ 32 ∣ a.length ∧
    d' = d.take 4 ++ m ++ d.drop lookupTableMetaSize ++ a

theorem parse_extends {d d' : Bytes} {ks : List Pubkey} (h : parseLookupTableAddresses d = .ok ks)
    (hd : Extends d d') : ∃ ks', parseLookupTableAddresses d' = .ok (ks ++ ks') := by
  obtain ⟨hlen, htag, haddr⟩ := parseLookupTableAddresses_eq_ok.mp h
  obtain ⟨m, a, hm, ⟨n, hn⟩, rfl⟩ := hd
  obtain ⟨ks', rfl⟩ := exists_addresses hn
  have h56 : lookupTableMetaSize = 56 := rfl
  have h4 : (d.take 4).length = 4 := List.length_take_of_le (by omega)
  have hhead : (d.take 4 ++ m).length = lookupTableMetaSize := by
    rw [List.length_append, h4, hm, List.length_take, List.length_drop, h56]; omega
  refine ⟨ks', parseLookupTableAddresses_eq_ok.mpr ⟨?_, ?_, ?_⟩⟩
  · rw [List.append_assoc, List.length_append, hhead]; omega
  · rw [List.append_assoc, List.append_assoc, List.take_left' h4, htag]
  · rw [List.append_assoc, List.drop_left' hhead, haddr, List.flatMap_append]

theorem parse_append {d e : Bytes} {ks es : List Pubkey} (h : parseLookupTableAddresses d = .ok ks)
    (he : e = es.flatMap List.Vector.toList) : parseLookupTableAddresses (d ++ e) = .ok (ks ++ es) := by
  obtain ⟨hlen, htag, haddr⟩ := parseLookupTableAddresses_eq_ok.mp h
  have h56 : lookupTableMetaSize = 56 := rfl
  refine parseLookupTableAddresses_eq_ok.mpr ⟨?_, ?_, ?_⟩
  · rw [List.length_append]; omega
  · rw [List.take_append_of_le_length (by omega), htag]
  · rw [List.drop_append_of_le_length hlen, haddr, he, List.flatMap_append]

/-- Accepted are the tag, 52 bytes of meta and whole addresses, which are the result; so writing a table is
inverted, and appending whole addresses leaves the existing ones in place. -/
theorem parseLookupTableAddresses_exact :
    (∀ d : Bytes, (∃ ks, parseLookupTableAddresses d = .ok ks) ↔
      ∃ m a : Bytes, m.length = 52 ∧ 32 ∣ a.length ∧ d = leBytes 4 1 ++ m ++ a) ∧
    (∀ (m a : Bytes) (ks : List Pubkey), m.length = 52 →
      parseLookupTableAddresses (leBytes 4 1 ++ m ++ a) = .ok ks →
        ks.flatMap List.Vector.toList = a ∧ ∀ ks' : List Pubkey, ks'.flatMap List.Vector.toList = a → ks' = ks) ∧
    (∀ (ks : List Pubkey) (m : Bytes), m.length = 52 →
      parseLookupTableAddresses (leBytes 4 1 ++ m ++ ks.flatMap List.Vector.toList) = .ok ks) ∧
    (∀ (d e : Bytes) (ks : List Pubkey), parseLookupTableAddresses d = .ok ks → 32 ∣ e.length →
      ∃ es : List Pubkey, es.flatMap List.Vector.toList = e ∧ parseLookupTableAddresses (d ++ e) = .ok (ks ++ es) ∧
        ∀ i < ks.length, (ks ++ es)[i]? = ks[i]?) := by
  refine ⟨fun _ => exists_layout_iff, fun m a ks hm h => ?_, fun ks m hm => (parse_layout hm _).mpr rfl,
    fun d e ks h he => ?_⟩
  · have ha := (parse_layout hm a).mp h
    refine ⟨ha.symm, fun ks' hks' => ?_⟩
    exact flatMap_toList_inj (hks'.trans ha)
  · obtain ⟨n, hn⟩ := he
    obtain ⟨es, hes⟩ := exists_addresses hn
    refine ⟨es, hes.symm, parse_append h hes, fun i hi => ?_⟩
    exact List.getElem?_append_left hi

section
variable {lookups : List MultisigMessageAddressTableLookup} {tables tables' : List (List Pubkey)}

theorem lookedUp_extends (indexes : MultisigMessageAddressTableLookup → List UInt8)
    (ht : List.Forall₂ (· <+: ·) tables tables')
    (h : ∀ k ∈ lookedUp indexes (lookups.zip tables), k.isSome) :
    lookedUp indexes (lookups.zip tables') = lookedUp indexes (lookups.zip tables) := by
  induction ht generalizing lookups with
  | nil => rfl
  | cons hp _ ih =>
    cases lookups with
    | nil => rfl
    | cons l lookups =>
      obtain ⟨ext, rfl⟩ := hp
      unfold lookedUp at *
      simp only [List.zip_cons_cons, List.flatMap_cons, List.forall_mem_append, List.forall_mem_map] at h ⊢
      rw [ih h.2]
      congr 1
      apply List.map_congr_left
      intro i hi
      have hlt := h.1 i hi
      rw [Option.isSome_iff_exists] at hlt
      obtain ⟨k, hk⟩ := hlt
      rw [hk, List.getElem?_append_left (List.getElem?_eq_some_iff.mp hk).1, hk]

theorem resolve_extends {message : VaultTransactionMessage} {k : AccountKeys}
    (ht : List.Forall₂ (· <+: ·) tables tables') (h : AccountKeys.resolve message tables = .ok k) :
    AccountKeys.resolve message tables' = .ok k := by
  obtain ⟨⟨hlen, hall⟩, rfl⟩ := AccountKeys.resolve_eq_ok.mp h
  have hall' := hall
  simp only [keyTable, List.forall_mem_append] at hall'
  obtain ⟨⟨-, hw⟩, hr⟩ := hall'
  have hw' : loadedWritable message tables' = loadedWritable message tables := lookedUp_extends _ ht hw
  have hr' : loadedReadonly message tables' = loadedReadonly message tables := lookedUp_extends _ ht hr
  have hkeys : keyTable message tables' = keyTable message tables := by unfold keyTable; rw [hw', hr']
  refine AccountKeys.resolve_eq_ok.mpr ⟨⟨ht.length_eq ▸ hlen, hkeys ▸ hall⟩, ?_⟩
  unfold AccountKeys.resolved
  rw [hkeys, hw']

end

end ClearSigning
