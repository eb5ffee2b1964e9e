import ClearSigning.Lib.Ensures
import ClearSigning.Validation

/-!
# Digests as strings

Encoding a digest and decoding a string are inverse on the strings of 64
lowercase hex digits. Every other string is refused with one error, and neither
direction indexes or overflows outside its arrays.
-/

namespace ClearSigning

open Exec

/-! ## Encoding -/

theorem hexAlphabet_index : ∀ n < 16, index hexAlphabet n = (.ok (hexCode n) : Result UInt8) := by decide

theorem ofNat_hexCode : ∀ n < 16, Char.ofNat (hexCode n).toNat = n.digitChar := by decide

theorem nibbles_toNat : ∀ b : UInt8, (b >>> 4).toNat = b.toNat / 16 ∧ (b &&& 0x0f).toNat = b.toNat % 16 := by
  apply forall_byte
  decide +kernel

theorem hashToHex_eq (h : Digest) : hashToHex h = .ok (hexString h.toList) := by
  unfold hashToHex hexString
  apply foldlM_of_ok
  intro s b
  have hb := b.toNat_lt
  obtain ⟨hhi, hlo⟩ := nibbles_toNat b
  rw [hhi, hlo, hexAlphabet_index _ (by omega), ok_bind, hexAlphabet_index _ (by omega), ok_bind,
    ofNat_hexCode _ (by omega), ofNat_hexCode _ (by omega)]
  rfl

/-! ## Decoding -/

def hexByte (a b : UInt8) : Result UInt8 := do
  let hi ← hexNibble a
  let lo ← hexNibble b
  return (hi <<< 4) ||| lo

theorem hexNibble_hexCode : ∀ n < 16, hexNibble (hexCode n) = .ok (UInt8.ofNat n) := by decide

theorem hexNibble_cases : ∀ c, (∃ k < 16, c = hexCode k) ∨ hexNibble c = fail .bufferHashMismatch := by
  apply forall_byte
  decide +kernel

theorem hexCode_of_hexNibble {c v : UInt8} (hv : hexNibble c = .ok v) :
    ∃ k < 16, v = UInt8.ofNat k ∧ c = hexCode k := by
  cases hexNibble_cases c with
  | inl h =>
    obtain ⟨k, hk, rfl⟩ := h
    rw [hexNibble_hexCode k hk] at hv
    cases hv
    exact ⟨k, hk, rfl, rfl⟩
  | inr hf =>
    rw [hf] at hv
    cases hv

theorem nibbles_of_byte : ∀ b : UInt8, (UInt8.ofNat (b.toNat / 16) <<< 4) ||| UInt8.ofNat (b.toNat % 16) = b := by
  apply forall_byte
  decide +kernel

theorem byte_of_nibbles : ∀ h < 16, ∀ l < 16, ((UInt8.ofNat h <<< 4) ||| UInt8.ofNat l).toNat = 16 * h + l := by
  decide +kernel

theorem hexByte_eq_ok {a b x : UInt8} :
    hexByte a b = .ok x ↔ a = hexCode (x.toNat / 16) ∧ b = hexCode (x.toNat % 16) := by
  unfold hexByte
  refine ⟨fun h => ?_, fun ⟨ha, hb⟩ => ?_⟩
  · obtain ⟨hi, hhi, h⟩ := bind_eq_ok.mp h
    obtain ⟨lo, hlo, h⟩ := bind_eq_ok.mp h
    obtain ⟨k, hk, rfl, hak⟩ := hexCode_of_hexNibble hhi
    obtain ⟨l, hl, rfl, hbl⟩ := hexCode_of_hexNibble hlo
    cases h
    rw [byte_of_nibbles k hk l hl, hak, hbl]
    exact ⟨congrArg hexCode (by omega), congrArg hexCode (by omega)⟩
  · have hx := x.toNat_lt
    rw [ha, hb, hexNibble_hexCode _ (by omega), ok_bind, hexNibble_hexCode _ (by omega), ok_bind,
      nibbles_of_byte]
    rfl

theorem mapM_hexByte_eq_ok {ps : List (UInt8 × UInt8)} {out : Bytes} :
    ps.mapM (fun p => hexByte p.1 p.2) = .ok out ↔
      ps = out.map fun x => (hexCode (x.toNat / 16), hexCode (x.toNat % 16)) := by
  have heq : ∀ l : List (UInt8 × UInt8), ps = l ↔ List.Forall₂ (· = ·) ps l := by
    intro l
    rw [List.forall₂_eq_eq_eq]
  rw [mapM_eq_ok, heq, List.forall₂_map_right_iff]
  simp only [hexByte_eq_ok, Prod.ext_iff]

theorem flatMap_pairUp : ∀ (n : Nat) (l : Bytes), l.length = 2 * n →
    l = (pairUp l).flatMap fun p => [p.1, p.2]
  | 0, l, h => by
    have hl : l = [] := List.eq_nil_of_length_eq_zero h
    subst hl; rfl
  | n + 1, a :: b :: l, h => by
    rw [pairUp, List.flatMap_cons, ← flatMap_pairUp n l (by simp at h; omega)]
    rfl

theorem pairUp_flatMap {α β : Type} (f g : α → β) (l : List α) :
    pairUp (l.flatMap fun x => [f x, g x]) = l.map fun x => (f x, g x) := by
  induction l with
  | nil => rfl
  | cons x l ih =>
    rw [List.flatMap_cons, List.map_cons, ← ih]; rfl

theorem hexToHash_loop {b : Bytes} (hb : b.length = 64) :
    ((List.range 32).foldlM (fun out i => do
      let hi ← hexNibble (← index b (2 * i))
      let lo ← hexNibble (← index b (← addUsize (2 * i) 1))
      setIndex out i ((hi <<< 4) ||| lo)) (List.replicate 32 0) : Result Bytes) =
      (pairUp b).mapM fun p => hexByte p.1 p.2 := by
  rw [← mapM_range_pairs hexByte 32 b hb]
  have hf := foldlM_setIndex (fun i => do
    let hi ← hexNibble (← index b (2 * i))
    let lo ← hexNibble (← index b (← addUsize (2 * i) 1))
    return (hi <<< 4) ||| lo) 0 32
  simp only [bind_assoc, pure_bind] at hf ⊢
  rw [hf]
  apply mapM_congr
  intro i hi
  have hi' : i < 32 := List.mem_range.mp hi
  have hget : ∀ j < 64, (index b j : Result UInt8) = .ok (b.getD j 0) := by
    intro j hj
    apply index_of_getElem?
    rw [List.getElem?_eq_getElem (hb ▸ hj), List.getD_eq_getElem?_getD, List.getElem?_eq_getElem (hb ▸ hj)]
    rfl
  rw [hget (2 * i) (by omega), addUsize_of_le (by unfold usizeMax; omega)]
  simp only [ok_bind, hget (2 * i + 1) (by omega)]
  rfl

theorem hexToHash_eq_ok {s : String} {h : Digest} : hexToHash s = .ok h ↔ s = hexString h.toList := by
  unfold hexToHash
  refine ⟨fun hok => ?_, fun hs => ?_⟩
  · obtain ⟨hlen, hok⟩ := require_bind_eq_ok.mp hok
    rw [hexToHash_loop hlen] at hok
    obtain ⟨out, hout, hok⟩ := bind_eq_ok.mp hok
    have hbytes : out = h.toList := toArray_eq_ok.mp hok
    apply utf8_inj
    rw [utf8_hexString, flatMap_pairUp 32 (utf8 s) hlen, mapM_hexByte_eq_ok.mp hout, List.flatMap_map, hbytes]
  · have hu : utf8 s = h.toList.flatMap fun b => [hexCode (b.toNat / 16), hexCode (b.toNat % 16)] := by
      rw [hs, utf8_hexString]
    have hlen : (utf8 s).length = 64 := by
      rw [hu]; simp [List.length_flatMap]
    have hpairs : (pairUp (utf8 s)).mapM (fun p => hexByte p.1 p.2) = .ok h.toList := by
      rw [mapM_hexByte_eq_ok, hu, pairUp_flatMap]
    simp only [require_pos hlen, ok_bind]
    rw [hexToHash_loop hlen, hpairs, ok_bind, toArray_of_length h.toList_length]
    rfl

theorem hexNibble_ensures (c : UInt8) : Ensures (hexNibble c) (fun _ => True) (· = .bufferHashMismatch) := by
  cases hexNibble_cases c with
  | inl h =>
    obtain ⟨k, hk, rfl⟩ := h
    rw [hexNibble_hexCode k hk]
    exact .ok trivial
  | inr hf =>
    rw [hf]
    exact .fail rfl

theorem hexByte_ensures (a b : UInt8) : Ensures (hexByte a b) (fun _ => True) (· = .bufferHashMismatch) := by
  unfold hexByte
  refine (hexNibble_ensures a).bind fun hi _ => (hexNibble_ensures b).bind fun lo _ => ?_
  exact .ok trivial

/-- A string that is not a digest's is refused with the one error. -/
theorem hexToHash_ensures (s : String) : Ensures (hexToHash s) (fun _ => True) (· = .bufferHashMismatch) := by
  unfold hexToHash
  refine .require_bind (fun _ => rfl) fun hlen => ?_
  rw [hexToHash_loop hlen]
  refine (Ensures.mapM fun p _ => hexByte_ensures p.1 p.2).bind fun out hout => ?_
  have hl : out.length = 32 := by rw [← hout.length_eq, @pairUp_length _ 32 _ hlen]
  rw [toArray_of_length hl]
  exact .ok trivial

/-! ## The canonical grammar -/

structure CanonicalHex (s : String) : Prop where
  length : s.length = 64
  digits : ∀ c ∈ s.toList, IsHexDigit c

theorem canonicalHex_hexString (h : Digest) : CanonicalHex (hexString h.toList) := by
  refine ⟨?_, fun c hc => ?_⟩
  · rw [← String.length_toList, hexString_toList]
    simp [List.length_flatMap]
  · rw [hexString_toList] at hc
    obtain ⟨b, -, hc⟩ := List.mem_flatMap.mp hc
    have hb := b.toNat_lt
    apply isHexDigit_iff.mpr
    simp only [List.mem_cons, List.not_mem_nil, or_false] at hc
    cases hc with
    | inl he => exact ⟨b.toNat / 16, by omega, he⟩
    | inr he => exact ⟨b.toNat % 16, by omega, he⟩

theorem CanonicalHex.exists_digest {s : String} (h : CanonicalHex s) : ∃ d : Digest, s = hexString d.toList := by
  have hl : s.toList.length = 2 * 32 := by rw [String.length_toList, h.length]
  obtain ⟨d, hd, hs⟩ := exists_hexString hl h.digits
  exact ⟨⟨d, hd⟩, String.toList_inj.mp hs.symm⟩

/-- Encoding and decoding are inverse between the digests and the strings of 64 lowercase hex digits, and
every other string is refused with `bufferHashMismatch`. -/
theorem hexToHash_hashToHex_inverse :
    (∀ h : Digest, ∃ s, hashToHex h = .ok s ∧ CanonicalHex s ∧ hexToHash s = .ok h) ∧
    (∀ s : String, (∃ h, hexToHash s = .ok h) ↔ CanonicalHex s) ∧
    (∀ (s : String) (h : Digest), hexToHash s = .ok h → hashToHex h = .ok s) ∧
    (∀ s : String, ¬CanonicalHex s → hexToHash s = fail .bufferHashMismatch) := by
  have hiff : ∀ s : String, (∃ h, hexToHash s = .ok h) ↔ CanonicalHex s := by
    intro s
    refine ⟨fun hs => ?_, fun hs => ?_⟩
    · obtain ⟨h, hs⟩ := hs
      rw [hexToHash_eq_ok.mp hs]
      exact canonicalHex_hexString h
    · obtain ⟨d, hd⟩ := hs.exists_digest
      exact ⟨d, hexToHash_eq_ok.mpr hd⟩
  refine ⟨fun h => ?_, hiff, fun s h hs => ?_, fun s hs => ?_⟩
  · exact ⟨hexString h.toList, hashToHex_eq h, canonicalHex_hexString h, hexToHash_eq_ok.mpr rfl⟩
  · rw [hashToHex_eq, hexToHash_eq_ok.mp hs]
  · rcases (hexToHash_ensures s).cases with ⟨h, hok, -⟩ | ⟨e, he, rfl⟩
    · exact absurd ((hiff s).mp ⟨h, hok⟩) hs
    · exact he

end ClearSigning
