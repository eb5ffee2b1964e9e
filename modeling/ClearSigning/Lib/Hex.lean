import ClearSigning.Lib.Codec
import Mathlib.Data.Char

/-!
# Strings as UTF-8 bytes, and lowercase hexadecimal

`hexString` writes two digits for a byte. A string of hex digits is told from
its bytes alone, since UTF-8 bytes determine the string.
-/

theorem forall_byte {P : UInt8 → Prop} (h : ∀ n < 256, P (UInt8.ofNat n)) (b : UInt8) : P b := by
  have hb := h b.toNat b.toNat_lt
  rwa [UInt8.ofNat_toNat] at hb

/-- `s.as_bytes()` -/
def utf8 (s : String) : Bytes := s.toByteArray.data.toList

theorem utf8_inj {s t : String} (h : utf8 s = utf8 t) : s = t :=
  String.toByteArray_inj.mp (ByteArray.ext (Array.toList_inj.mp h))

@[simp] theorem utf8_empty : utf8 "" = [] := rfl

theorem utf8_push {c : Char} (s : String) (hc : c.utf8Size = 1) : utf8 (s.push c) = utf8 s ++ [c.val.toUInt8] := by
  have hb := String.utf8EncodeChar_eq_singleton hc
  simp [utf8, String.toByteArray_push, List.utf8Encode_singleton, hb]

def hexCode (n : Nat) : UInt8 := n.digitChar.val.toUInt8

def hexString (d : Bytes) : String :=
  d.foldl (fun s b => (s.push (b.toNat / 16).digitChar).push (b.toNat % 16).digitChar) ""

theorem utf8_foldl_hex (d : Bytes) (s : String) :
    utf8 (d.foldl (fun s b => (s.push (b.toNat / 16).digitChar).push (b.toNat % 16).digitChar) s) =
      utf8 s ++ d.flatMap fun b => [hexCode (b.toNat / 16), hexCode (b.toNat % 16)] := by
  induction d generalizing s with
  | nil => simp
  | cons b d ih =>
    have size : ∀ n < 16, n.digitChar.utf8Size = 1 := by decide
    have hb := b.toNat_lt
    have hhi := size (b.toNat / 16) (by omega)
    have hlo := size (b.toNat % 16) (by omega)
    rw [List.foldl_cons, ih, utf8_push _ hlo, utf8_push _ hhi]
    simp [hexCode]

theorem utf8_hexString (d : Bytes) :
    utf8 (hexString d) = d.flatMap fun b => [hexCode (b.toNat / 16), hexCode (b.toNat % 16)] := by
  rw [hexString, utf8_foldl_hex, utf8_empty, List.nil_append]

theorem toList_foldl_hex (d : Bytes) (s : String) :
    (d.foldl (fun s b => (s.push (b.toNat / 16).digitChar).push (b.toNat % 16).digitChar) s).toList =
      s.toList ++ d.flatMap fun b => [(b.toNat / 16).digitChar, (b.toNat % 16).digitChar] := by
  induction d generalizing s with
  | nil => simp
  | cons b d ih =>
    rw [List.foldl_cons, ih]
    simp

theorem hexString_toList (d : Bytes) :
    (hexString d).toList = d.flatMap fun b => [(b.toNat / 16).digitChar, (b.toNat % 16).digitChar] := by
  rw [hexString, toList_foldl_hex, String.toList_empty, List.nil_append]

/-! ## The lowercase digits -/

def IsHexDigit (c : Char) : Prop := '0' ≤ c ∧ c ≤ '9' ∨ 'a' ≤ c ∧ c ≤ 'f'

instance (c : Char) : Decidable (IsHexDigit c) := inferInstanceAs (Decidable (_ ∨ _))

theorem isHexDigit_iff {c : Char} : IsHexDigit c ↔ ∃ n < 16, c = n.digitChar := by
  have hdigit : ∀ n < 16, IsHexDigit n.digitChar := by decide
  have hchar : ∀ n < 128, IsHexDigit (Char.ofNat n) → ∃ k < 16, Char.ofNat n = k.digitChar := by decide
  refine ⟨fun h => ?_, fun h => ?_⟩
  · have hlt : c.toNat < 128 := by
      have key : c.toNat ≤ 57 ∨ c.toNat ≤ 102 := h.imp (fun h => h.2) fun h => h.2
      omega
    have hc := hchar c.toNat hlt
    rw [Char.ofNat_toNat] at hc
    exact hc h
  · obtain ⟨n, hn, rfl⟩ := h
    exact hdigit n hn

theorem exists_hexString {n : Nat} {l : List Char} (hl : l.length = 2 * n) (h : ∀ c ∈ l, IsHexDigit c) :
    ∃ d : Bytes, d.length = n ∧ (hexString d).toList = l := by
  induction n generalizing l with
  | zero =>
    refine ⟨[], rfl, ?_⟩
    rw [List.eq_nil_of_length_eq_zero hl]
    rfl
  | succ n ih =>
    match l, hl with
    | a :: b :: l, hl =>
      simp only [List.forall_mem_cons] at h
      obtain ⟨i, hi, rfl⟩ := isHexDigit_iff.mp h.1
      obtain ⟨j, hj, rfl⟩ := isHexDigit_iff.mp h.2.1
      have hlen : l.length = 2 * n := by simp only [List.length_cons] at hl; omega
      obtain ⟨d, hd, hs⟩ := ih hlen h.2.2
      have hx : (UInt8.ofNat (16 * i + j)).toNat = 16 * i + j := UInt8.toNat_ofNat_of_lt (by show _ < 256; omega)
      refine ⟨UInt8.ofNat (16 * i + j) :: d, by rw [List.length_cons, hd], ?_⟩
      rw [hexString_toList] at hs ⊢
      rw [List.flatMap_cons, hs, hx, show (16 * i + j) / 16 = i by omega, show (16 * i + j) % 16 = j by omega]
      rfl

/-! ## The string format -/

/-- A `u32` byte count followed by valid UTF-8. -/
def Codec.string : Codec String :=
  Codec.u8.vec.pmap (fun d => String.fromUTF8? ⟨d.toArray⟩) utf8
    (fun s => dif_pos s.isValidUTF8)
    (fun d s h => by
      unfold String.fromUTF8? at h
      split at h
      · cases h; rfl
      · cases h)
