import Mathlib.Data.Nat.Digits.Lemmas
import Mathlib.Data.Vector.Basic
import Mathlib.Logic.Equiv.Defs

/-!
# Self-delimiting binary formats

A `Codec` is a partial writer with a prefix reader, and carries the two laws
that make a format exact: a written value is read back with the rest of the
input untouched, and whatever is read is what would have been written. Formats
are built by sequencing, by length-prefixed repetition and by admitting part of
another format's values; every format built so is prefix-free.
-/

abbrev Bytes := List UInt8

/-! ## Little-endian numbers -/

/-- The number whose base-256 digits are `d`, least significant first. -/
def leNat (d : Bytes) : Nat := Nat.ofDigits 256 (d.map UInt8.toNat)

def leBytes : Nat → Nat → Bytes
  | 0, _ => []
  | k + 1, n => UInt8.ofNat n :: leBytes k (n / 256)

theorem leNat_cons (b : UInt8) (d : Bytes) : leNat (b :: d) = b.toNat + 256 * leNat d := by
  simp [leNat, Nat.ofDigits_cons]

@[simp] theorem leBytes_length (k n : Nat) : (leBytes k n).length = k := by
  induction k generalizing n with
  | zero => rfl
  | succ k ih => rw [leBytes, List.length_cons, ih]

theorem leNat_lt (d : Bytes) : leNat d < 256 ^ d.length := by
  have := Nat.ofDigits_lt_base_pow_length (b := 256) (l := d.map UInt8.toNat) (by decide) (by
    intro n hn
    obtain ⟨b, _, rfl⟩ := List.mem_map.mp hn
    exact b.toNat_lt)
  rwa [List.length_map] at this

theorem leNat_leBytes (k n : Nat) (h : n < 256 ^ k) : leNat (leBytes k n) = n := by
  induction k generalizing n with
  | zero =>
    have hn : n = 0 := by simpa using h
    subst hn; rfl
  | succ k ih =>
    have hn : n / 256 < 256 ^ k := by rw [Nat.pow_succ] at h; omega
    rw [leBytes, leNat_cons, ih _ hn, UInt8.toNat_ofNat']
    omega

theorem leBytes_leNat (d : Bytes) : leBytes d.length (leNat d) = d := by
  induction d with
  | nil => rfl
  | cons b d ih =>
    have hb := b.toNat_lt
    have hdiv : (b.toNat + 256 * leNat d) / 256 = leNat d := by omega
    have hmod : UInt8.ofNat (b.toNat + 256 * leNat d) = b := by
      apply UInt8.toNat_inj.mp
      rw [UInt8.toNat_ofNat']; omega
    rw [List.length_cons, leNat_cons, leBytes, hdiv, hmod, ih]

theorem leNat_inj {d e : Bytes} (hl : d.length = e.length) (h : leNat d = leNat e) : d = e := by
  rw [← leBytes_leNat d, ← leBytes_leNat e, hl, h]

/-! ## Codecs -/

structure Codec (α : Type) where
  enc : α → Option Bytes
  dec : Bytes → Option (α × Bytes)
  dec_enc : ∀ {a e}, enc a = some e → ∀ s, dec (e ++ s) = some (a, s)
  enc_dec : ∀ {d a s}, dec d = some (a, s) → ∃ e, enc a = some e ∧ d = e ++ s

namespace Codec

variable {α β : Type}

section
variable (c : Codec α)

/-- Two values never share an encoding. -/
theorem enc_inj {a b : α} {e : Bytes} (ha : c.enc a = some e) (hb : c.enc b = some e) : a = b := by
  have h := c.dec_enc ha []
  rw [c.dec_enc hb []] at h
  cases h; rfl

/-- An input starts with at most one encoding. -/
theorem read_unique {a b : α} {e f s t : Bytes} (ha : c.enc a = some e) (hb : c.enc b = some f)
    (h : e ++ s = f ++ t) : a = b ∧ s = t := by
  have hr := c.dec_enc ha s
  rw [h, c.dec_enc hb t] at hr
  cases hr; exact ⟨rfl, rfl⟩

/-- A proper prefix of an encoding is not read as anything. -/
theorem dec_prefix {a : α} {e p : Bytes} (ha : c.enc a = some e) (hp : p <+: e) (hne : p ≠ e) :
    c.dec p = none := by
  obtain ⟨t, rfl⟩ := hp
  cases hd : c.dec p with
  | none => rfl
  | some r =>
    obtain ⟨f, hf, rfl⟩ := c.enc_dec hd
    have h := c.read_unique ha hf (s := []) (t := r.2 ++ t) (by simp)
    have ht : t = [] := (List.append_eq_nil_iff.mp h.2.symm).2
    exact absurd (by simp [ht]) hne

end

/-! ## Atoms -/

def u8 : Codec UInt8 where
  enc b := some [b]
  dec
    | [] => none
    | b :: d => some (b, d)
  dec_enc h s := by cases h; rfl
  enc_dec {d a s} h := by
    cases d with
    | nil => cases h
    | cons b d => cases h; exact ⟨_, rfl, rfl⟩

def raw (n : Nat) : Codec (List.Vector UInt8 n) where
  enc v := some v.toList
  dec d := if h : n ≤ d.length then some (⟨d.take n, List.length_take_of_le h⟩, d.drop n) else none
  dec_enc {v e} h s := by
    cases h
    obtain ⟨l, rfl⟩ := v
    simp
  enc_dec {d v s} h := by
    split at h
    · cases h; exact ⟨_, rfl, (List.take_append_drop n d).symm⟩
    · cases h

/-- Admit the values `g b` of another format as `b`. -/
def pmap (c : Codec α) (f : α → Option β) (g : β → α) (hfg : ∀ b, f (g b) = some b)
    (hgf : ∀ a b, f a = some b → g b = a) : Codec β where
  enc b := c.enc (g b)
  dec d := do
    let (a, d) ← c.dec d
    let b ← f a
    some (b, d)
  dec_enc {b e} h s := by
    rw [c.dec_enc h s]; simp [hfg]
  enc_dec {d b s} h := by
    simp only [Option.bind_eq_bind, Option.bind_eq_some_iff, Option.some.injEq, Prod.mk.injEq] at h
    obtain ⟨⟨a, s'⟩, hd, b', hb, rfl, rfl⟩ := h
    rw [hgf a b' hb]
    exact c.enc_dec hd

def map (c : Codec α) (e : α ≃ β) : Codec β :=
  c.pmap (fun a => some (e a)) e.symm (by simp) (by rintro a b h; cases h; simp)

/-- A number of `k` bytes, little-endian; larger numbers are not written. -/
def le (k : Nat) : Codec Nat where
  enc n := if n < 256 ^ k then some (leBytes k n) else none
  dec d := if k ≤ d.length then some (leNat (d.take k), d.drop k) else none
  dec_enc {n e} h s := by
    split at h
    · rename_i hn
      cases h
      rw [if_pos (by simp), List.take_left' (by simp), List.drop_left' (by simp), leNat_leBytes k n hn]
    · cases h
  enc_dec {d n s} h := by
    split at h
    · rename_i hk
      cases h
      have hl : (d.take k).length = k := List.length_take_of_le hk
      have hlt := leNat_lt (d.take k)
      have hb := leBytes_leNat (d.take k)
      rw [hl] at hlt hb
      exact ⟨_, if_pos hlt, by rw [hb, List.take_append_drop]⟩
    · cases h

def u64 : Codec UInt64 :=
  (le 8).pmap (fun n => if n < 2 ^ 64 then some (UInt64.ofNat n) else none) UInt64.toNat
    (fun b => by simp [b.toNat_lt])
    (fun n b h => by
      split at h
      · rename_i hn; cases h; exact UInt64.toNat_ofNat_of_lt hn
      · cases h)

def bool : Codec Bool :=
  u8.pmap (fun b => if b = 0 then some false else if b = 1 then some true else none)
    (fun x => if x then 1 else 0) (by decide)
    (fun b x h => by
      split at h
      · rename_i hb; cases h; exact hb.symm
      · split at h
        · rename_i hb; cases h; exact hb.symm
        · cases h)

/-! ## Composition -/

def seq (c : Codec α) (c' : Codec β) : Codec (α × β) where
  enc p := do
    let x ← c.enc p.1
    let y ← c'.enc p.2
    some (x ++ y)
  dec d := do
    let (a, d) ← c.dec d
    let (b, d) ← c'.dec d
    some ((a, b), d)
  dec_enc {p e} h s := by
    simp only [Option.bind_eq_bind, Option.bind_eq_some_iff, Option.some.injEq] at h
    obtain ⟨x, hx, y, hy, rfl⟩ := h
    rw [List.append_assoc, c.dec_enc hx]
    simp [c'.dec_enc hy]
  enc_dec {d p s} h := by
    simp only [Option.bind_eq_bind, Option.bind_eq_some_iff, Option.some.injEq, Prod.mk.injEq] at h
    obtain ⟨⟨a, d₁⟩, ha, ⟨b, d₂⟩, hb, rfl, rfl⟩ := h
    obtain ⟨x, hx, rfl⟩ := c.enc_dec ha
    obtain ⟨y, hy, rfl⟩ := c'.enc_dec hb
    exact ⟨x ++ y, by simp [hx, hy], by simp⟩

section
variable (c : Codec α)

def encAll : List α → Option Bytes
  | [] => some []
  | a :: l => do
    let x ← c.enc a
    let y ← encAll l
    some (x ++ y)

def decAll : Nat → Bytes → Option (List α × Bytes)
  | 0, d => some ([], d)
  | n + 1, d => do
    let (a, d) ← c.dec d
    let (l, d) ← decAll n d
    some (a :: l, d)

theorem decAll_encAll {l : List α} {e : Bytes} (h : encAll c l = some e) (s : Bytes) :
    decAll c l.length (e ++ s) = some (l, s) := by
  induction l generalizing e with
  | nil => cases h; rfl
  | cons a l ih =>
    simp only [encAll, Option.bind_eq_bind, Option.bind_eq_some_iff, Option.some.injEq] at h
    obtain ⟨x, hx, y, hy, rfl⟩ := h
    rw [List.append_assoc, List.length_cons, decAll, c.dec_enc hx]
    simp [ih hy]

theorem encAll_decAll {n : Nat} {d : Bytes} {l : List α} {s : Bytes} (h : decAll c n d = some (l, s)) :
    l.length = n ∧ ∃ e, encAll c l = some e ∧ d = e ++ s := by
  induction n generalizing d l with
  | zero => cases h; exact ⟨rfl, [], rfl, rfl⟩
  | succ n ih =>
    simp only [decAll, Option.bind_eq_bind, Option.bind_eq_some_iff, Option.some.injEq, Prod.mk.injEq] at h
    obtain ⟨⟨a, d₁⟩, ha, ⟨l', d₂⟩, hl, rfl, rfl⟩ := h
    obtain ⟨x, hx, rfl⟩ := c.enc_dec ha
    obtain ⟨hn, y, hy, rfl⟩ := ih hl
    exact ⟨by simp [hn], x ++ y, by simp [encAll, hx, hy], by simp⟩

/-- A `u32` count followed by the elements. -/
def vec : Codec (List α) where
  enc l := do
    let n ← (le 4).enc l.length
    let b ← encAll c l
    some (n ++ b)
  dec d := do
    let (n, d) ← (le 4).dec d
    decAll c n d
  dec_enc {l e} h s := by
    simp only [Option.bind_eq_bind, Option.bind_eq_some_iff, Option.some.injEq] at h
    obtain ⟨n, hn, b, hb, rfl⟩ := h
    rw [List.append_assoc, (le 4).dec_enc hn]
    simp [decAll_encAll c hb]
  enc_dec {d l s} h := by
    simp only [Option.bind_eq_bind, Option.bind_eq_some_iff] at h
    obtain ⟨⟨n, d₁⟩, hn, hl⟩ := h
    obtain ⟨x, hx, rfl⟩ := (le 4).enc_dec hn
    obtain ⟨rfl, y, hy, rfl⟩ := encAll_decAll c hl
    exact ⟨x ++ y, by simp [hx, hy], by simp⟩

end

/-! ## What can be written -/

/-- Exactly the values that meet `ok` are written, as the bytes `f` gives. -/
def Writes (c : Codec α) (ok : α → Prop) (f : α → Bytes) : Prop :=
  ∀ a e, c.enc a = some e ↔ ok a ∧ f a = e

theorem Writes.enc {c : Codec α} {p f} (hc : c.Writes p f) {a : α} (ha : p a) : c.enc a = some (f a) :=
  (hc a _).mpr ⟨ha, rfl⟩

theorem Writes.seq {c : Codec α} {c' : Codec β} {p q f g} (hc : c.Writes p f) (hc' : c'.Writes q g) :
    (c.seq c').Writes (fun x => p x.1 ∧ q x.2) fun x => f x.1 ++ g x.2 := by
  intro x e
  simp only [Codec.seq, Option.bind_eq_bind, Option.bind_eq_some_iff, Option.some.injEq]
  refine ⟨fun h => ?_, fun h => ?_⟩
  · obtain ⟨y, hy, z, hz, rfl⟩ := h
    obtain ⟨hp, rfl⟩ := (hc _ _).mp hy
    obtain ⟨hq, rfl⟩ := (hc' _ _).mp hz
    exact ⟨⟨hp, hq⟩, rfl⟩
  · obtain ⟨⟨hp, hq⟩, rfl⟩ := h
    exact ⟨_, hc.enc hp, _, hc'.enc hq, rfl⟩

theorem Writes.encAll {c : Codec α} {p f} (hc : c.Writes p f) (l : List α) (e : Bytes) :
    c.encAll l = some e ↔ (∀ a ∈ l, p a) ∧ l.flatMap f = e := by
  induction l generalizing e with
  | nil => simp [Codec.encAll]
  | cons a l ih =>
    simp only [Codec.encAll, Option.bind_eq_bind, Option.bind_eq_some_iff, Option.some.injEq,
      List.forall_mem_cons, List.flatMap_cons]
    refine ⟨fun h => ?_, fun h => ?_⟩
    · obtain ⟨y, hy, z, hz, rfl⟩ := h
      obtain ⟨ha, rfl⟩ := (hc _ _).mp hy
      obtain ⟨hl, rfl⟩ := (ih z).mp hz
      exact ⟨⟨ha, hl⟩, rfl⟩
    · obtain ⟨⟨ha, hl⟩, rfl⟩ := h
      exact ⟨_, hc.enc ha, _, (ih _).mpr ⟨hl, rfl⟩, rfl⟩

theorem le_writes (k : Nat) : (le k).Writes (· < 256 ^ k) (leBytes k) := by
  intro n e
  by_cases h : n < 256 ^ k
  · simp [le, h]
  · simp [le, h]

theorem Writes.vec {c : Codec α} {p f} (hc : c.Writes p f) :
    c.vec.Writes (fun l => l.length < 2 ^ 32 ∧ ∀ a ∈ l, p a) fun l => leBytes 4 l.length ++ l.flatMap f := by
  intro l e
  simp only [Codec.vec, Option.bind_eq_bind, Option.bind_eq_some_iff, Option.some.injEq]
  refine ⟨fun h => ?_, fun h => ?_⟩
  · obtain ⟨n, hn, b, hb, rfl⟩ := h
    obtain ⟨h4, rfl⟩ := (le_writes 4 _ _).mp hn
    obtain ⟨hl, rfl⟩ := (hc.encAll l b).mp hb
    exact ⟨⟨h4, hl⟩, rfl⟩
  · obtain ⟨⟨h4, hl⟩, rfl⟩ := h
    exact ⟨_, (le_writes 4).enc h4, _, (hc.encAll l _).mpr ⟨hl, rfl⟩, rfl⟩

theorem Writes.map {c : Codec α} {p f} (hc : c.Writes p f) (e : α ≃ β) :
    (c.map e).Writes (fun b => p (e.symm b)) fun b => f (e.symm b) := fun b x => hc (e.symm b) x

theorem Writes.congr {c : Codec α} {p q f g} (hc : c.Writes p f) (hq : ∀ a, q a ↔ p a) (hg : ∀ a, g a = f a) :
    c.Writes q g := fun a e => by rw [hc a e, hq, hg]

theorem u8_writes : u8.Writes (fun _ => True) fun b => [b] := fun b e => by simp [u8]

theorem u64_writes : u64.Writes (fun _ => True) fun n => leBytes 8 n.toNat := by
  intro n e
  have h := le_writes 8 n.toNat e
  have hn : n.toNat < 256 ^ 8 := n.toNat_lt
  exact h.trans ⟨fun h => ⟨trivial, h.2⟩, fun h => ⟨hn, h.2⟩⟩

theorem bool_writes : bool.Writes (fun _ => True) fun b => [if b then 1 else 0] :=
  fun _ e => u8_writes _ e

theorem raw_writes (n : Nat) : (raw n).Writes (fun _ => True) List.Vector.toList := fun v e => by simp [raw]

theorem u8Vec_writes : u8.vec.Writes (·.length < 2 ^ 32) fun l => leBytes 4 l.length ++ l :=
  u8_writes.vec.congr (by simp) (by simp)

end Codec
