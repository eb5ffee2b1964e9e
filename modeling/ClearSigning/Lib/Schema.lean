import ClearSigning.Lib.Hex

/-!
# Formats read off a schema

A schema names structures and enumerations over a few atoms. It denotes one
format for values that carry their field and variant names, and such a value can
be shown without knowing the program that reads it, or be given to an encoder
that only has the schema. `Represents` says that two
formats are one up to an injective way of showing: they accept the same bytes
and read the same value from them. It is proved along the schema, one rule for
each way of building a format.
-/

namespace Codec

variable {α β γ : Type}

/-- Part of a format's values, as part of another type's. -/
def part (c : Codec α) (f : α → Option β) (g : β → Option α) (h : ∀ a b, f a = some b ↔ g b = some a) : Codec β where
  enc b := g b >>= c.enc
  dec d := do
    let (a, d) ← c.dec d
    let b ← f a
    some (b, d)
  dec_enc {b e} he s := by
    obtain ⟨a, ha, he⟩ := Option.bind_eq_some_iff.mp he
    simp [c.dec_enc he s, (h a b).mpr ha]
  enc_dec {d b s} hd := by
    simp only [Option.bind_eq_bind, Option.bind_eq_some_iff, Option.some.injEq, Prod.mk.injEq] at hd
    obtain ⟨⟨a, s'⟩, ha, b', hb, rfl, rfl⟩ := hd
    obtain ⟨e, he, hd⟩ := c.enc_dec ha
    exact ⟨e, Option.bind_eq_some_iff.mpr ⟨a, (h a b').mp hb, he⟩, hd⟩

/-- All of a format's values, as part of another type's. -/
def embed (c : Codec α) (f : α → β) (g : β → Option α) (h : ∀ a b, f a = b ↔ g b = some a) : Codec β :=
  c.part (fun a => some (f a)) g fun a b => by rw [Option.some.injEq, h]

theorem embed_dec (c : Codec α) {f : α → β} {g : β → Option α} (h : ∀ a b, f a = b ↔ g b = some a) (d : Bytes) :
    (c.embed f g h).dec d = (c.dec d).map fun p => (f p.1, p.2) := by
  simp only [embed, part]
  cases c.dec d <;> rfl

def none : Codec α where
  enc _ := Option.none
  dec _ := Option.none
  dec_enc h := nomatch h
  enc_dec h := nomatch h

/-- One value, without bytes. -/
def unit : Codec Unit where
  enc _ := some []
  dec d := some ((), d)
  dec_enc h s := by cases h; rfl
  enc_dec h := by cases h; exact ⟨[], rfl, rfl⟩

/-! ## Two formats that show one another -/

/-- `c` reads what `c'` reads, shown by `f`. -/
structure Represents (c : Codec β) (c' : Codec α) (f : α → β) : Prop where
  inj : Function.Injective f
  dec : ∀ d, c.dec d = (c'.dec d).map fun p => (f p.1, p.2)

namespace Represents

variable {c : Codec β} {c' : Codec α} {f : α → β}

theorem dec_eq_some (h : Represents c c' f) {d s : Bytes} {a : α} :
    c.dec d = some (f a, s) ↔ c'.dec d = some (a, s) := by
  rw [h.dec, Option.map_eq_some_iff]
  refine ⟨fun ⟨⟨a', s'⟩, ha, hp⟩ => ?_, fun ha => ⟨(a, s), ha, rfl⟩⟩
  obtain ⟨hf, hs⟩ := Prod.mk.inj hp
  have ha' : a' = a := h.inj hf
  have hs' : s' = s := hs
  rw [ha, ha', hs']

theorem enc (h : Represents c c' f) (a : α) : c.enc (f a) = c'.enc a := by
  have hiff : ∀ e, c.enc (f a) = some e ↔ c'.enc a = some e := by
    intro e
    refine ⟨fun he => ?_, fun he => ?_⟩
    · have hd := h.dec_eq_some.mp (c.dec_enc he [])
      obtain ⟨e', he', hcat⟩ := c'.enc_dec hd
      rw [he', List.append_cancel_right hcat]
    · have hd := h.dec_eq_some.mpr (c'.dec_enc he [])
      obtain ⟨e', he', hcat⟩ := c.enc_dec hd
      rw [he', List.append_cancel_right hcat]
  exact Option.ext hiff

/-- The values that have an encoding are those that show one. -/
theorem enc_eq_some (h : Represents c c' f) {b : β} {e : Bytes} :
    c.enc b = some e ↔ ∃ a, b = f a ∧ c'.enc a = some e := by
  refine ⟨fun he => ?_, fun ⟨a, hb, he⟩ => by rw [hb, h.enc, he]⟩
  have hd := c.dec_enc he []
  rw [h.dec, Option.map_eq_some_iff] at hd
  obtain ⟨⟨a, s⟩, -, hp⟩ := hd
  obtain ⟨rfl, -⟩ := Prod.mk.inj hp
  exact ⟨a, rfl, (h.enc a).symm.trans he⟩

theorem refl (c : Codec α) : Represents c c id where
  inj := fun _ _ h => h
  dec d := by cases c.dec d <;> rfl

theorem congr (h : Represents c c' f) {g : α → β} (hfg : ∀ a, f a = g a) : Represents c c' g :=
  funext hfg ▸ h

theorem embed (h : Represents c c' f) {g : β → γ} {g' : γ → Option β} (hg : ∀ b x, g b = x ↔ g' x = some b) :
    Represents (c.embed g g' hg) c' (g ∘ f) where
  inj := by
    have hinj : Function.Injective g := by
      intro a b hab
      have ha := (hg a (g b)).mp hab
      rw [(hg b (g b)).mp rfl] at ha
      exact (Option.some.inj ha).symm
    exact hinj.comp h.inj
  dec d := by
    rw [embed_dec, h.dec, Option.map_map]
    rfl

theorem map (h : Represents c c' f) (e : α ≃ γ) : Represents c (c'.map e) (f ∘ e.symm) where
  inj := h.inj.comp e.symm.injective
  dec d := by
    rw [h.dec]
    simp only [Codec.map, pmap]
    cases c'.dec d with
    | none => rfl
    | some p => simp

theorem seq {δ : Type} {c₂ : Codec δ} {c₂' : Codec γ} {f₂ : γ → δ} (h : Represents c c' f) (h₂ : Represents c₂ c₂' f₂) :
    Represents (c.seq c₂) (c'.seq c₂') fun p => (f p.1, f₂ p.2) where
  inj := fun p q hpq => Prod.ext (h.inj (Prod.mk.inj hpq).1) (h₂.inj (Prod.mk.inj hpq).2)
  dec d := by
    unfold Codec.seq
    simp only [h.dec]
    cases c'.dec d with
    | none => rfl
    | some p =>
      simp only [Option.map_some, Option.bind_eq_bind, Option.bind_some, h₂.dec]
      cases c₂'.dec p.2 <;> rfl

theorem decAll (h : Represents c c' f) (n : Nat) (d : Bytes) :
    c.decAll n d = (c'.decAll n d).map fun p => (p.1.map f, p.2) := by
  induction n generalizing d with
  | zero => rfl
  | succ n ih =>
    simp only [Codec.decAll, h.dec]
    cases c'.dec d with
    | none => rfl
    | some p =>
      simp only [Option.map_some, Option.bind_eq_bind, Option.bind_some, ih]
      cases c'.decAll n p.2 <;> rfl

theorem vec (h : Represents c c' f) : Represents c.vec c'.vec (List.map f) where
  inj := List.map_injective_iff.mpr h.inj
  dec d := by
    simp only [Codec.vec]
    cases (le 4).dec d with
    | none => rfl
    | some p => exact h.decAll p.1 p.2

end Represents

end Codec

/-! ## Schemas -/

namespace Schema

inductive Ty where
  | bool
  | u8
  | u64
  | raw (n : Nat)
  | bytes
  | string
  | vec (t : Ty)
  | defined (name : String)

inductive Def where
  | struct (fields : List (String × Ty))
  | enum (variants : List String)

abbrev Types := List (String × Def)

/-- What is read or written by a schema: atoms, lists, named fields and a named variant. A number need not fit the
type it is written as, and a value may be missing. -/
inductive Value where
  | undefined
  | bool (b : Bool)
  | number (n : Nat)
  | raw (b : Bytes)
  | bytes (b : Bytes)
  | string (s : String)
  | list (l : List Value)
  | record (fields : List (String × Value))
  | variant (name : String)

namespace Value

def asBool : Value → Option Bool
  | bool b => some b
  | _ => none

def asU8 : Value → Option UInt8
  | number n => if n < 2 ^ 8 then some (UInt8.ofNat n) else none
  | _ => none

def asU64 : Value → Option UInt64
  | number n => if n < 2 ^ 64 then some (UInt64.ofNat n) else none
  | _ => none

def asRaw (n : Nat) : Value → Option (List.Vector UInt8 n)
  | raw b => if h : b.length = n then some ⟨b, h⟩ else none
  | _ => none

def asBytes : Value → Option Bytes
  | bytes b => some b
  | _ => none

def asString : Value → Option String
  | string s => some s
  | _ => none

def asList : Value → Option (List Value)
  | list l => some l
  | _ => none

def asRecord : Value → Option (List (String × Value))
  | record fields => some fields
  | _ => none

def asVariant : Value → Option String
  | variant name => some name
  | _ => none

theorem bool_eq_iff (b : Bool) (x : Value) : bool b = x ↔ x.asBool = some b := by
  cases x <;> simp [asBool, eq_comm]

theorem u8_eq_iff (n : UInt8) (x : Value) : number n.toNat = x ↔ x.asU8 = some n := by
  cases x with
  | number m =>
    simp only [asU8, number.injEq, Option.ite_none_right_eq_some, Option.some.injEq]
    refine ⟨fun h => ⟨h ▸ n.toNat_lt, h ▸ UInt8.ofNat_toNat⟩, fun ⟨hlt, h⟩ => ?_⟩
    rw [← h, UInt8.toNat_ofNat_of_lt' hlt]
  | _ => simp [asU8]

theorem u64_eq_iff (n : UInt64) (x : Value) : number n.toNat = x ↔ x.asU64 = some n := by
  cases x with
  | number m =>
    simp only [asU64, number.injEq, Option.ite_none_right_eq_some, Option.some.injEq]
    refine ⟨fun h => ⟨h ▸ n.toNat_lt, h ▸ UInt64.ofNat_toNat⟩, fun ⟨hlt, h⟩ => ?_⟩
    rw [← h, UInt64.toNat_ofNat_of_lt' hlt]
  | _ => simp [asU64]

theorem raw_eq_iff {n : Nat} (v : List.Vector UInt8 n) (x : Value) : raw v.toList = x ↔ x.asRaw n = some v := by
  cases x with
  | raw b =>
    refine ⟨fun h => ?_, fun h => ?_⟩
    · cases h
      exact dif_pos v.toList_length
    · simp only [asRaw, Option.dite_none_right_eq_some] at h
      obtain ⟨_, h⟩ := h
      cases h
      rfl
  | _ => simp [asRaw]

theorem bytes_eq_iff (b : Bytes) (x : Value) : bytes b = x ↔ x.asBytes = some b := by
  cases x <;> simp [asBytes, eq_comm]

theorem string_eq_iff (s : String) (x : Value) : string s = x ↔ x.asString = some s := by
  cases x <;> simp [asString, eq_comm]

theorem list_eq_iff (l : List Value) (x : Value) : list l = x ↔ x.asList = some l := by
  cases x <;> simp [asList, eq_comm]

theorem record_eq_iff (fields : List (String × Value)) (x : Value) : record fields = x ↔ x.asRecord = some fields := by
  cases x <;> simp [asRecord, eq_comm]

theorem variant_eq_iff (name : String) (x : Value) : variant name = x ↔ x.asVariant = some name := by
  cases x <;> simp [asVariant, eq_comm]

end Value

def noFields : List (String × Value) → Option Unit
  | [] => some ()
  | _ :: _ => none

theorem nil_eq_iff (u : Unit) (l : List (String × Value)) : [] = l ↔ noFields l = some u := by
  cases l <;> simp [noFields]

def fieldNamed (name : String) : List (String × Value) → Option (Value × List (String × Value))
  | (m, v) :: l => if m = name then some (v, l) else none
  | [] => none

theorem cons_eq_iff (name : String) (p : Value × List (String × Value)) (l : List (String × Value)) :
    (name, p.1) :: p.2 = l ↔ fieldNamed name l = some p := by
  cases l with
  | nil => simp [fieldNamed]
  | cons x l =>
    by_cases h : x.1 = name
    · simp [fieldNamed, h, Prod.ext_iff, eq_comm]
    · simp [fieldNamed, h, Prod.ext_iff, eq_comm]

/-- Fields in order, each with its name. -/
def fieldsCodec (c : Ty → Codec Value) : List (String × Ty) → Codec (List (String × Value))
  | [] => Codec.unit.embed (fun _ => []) noFields nil_eq_iff
  | (name, t) :: fields =>
    ((c t).seq (fieldsCodec c fields)).embed (fun p => (name, p.1) :: p.2) (fieldNamed name) (cons_eq_iff name)

def variantAt (variants : List String) (b : UInt8) : Option String :=
  variants[b.toNat]?.filter fun name => variants.idxOf name = b.toNat

def variantByte (variants : List String) (name : String) : Option UInt8 :=
  if variants.idxOf name < variants.length ∧ variants.idxOf name < 256 then
    some (UInt8.ofNat (variants.idxOf name))
  else none

theorem variantAt_eq_some (variants : List String) (b : UInt8) (name : String) :
    variantAt variants b = some name ↔ variantByte variants name = some b := by
  simp only [variantAt, variantByte, Option.filter_eq_some_iff, decide_eq_true_eq, Option.ite_none_right_eq_some,
    Option.some.injEq]
  refine ⟨fun ⟨hget, hidx⟩ => ?_, fun ⟨⟨hlt, h256⟩, hb⟩ => ?_⟩
  · have hlt := (List.getElem?_eq_some_iff.mp hget).1
    rw [hidx]
    exact ⟨⟨hlt, b.toNat_lt⟩, UInt8.ofNat_toNat⟩
  · have hn : b.toNat = variants.idxOf name := by
      rw [← hb]
      exact UInt8.toNat_ofNat_of_lt h256
    rw [hn, List.getElem?_eq_getElem hlt, List.getElem_idxOf]
    exact ⟨rfl, rfl⟩

/-- A variant is its index in one byte. -/
def enumCodec (variants : List String) : Codec String :=
  Codec.u8.part (variantAt variants) (variantByte variants) (variantAt_eq_some variants)

section
variable (types : Types)

/-- The format of a type, with named types looked up to a depth. -/
def Ty.codec : Nat → Ty → Codec Value
  | 0, _ => .none
  | _ + 1, .bool => Codec.bool.embed .bool Value.asBool Value.bool_eq_iff
  | _ + 1, .u8 => Codec.u8.embed (fun n => .number n.toNat) Value.asU8 Value.u8_eq_iff
  | _ + 1, .u64 => Codec.u64.embed (fun n => .number n.toNat) Value.asU64 Value.u64_eq_iff
  | _ + 1, .raw n => (Codec.raw n).embed (fun v => .raw v.toList) (Value.asRaw n) Value.raw_eq_iff
  | _ + 1, .bytes => Codec.u8.vec.embed .bytes Value.asBytes Value.bytes_eq_iff
  | _ + 1, .string => Codec.string.embed .string Value.asString Value.string_eq_iff
  | n + 1, .vec t => (Ty.codec n t).vec.embed .list Value.asList Value.list_eq_iff
  | n + 1, .defined name =>
    match types.lookup name with
    | some (.struct fields) => (fieldsCodec (Ty.codec n) fields).embed .record Value.asRecord Value.record_eq_iff
    | some (.enum variants) => (enumCodec variants).embed .variant Value.asVariant Value.variant_eq_iff
    | none => .none

end

/-! ## What a schema represents -/

namespace Represents

open Codec

section
variable {α β : Type} {c : Ty → Codec Value} {c₁ : Codec α} {c₂ : Codec β} {f : α → Value}
  {g : β → List (String × Value)} {t : Ty} {fields : List (String × Ty)} {name : String}

theorem last (h : Codec.Represents (c t) c₁ f) :
    Codec.Represents (fieldsCodec c [(name, t)]) c₁ fun a => [(name, f a)] where
  inj := fun a b hab => h.inj (Prod.mk.inj (List.cons.inj hab).1).2
  dec d := by
    simp only [fieldsCodec, embed_dec, Codec.seq, h.dec]
    cases c₁.dec d <;> rfl

theorem cons (h : Codec.Represents (c t) c₁ f) (hs : Codec.Represents (fieldsCodec c fields) c₂ g) :
    Codec.Represents (fieldsCodec c ((name, t) :: fields)) (c₁.seq c₂) fun p => (name, f p.1) :: g p.2 :=
  (h.seq hs).embed _

end

variable {types : Types} {n : Nat}

theorem bool : Codec.Represents (Ty.codec types (n + 1) .bool) Codec.bool .bool := (Codec.Represents.refl _).embed _

theorem u8 : Codec.Represents (Ty.codec types (n + 1) .u8) Codec.u8 fun k => .number k.toNat :=
  (Codec.Represents.refl _).embed _

theorem u64 : Codec.Represents (Ty.codec types (n + 1) .u64) Codec.u64 fun k => .number k.toNat :=
  (Codec.Represents.refl _).embed _

theorem raw {k : Nat} : Codec.Represents (Ty.codec types (n + 1) (.raw k)) (Codec.raw k) fun v => .raw v.toList :=
  (Codec.Represents.refl _).embed _

theorem bytes : Codec.Represents (Ty.codec types (n + 1) .bytes) Codec.u8.vec .bytes :=
  (Codec.Represents.refl _).embed _

theorem string : Codec.Represents (Ty.codec types (n + 1) .string) Codec.string .string :=
  (Codec.Represents.refl _).embed _

variable {α : Type} {c' : Codec α} {name : String}

theorem vec {t : Ty} {f : α → Value} (h : Codec.Represents (Ty.codec types n t) c' f) :
    Codec.Represents (Ty.codec types (n + 1) (.vec t)) c'.vec fun l => .list (l.map f) :=
  h.vec.embed _

theorem struct {fields : List (String × Ty)} {f : α → List (String × Value)}
    (hname : types.lookup name = some (.struct fields))
    (h : Codec.Represents (fieldsCodec (Ty.codec types n) fields) c' f) :
    Codec.Represents (Ty.codec types (n + 1) (.defined name)) c' fun a => .record (f a) := by
  unfold Ty.codec
  rw [hname]
  exact h.embed _

theorem enum {variants : List String} {f : α → String} (hname : types.lookup name = some (.enum variants))
    (h : Codec.Represents (enumCodec variants) c' f) :
    Codec.Represents (Ty.codec types (n + 1) (.defined name)) c' fun a => .variant (f a) := by
  unfold Ty.codec
  rw [hname]
  exact h.embed _

theorem variantAt_map {l : List α} {name : α → String} (hname : Function.Injective name) (hl : l.Nodup) (b : UInt8) :
    variantAt (l.map name) b = l[b.toNat]?.map name := by
  unfold variantAt
  cases hget : l[b.toNat]? with
  | none => simp [hget]
  | some a =>
    obtain ⟨hlt, ha⟩ := List.getElem?_eq_some_iff.mp hget
    have hnodup : (l.map name).Nodup := hl.map hname
    have hidx := hnodup.idxOf_getElem b.toNat (by rw [List.length_map]; exact hlt)
    rw [List.getElem_map, ha] at hidx
    simp [hget, hidx]

/-- A value of an enumeration is its position in the list of variants. -/
theorem variants {l : List α} {name : α → String} (hname : Function.Injective name) (hl : l.Nodup)
    (hdec : ∀ d, c'.dec d = (Codec.u8.dec d).bind fun p => l[p.1.toNat]?.map fun a => (a, p.2)) :
    Codec.Represents (enumCodec (l.map name)) c' name where
  inj := hname
  dec d := by
    rw [hdec]
    simp only [enumCodec, part]
    cases Codec.u8.dec d with
    | none => rfl
    | some p =>
      simp only [Option.bind_eq_bind, Option.bind_some, variantAt_map hname hl]
      cases l[p.1.toNat]? <;> rfl

end Represents

end Schema
