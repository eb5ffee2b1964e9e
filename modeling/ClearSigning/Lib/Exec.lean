import Mathlib.Data.List.Basic
import Mathlib.Data.Vector.Basic

/-!
# Computations that return, fail or panic

A `Result` whose partial operations stay visible: slicing, indexing, array
conversion and checked arithmetic `panic` outside their domain, and everything
else returns a value or fails with the program's own error. The loops of such a
program are `forM`, `mapM` and `foldlM`, which leave at the first stop.
-/

/-- Why a computation did not return. -/
inductive Stop (ε : Type) where
  | err (e : ε)
  | panic
  deriving DecidableEq, Repr

abbrev Exec (ε α : Type) := Except (Stop ε) α

namespace Exec

variable {ε α β : Type}

/-- The largest `usize` of a 64-bit target. -/
def usizeMax : Nat := 2 ^ 64 - 1

/-- A borrowed slice: no allocation is larger than `isize::MAX` bytes. -/
structure Slice (α : Type) where
  toList : List α
  length_le : toList.length ≤ 2 ^ 63 - 1
  deriving DecidableEq

def fail (e : ε) : Exec ε α := .error (.err e)

def panic : Exec ε α := .error .panic

def require (c : Prop) [Decidable c] (e : ε) : Exec ε Unit := if c then .ok () else fail e

def okOr (x : Option α) (e : ε) : Exec ε α :=
  match x with
  | some a => .ok a
  | none => fail e

def index (l : List α) (i : Nat) : Exec ε α :=
  match l[i]? with
  | some a => .ok a
  | none => panic

def setIndex (l : List α) (i : Nat) (a : α) : Exec ε (List α) :=
  if i < l.length then .ok (l.set i a) else panic

/-- `l[i..j]` -/
def slice (l : List α) (i j : Nat) : Exec ε (List α) :=
  if i ≤ j ∧ j ≤ l.length then .ok ((l.take j).drop i) else panic

/-- `l[..j]` -/
def sliceTo (l : List α) (j : Nat) : Exec ε (List α) := slice l 0 j

/-- `l[i..]` -/
def sliceFrom (l : List α) (i : Nat) : Exec ε (List α) := slice l i l.length

/-- `l.try_into().unwrap()` into an array of `n`. -/
def toArray (n : Nat) (l : List α) : Exec ε (List.Vector α n) :=
  if h : l.length = n then .ok ⟨l, h⟩ else panic

def addUsize (a b : Nat) : Exec ε Nat := if a + b ≤ usizeMax then .ok (a + b) else panic

def subUsize (a b : Nat) : Exec ε Nat := if b ≤ a then .ok (a - b) else panic

def addU8 (a b : UInt8) : Exec ε UInt8 := if a.toNat + b.toNat < 256 then .ok (a + b) else panic

def subU8 (a b : UInt8) : Exec ε UInt8 := if b.toNat ≤ a.toNat then .ok (a - b) else panic

/-! ## Sequencing -/

@[simp] theorem ok_bind (a : α) (f : α → Exec ε β) : (Except.ok a >>= f) = f a := rfl

@[simp] theorem bind_ok (x : Exec ε α) : (x >>= fun a => .ok a) = x := by cases x <;> rfl

@[simp] theorem fail_bind (e : ε) (f : α → Exec ε β) : (fail e >>= f) = fail e := rfl

@[simp] theorem pure_eq (a : α) : (pure a : Exec ε α) = .ok a := rfl

@[simp] theorem fail_ne_ok (e : ε) (a : α) : (fail e : Exec ε α) ≠ .ok a := nofun

theorem bind_eq_ok {x : Exec ε α} {f : α → Exec ε β} {b : β} :
    (x >>= f) = .ok b ↔ ∃ a, x = .ok a ∧ f a = .ok b := by
  cases x with
  | error s => exact ⟨nofun, fun ⟨_, h, _⟩ => nomatch h⟩
  | ok a => simp

theorem require_bind (c : Prop) [Decidable c] (e : ε) (f : Unit → Exec ε β) :
    (require c e >>= f) = if c then f () else fail e := by
  unfold require; split <;> rfl

theorem require_bind_eq_ok {c : Prop} [Decidable c] {e : ε} {f : Unit → Exec ε β} {b : β} :
    (require c e >>= f) = .ok b ↔ c ∧ f () = .ok b := by
  rw [require_bind]; split <;> simp_all

@[simp] theorem require_pos {c : Prop} [Decidable c] (h : c) (e : ε) : require c e = .ok () := if_pos h

@[simp] theorem require_neg {c : Prop} [Decidable c] (h : ¬c) (e : ε) : require c e = fail e := if_neg h

@[simp] theorem require_eq_ok {c : Prop} [Decidable c] {e : ε} {u : Unit} : require c e = .ok u ↔ c := by
  unfold require; split <;> simp_all [fail]

theorem okOr_eq_ok {x : Option α} {e : ε} {a : α} : okOr x e = .ok a ↔ x = some a := by
  cases x <;> simp [okOr, fail]

@[simp] theorem okOr_some (a : α) (e : ε) : okOr (some a) e = .ok a := rfl

@[simp] theorem okOr_none (e : ε) : okOr (none : Option α) e = fail e := rfl

/-! ## Failing -/

theorem fail_inj {e e' : ε} : (fail e : Exec ε α) = fail e' ↔ e = e' := by
  simp [fail]

theorem bind_eq_fail {x : Exec ε α} {f : α → Exec ε β} {e : ε} :
    (x >>= f) = fail e ↔ x = fail e ∨ ∃ a, x = .ok a ∧ f a = fail e := by
  match x with
  | .error (.err e') =>
    have hx : ((.error (.err e') : Exec ε α) >>= f) = fail e' := rfl
    rw [hx, fail_inj]
    exact ⟨fun h => Or.inl (by rw [h]; rfl), fun h => by simpa [fail] using h⟩
  | .error .panic => exact ⟨nofun, by simp [fail]⟩
  | .ok a => simp [fail]

theorem require_eq_fail {c : Prop} [Decidable c] {e e' : ε} : require c e = fail e' ↔ ¬c ∧ e = e' := by
  by_cases h : c
  · rw [require_pos h]; simp [fail, h]
  · rw [require_neg h, fail_inj]; simp [h]

theorem require_bind_eq_fail {c : Prop} [Decidable c] {e e' : ε} {f : Unit → Exec ε β} :
    (require c e >>= f) = fail e' ↔ ¬c ∧ e = e' ∨ c ∧ f () = fail e' := by
  rw [bind_eq_fail, require_eq_fail]
  refine or_congr_right ⟨fun h => ?_, fun h => ⟨(), require_eq_ok.mpr h.1, h.2⟩⟩
  obtain ⟨_, hc, h⟩ := h
  exact ⟨require_eq_ok.mp hc, h⟩

theorem okOr_eq_fail {x : Option α} {e e' : ε} : okOr x e = fail e' ↔ x = none ∧ e = e' := by
  cases x with
  | none => rw [okOr_none, fail_inj]; simp
  | some a => simp [fail]

theorem okOr_bind_eq_fail {x : Option α} {e e' : ε} {f : α → Exec ε β} :
    (okOr x e >>= f) = fail e' ↔ x = none ∧ e = e' ∨ ∃ a, x = some a ∧ f a = fail e' := by
  rw [bind_eq_fail, okOr_eq_fail]
  simp only [okOr_eq_ok]

/-! ## Partial operations inside their domain -/

theorem index_of_getElem? {l : List α} {i : Nat} {a : α} (h : l[i]? = some a) :
    (index l i : Exec ε α) = .ok a := by
  unfold index; rw [h]

theorem slice_of_le {l : List α} {i j : Nat} (hi : i ≤ j) (hj : j ≤ l.length) :
    (slice l i j : Exec ε (List α)) = .ok ((l.take j).drop i) := if_pos ⟨hi, hj⟩

theorem sliceTo_of_le {l : List α} {j : Nat} (hj : j ≤ l.length) :
    (sliceTo l j : Exec ε (List α)) = .ok (l.take j) := slice_of_le (Nat.zero_le _) hj

theorem sliceFrom_of_le {l : List α} {i : Nat} (hi : i ≤ l.length) :
    (sliceFrom l i : Exec ε (List α)) = .ok (l.drop i) := by
  rw [sliceFrom, slice_of_le hi (Nat.le_refl _), List.take_length]

theorem toArray_of_length {n : Nat} {l : List α} (h : l.length = n) :
    (toArray n l : Exec ε (List.Vector α n)) = .ok ⟨l, h⟩ := dif_pos h

theorem toArray_eq_ok {n : Nat} {l : List α} {v : List.Vector α n} :
    (toArray n l : Exec ε (List.Vector α n)) = .ok v ↔ l = v.toList := by
  refine ⟨fun h => ?_, fun h => ?_⟩
  · unfold toArray at h
    split at h
    · cases h; rfl
    · cases h
  · subst h
    exact toArray_of_length v.toList_length

theorem addUsize_of_le {a b : Nat} (h : a + b ≤ usizeMax) : (addUsize a b : Exec ε Nat) = .ok (a + b) := if_pos h

theorem subUsize_of_le {a b : Nat} (h : b ≤ a) : (subUsize a b : Exec ε Nat) = .ok (a - b) := if_pos h

/-! ## Loops -/

@[simp] theorem forM_cons (f : α → Exec ε Unit) (x : α) (l : List α) :
    (x :: l).forM f = (f x >>= fun _ => l.forM f) := rfl

theorem forM_eq_ok {f : α → Exec ε Unit} {l : List α} : l.forM f = .ok () ↔ ∀ x ∈ l, f x = .ok () := by
  induction l with
  | nil => simp
  | cons x l ih =>
    rw [forM_cons, bind_eq_ok, List.forall_mem_cons, ← ih]
    exact ⟨fun ⟨_, hx, hl⟩ => ⟨hx, hl⟩, fun ⟨hx, hl⟩ => ⟨(), hx, hl⟩⟩

theorem mapM_eq_ok {f : α → Exec ε β} {l : List α} {ys : List β} :
    l.mapM f = .ok ys ↔ List.Forall₂ (fun x y => f x = .ok y) l ys := by
  induction l generalizing ys with
  | nil => simp [eq_comm]
  | cons x l ih =>
    simp only [List.mapM_cons, bind_eq_ok, pure_eq, Except.ok.injEq, ih, List.forall₂_cons_left_iff]
    refine ⟨fun h => ?_, fun h => ?_⟩
    · obtain ⟨y, hy, zs, hz, rfl⟩ := h; exact ⟨y, zs, hy, hz, rfl⟩
    · obtain ⟨y, zs, hy, hz, rfl⟩ := h; exact ⟨y, hy, zs, hz, rfl⟩

theorem exists_mapM_eq_ok {f : α → Exec ε β} {l : List α} :
    (∃ ys, l.mapM f = .ok ys) ↔ ∀ x ∈ l, ∃ y, f x = .ok y := by
  induction l with
  | nil => exact ⟨fun _ => nofun, fun _ => ⟨[], rfl⟩⟩
  | cons x l ih =>
    rw [List.forall_mem_cons, ← ih]
    simp only [List.mapM_cons, bind_eq_ok, pure_eq]
    refine ⟨fun ⟨_, y, hy, ys, hys, _⟩ => ⟨⟨y, hy⟩, ys, hys⟩, fun ⟨⟨y, hy⟩, ys, hys⟩ => ⟨y :: ys, y, hy, ys, hys, rfl⟩⟩

theorem mapM_eq_some {f : α → Option β} {l : List α} {ys : List β} :
    l.mapM f = some ys ↔ List.Forall₂ (fun x y => f x = some y) l ys := by
  induction l generalizing ys with
  | nil => simp [eq_comm]
  | cons x l ih =>
    simp only [List.mapM_cons, Option.bind_eq_bind, Option.bind_eq_some_iff, Option.pure_def, Option.some.injEq,
      ih, List.forall₂_cons_left_iff]
    refine ⟨fun h => ?_, fun h => ?_⟩
    · obtain ⟨y, hy, zs, hz, rfl⟩ := h; exact ⟨y, zs, hy, hz, rfl⟩
    · obtain ⟨y, zs, hy, hz, rfl⟩ := h; exact ⟨y, hy, zs, hz, rfl⟩

theorem exists_mapM {f : α → Option β} {l : List α} (h : ∀ x ∈ l, (f x).isSome) : ∃ ys, l.mapM f = some ys := by
  induction l with
  | nil => exact ⟨[], rfl⟩
  | cons x l ih =>
    rw [List.forall_mem_cons] at h
    obtain ⟨y, hy⟩ := Option.isSome_iff_exists.mp h.1
    obtain ⟨ys, hys⟩ := ih h.2
    exact ⟨y :: ys, mapM_eq_some.mpr (.cons hy (mapM_eq_some.mp hys))⟩

theorem map_eq_map_forall₂ {γ : Type} {f : α → γ} {g : β → γ} {l : List α} {ys : List β} :
    l.map f = ys.map g ↔ List.Forall₂ (fun x y => f x = g y) l ys := by
  rw [← List.forall₂_eq_eq_eq, List.forall₂_map_left_iff, List.forall₂_map_right_iff]

theorem exists_left_of_mem {R : α → β → Prop} {l : List α} {ys : List β} (h : List.Forall₂ R l ys) {y : β}
    (hy : y ∈ ys) : ∃ x ∈ l, R x y := by
  induction h with
  | nil => cases hy
  | cons hxy _ ih =>
    rcases List.mem_cons.mp hy with rfl | hy
    · exact ⟨_, List.mem_cons_self, hxy⟩
    · obtain ⟨x, hx, hr⟩ := ih hy
      exact ⟨x, List.mem_cons_of_mem _ hx, hr⟩

theorem exists_right_of_mem {R : α → β → Prop} {l : List α} {ys : List β} (h : List.Forall₂ R l ys) {x : α}
    (hx : x ∈ l) : ∃ y ∈ ys, R x y := by
  have hflip : List.Forall₂ (flip R) ys l := h.flip
  exact exists_left_of_mem hflip hx

theorem forall₂_append_left {R : α → β → Prop} {l₁ l₂ : List α} {ys : List β} (h : List.Forall₂ R (l₁ ++ l₂) ys) :
    ∃ a b, ys = a ++ b ∧ List.Forall₂ R l₁ a ∧ List.Forall₂ R l₂ b := by
  induction l₁ generalizing ys with
  | nil => exact ⟨[], ys, rfl, .nil, h⟩
  | cons x l₁ ih =>
    obtain ⟨y, l', hxy, htail, rfl⟩ := List.forall₂_cons_left_iff.mp h
    obtain ⟨a, b, rfl, ha, hb⟩ := ih htail
    exact ⟨y :: a, b, rfl, .cons hxy ha, hb⟩

theorem forall₂_singleton_left {R : α → β → Prop} {x : α} {ys : List β} (h : List.Forall₂ R [x] ys) :
    ∃ y, ys = [y] ∧ R x y := by
  obtain ⟨y, l', hxy, htail, rfl⟩ := List.forall₂_cons_left_iff.mp h
  cases htail
  exact ⟨y, rfl, hxy⟩

/-- Two mapped lists are the same where the loop that undoes `g` succeeds. -/
theorem map_eq_map_iff {γ : Type} {f : α → γ} {g : β → γ} {k : α → Option β} (h : ∀ x y, f x = g y ↔ k x = some y)
    {l : List α} {ys : List β} : l.map f = ys.map g ↔ l.mapM k = some ys := by
  rw [mapM_eq_some, map_eq_map_forall₂]
  simp only [h]

/-- A loop over steps that succeed on the values of `g` only. -/
theorem mapM_eq_some_map {γ : Type} {f : α → Option β} {g : γ → α} {k : γ → β}
    (h : ∀ x y, f x = some y ↔ ∃ z, x = g z ∧ y = k z) {l : List α} {ys : List β} :
    l.mapM f = some ys ↔ ∃ zs : List γ, l = zs.map g ∧ ys = zs.map k := by
  rw [mapM_eq_some]
  refine ⟨fun hall => ?_, fun ⟨zs, hl, hys⟩ => ?_⟩
  · induction hall with
    | nil => exact ⟨[], rfl, rfl⟩
    | cons hx _ ih =>
      obtain ⟨z, rfl, rfl⟩ := (h _ _).mp hx
      obtain ⟨zs, rfl, rfl⟩ := ih
      exact ⟨z :: zs, rfl, rfl⟩
  · rw [hl, hys, List.forall₂_map_left_iff, List.forall₂_map_right_iff, List.forall₂_same]
    exact fun z _ => (h _ _).mpr ⟨z, rfl, rfl⟩

/-- A loop fails at one element, after elements that passed. -/
theorem mapM_eq_fail {f : α → Exec ε β} {l : List α} {e : ε} : l.mapM f = fail e ↔
    ∃ pre x post ys, l = pre ++ x :: post ∧ pre.mapM f = .ok ys ∧ f x = fail e := by
  induction l with
  | nil =>
    refine ⟨nofun, fun ⟨pre, x, post, ys, h, _⟩ => ?_⟩
    cases pre <;> cases h
  | cons x l ih =>
    simp only [List.mapM_cons, bind_eq_fail, ih, pure_eq]
    refine ⟨fun h => ?_, fun ⟨pre, z, post, ys, hl, hpre, hz⟩ => ?_⟩
    · rcases h with hx | ⟨y, hy, ⟨pre, z, post, ys, rfl, hpre, hz⟩ | ⟨_, _, h⟩⟩
      · exact ⟨[], x, l, [], rfl, rfl, hx⟩
      · refine ⟨x :: pre, z, post, y :: ys, rfl, ?_, hz⟩
        rw [List.mapM_cons, hy, ok_bind, hpre, ok_bind, pure_eq]
      · cases h
    · cases pre with
      | nil =>
        cases hl
        exact Or.inl hz
      | cons a pre =>
        cases hl
        rw [List.mapM_cons] at hpre
        obtain ⟨y, hy, hpre⟩ := bind_eq_ok.mp hpre
        obtain ⟨zs, hzs, -⟩ := bind_eq_ok.mp hpre
        exact Or.inr ⟨y, hy, Or.inl ⟨pre, z, post, zs, rfl, hzs, hz⟩⟩

theorem mapM_congr {f g : α → Exec ε β} {l : List α} (h : ∀ x ∈ l, f x = g x) : l.mapM f = l.mapM g := by
  induction l with
  | nil => rfl
  | cons x l ih =>
    rw [List.forall_mem_cons] at h
    rw [List.mapM_cons, List.mapM_cons, h.1, ih h.2]

/-- A loop pushing a looked-up element each round fails exactly when some lookup does. -/
theorem foldlM_push (f : α → Option β) (e : ε) (l : List α) (acc : List β) :
    l.foldlM (fun acc x => okOr (f x) e >>= fun y => .ok (acc ++ [y])) acc =
      if ∀ x ∈ l, (f x).isSome then .ok (acc ++ l.filterMap f) else fail e := by
  induction l generalizing acc with
  | nil => simp
  | cons x l ih =>
    rw [List.foldlM_cons]
    cases hx : f x with
    | none => simp [hx]
    | some y => simp [hx, ih]

theorem foldlM_of_ok {f : β → α → Exec ε β} {g : β → α → β} (h : ∀ b x, f b x = .ok (g b x)) (l : List α) (b : β) :
    l.foldlM f b = .ok (l.foldl g b) := by
  induction l generalizing b with
  | nil => rfl
  | cons x l ih => rw [List.foldlM_cons, h, ok_bind, ih, List.foldl_cons]

/-- Filling an array cell by cell is collecting the values. -/
theorem foldlM_setIndex (f : Nat → Exec ε α) (a : α) (n : Nat) :
    (List.range n).foldlM (fun out i => f i >>= fun x => setIndex out i x) (List.replicate n a) =
      (List.range n).mapM f := by
  have key : ∀ k m, (List.range k).foldlM (fun out i => f i >>= fun x => setIndex out i x)
      (List.replicate (k + m) a) = ((List.range k).mapM f >>= fun xs => .ok (xs ++ List.replicate m a)) := by
    intro k
    induction k with
    | zero => intro m; simp
    | succ k ih =>
      intro m
      rw [List.range_succ, List.foldlM_append, List.mapM_append, show k + 1 + m = k + (m + 1) by omega, ih]
      cases hx : (List.range k).mapM f with
      | error s => rfl
      | ok xs =>
        have hl : xs.length = k := by
          have := (mapM_eq_ok.mp hx).length_eq
          simpa using this.symm
        cases hy : f k with
        | error s => simp [hy]; rfl
        | ok y => simp [hy, setIndex, hl, List.replicate_succ]
  have := key n 0
  simpa using this

/-- The elements two at a time. -/
def pairUp : List α → List (α × α)
  | a :: b :: l => (a, b) :: pairUp l
  | _ => []

theorem pairUp_length {n : Nat} {l : List α} (h : l.length = 2 * n) : (pairUp l).length = n := by
  induction n generalizing l with
  | zero => rw [List.eq_nil_of_length_eq_zero h]; rfl
  | succ n ih =>
    match l, h with
    | a :: b :: l, h =>
      have hl : l.length = 2 * n := by simp only [List.length_cons] at h; omega
      rw [pairUp, List.length_cons, ih hl]

theorem mapM_range_pairs (f : α → α → Exec ε β) : ∀ (n : Nat) (l : List α), l.length = 2 * n →
    ((List.range n).mapM fun i => do
      let a ← index l (2 * i)
      let b ← index l (2 * i + 1)
      f a b) = (pairUp l).mapM fun p => f p.1 p.2
  | 0, l, h => by
    have : l = [] := by simpa using h
    subst this; rfl
  | n + 1, a :: b :: l, h => by
    have hl : l.length = 2 * n := by simp only [List.length_cons] at h; omega
    have hi : ∀ i, (index (a :: b :: l) (2 * (i + 1)) : Exec ε α) = index l (2 * i) := fun i => by
      simp only [index, show 2 * (i + 1) = 2 * i + 1 + 1 by omega, List.getElem?_cons_succ]
    have hj : ∀ i, (index (a :: b :: l) (2 * (i + 1) + 1) : Exec ε α) = index l (2 * i + 1) := fun i => by
      simp only [index, show 2 * (i + 1) + 1 = 2 * i + 1 + 1 + 1 by omega, List.getElem?_cons_succ]
    rw [List.range_succ_eq_map, List.mapM_cons, List.mapM_map, pairUp, List.mapM_cons]
    simp only [Function.comp_def, hi, hj, mapM_range_pairs f n l hl]
    rfl

/-! ## The first of a list of failures -/

/-- Fail with the first of the failures found, if any. -/
def verdict : List ε → Exec ε Unit
  | [] => .ok ()
  | e :: _ => fail e

theorem verdict_append (a b : List ε) : verdict (a ++ b) = (verdict a >>= fun _ => verdict b) := by
  cases a <;> rfl

/-- Checking each element of `l'` against the value its partner in `l` stands for. -/
theorem forM_zip_verdict {γ : Type} {f : α → Option γ} {g : α → β → Exec ε Unit} {d : γ → β → List ε}
    (hg : ∀ x y z, f x = some z → g x y = verdict (d z y)) : ∀ {l : List α} {zs : List γ} (ys : List β),
    l.mapM f = some zs →
      ((l.zip ys).forM fun p => g p.1 p.2) = verdict ((zs.zip ys).flatMap fun p => d p.1 p.2) := by
  intro l zs ys h
  rw [mapM_eq_some] at h
  induction h generalizing ys with
  | nil => rfl
  | cons hx _ ih =>
    cases ys with
    | nil => rfl
    | cons y ys =>
      rw [List.zip_cons_cons, List.zip_cons_cons, forM_cons, hg _ y _ hx, ih ys, List.flatMap_cons, verdict_append]

theorem forM_zip_eq_ok {g : α → β → Exec ε Unit} {l : List α} {ys : List β} :
    (l.length = ys.length ∧ ((l.zip ys).forM fun p => g p.1 p.2) = .ok ()) ↔
      List.Forall₂ (fun x y => g x y = .ok ()) l ys := by
  rw [List.forall₂_iff_zip, forM_eq_ok]
  exact and_congr_right fun _ => ⟨fun h _ _ hm => h _ hm, fun h _ hm => h hm⟩

theorem forM_zip_eq_fail {g : α → β → Exec ε Unit} {e : ε} : ∀ {l : List α} {ys : List β}, l.length = ys.length →
    (((l.zip ys).forM fun p => g p.1 p.2) = fail e ↔ ∃ pre x post pre' y post', l = pre ++ x :: post ∧
      ys = pre' ++ y :: post' ∧ List.Forall₂ (fun x y => g x y = .ok ()) pre pre' ∧ g x y = fail e)
  | [], [], _ => by
    refine ⟨nofun, fun ⟨pre, x, post, _, _, _, h, _⟩ => ?_⟩
    cases pre <;> cases h
  | x :: l, y :: ys, hl => by
    have ih := @forM_zip_eq_fail g e l ys (Nat.succ.inj hl)
    rw [List.zip_cons_cons, forM_cons, bind_eq_fail, ih]
    refine ⟨fun h => ?_, fun ⟨pre, a, post, pre', b, post', hx, hy, hpre, h⟩ => ?_⟩
    · rcases h with h | ⟨_, hok, pre, a, post, pre', b, post', rfl, rfl, hpre, h⟩
      · exact ⟨[], x, l, [], y, ys, rfl, rfl, .nil, h⟩
      · exact ⟨x :: pre, a, post, y :: pre', b, post', rfl, rfl, .cons hok hpre, h⟩
    · cases hpre with
      | nil =>
        cases hx
        cases hy
        exact Or.inl h
      | cons hok hpre =>
        cases hx
        cases hy
        exact Or.inr ⟨(), hok, _, a, post, _, b, post', rfl, rfl, hpre, h⟩

theorem require_eq_verdict (c : Prop) [Decidable c] (e : ε) :
    require c e = verdict (if c then [] else [e]) := by
  unfold require; split <;> rfl

theorem verdict_cases (l : List ε) : verdict l = .ok () ∨ ∃ e, verdict l = fail e := by
  cases l with
  | nil => exact Or.inl rfl
  | cons e l => exact Or.inr ⟨e, rfl⟩

theorem verdict_eq_ok {l : List ε} : verdict l = .ok () ↔ l = [] := by
  cases l <;> simp [verdict]

end Exec
