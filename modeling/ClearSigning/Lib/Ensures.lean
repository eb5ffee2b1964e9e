import ClearSigning.Lib.Exec

/-!
# Running without a panic

`Ensures x P E` says that `x` returns a value with `P` or fails with an error
that `E` admits, and in no case panics. The rules follow the shape of a
program: a guard is known in what comes after it, and a loop has an invariant
over the elements done so far.
-/

namespace Exec

variable {ε α β : Type}

def Ensures (x : Exec ε α) (P : α → Prop) (E : ε → Prop) : Prop :=
  match x with
  | .ok a => P a
  | .error (.err e) => E e
  | .error .panic => False

/-- No panic, whatever is returned or reported. -/
abbrev NoPanic (x : Exec ε α) : Prop := Ensures x (fun _ => True) fun _ => True

namespace Ensures

section
variable {x : Exec ε α} {P P' : α → Prop} {E E' : ε → Prop}

theorem ok {a : α} (h : P a) : Ensures (.ok a) P E := h

theorem fail {e : ε} (h : E e) : Ensures (Exec.fail e) P E := h

theorem cases (h : Ensures x P E) : (∃ a, x = .ok a ∧ P a) ∨ ∃ e, x = Exec.fail e ∧ E e := by
  match x, h with
  | .ok a, h => exact Or.inl ⟨a, rfl, h⟩
  | .error (.err e), h => exact Or.inr ⟨e, rfl, h⟩

theorem mono (h : Ensures x P E) (hp : ∀ a, P a → P' a) (he : ∀ e, E e → E' e) :
    Ensures x P' E' := by
  rcases h.cases with ⟨a, rfl, ha⟩ | ⟨e, rfl, hx⟩
  · exact ok (hp a ha)
  · exact fail (he e hx)

theorem noPanic (h : Ensures x P E) : NoPanic x := h.mono (fun _ _ => trivial) fun _ _ => trivial

end

section
variable {P : β → Prop} {E : ε → Prop}

theorem bind {x : Exec ε α} {f : α → Exec ε β} {Q : α → Prop} (hx : Ensures x Q E)
    (hf : ∀ a, Q a → Ensures (f a) P E) : Ensures (x >>= f) P E := by
  rcases hx.cases with ⟨a, rfl, ha⟩ | ⟨e, rfl, he⟩
  · exact hf a ha
  · exact fail he

theorem require_bind {c : Prop} [Decidable c] {e : ε} {f : Unit → Exec ε β} (he : ¬c → E e)
    (hf : c → Ensures (f ()) P E) : Ensures (require c e >>= f) P E := by
  by_cases h : c
  · rw [require_pos h]
    exact hf h
  · rw [require_neg h]
    exact fail (he h)

theorem okOr_bind {x : Option α} {e : ε} {f : α → Exec ε β} (he : x = none → E e)
    (hf : ∀ a, x = some a → Ensures (f a) P E) : Ensures (okOr x e >>= f) P E := by
  cases x with
  | none => exact fail (he rfl)
  | some a => exact hf a rfl

end

theorem require {c : Prop} [Decidable c] {e : ε} {E : ε → Prop} (he : ¬c → E e) :
    Ensures (require c e) (fun _ => c) E := by
  by_cases h : c
  · rw [require_pos h]
    exact ok h
  · rw [require_neg h]
    exact fail (he h)

theorem okOr {x : Option α} {e : ε} {E : ε → Prop} (he : x = none → E e) :
    Ensures (okOr x e) (fun a => x = some a) E := by
  cases x with
  | none => exact fail (he rfl)
  | some a => exact ok rfl

/-! ## Loops -/

section
variable {E : ε → Prop}

theorem forM {f : α → Exec ε Unit} {l : List α} (h : ∀ x ∈ l, Ensures (f x) (fun _ => True) E) :
    Ensures (l.forM f) (fun _ => True) E := by
  induction l with
  | nil => exact ok trivial
  | cons x l ih =>
    rw [List.forall_mem_cons] at h
    rw [forM_cons]
    exact bind h.1 fun _ _ => ih h.2

theorem mapM {f : α → Exec ε β} {P : α → β → Prop} {l : List α} (h : ∀ x ∈ l, Ensures (f x) (P x) E) :
    Ensures (l.mapM f) (fun ys => List.Forall₂ P l ys) E := by
  induction l with
  | nil => exact ok .nil
  | cons x l ih =>
    rw [List.forall_mem_cons] at h
    rw [List.mapM_cons]
    refine bind h.1 fun y hy => bind (ih h.2) fun ys hys => ?_
    exact ok (.cons hy hys)

/-- `I pre b`: after the elements `pre` the accumulator may be `b`. -/
theorem foldlM {f : β → α → Exec ε β} {I : List α → β → Prop} {l : List α} {b : β} (hb : I [] b)
    (hstep : ∀ pre x suf b, l = pre ++ x :: suf → I pre b → Ensures (f b x) (I (pre ++ [x])) E) :
    Ensures (l.foldlM f b) (I l) E := by
  induction l generalizing b I with
  | nil => exact ok hb
  | cons x l ih =>
    rw [List.foldlM_cons]
    refine bind (hstep [] x l b rfl hb) fun c hc => ih (I := fun pre => I (x :: pre)) hc ?_
    intro pre y suf d hl hd
    exact hstep (x :: pre) y suf d (by rw [hl]; rfl) hd

end

end Ensures

namespace NoPanic

theorem require (c : Prop) [Decidable c] (e : ε) : NoPanic (require c e) :=
  (Ensures.require fun _ => trivial : Ensures _ _ fun _ => True).noPanic

theorem okOr (x : Option α) (e : ε) : NoPanic (okOr x e) :=
  (Ensures.okOr fun _ => trivial : Ensures _ _ fun _ => True).noPanic

theorem require_bind {c : Prop} [Decidable c] {e : ε} {f : Unit → Exec ε β} (h : c → NoPanic (f ())) :
    NoPanic (Exec.require c e >>= f) := Ensures.require_bind (fun _ => trivial) h

theorem okOr_bind {x : Option α} {e : ε} {f : α → Exec ε β} (h : ∀ a, x = some a → NoPanic (f a)) :
    NoPanic (Exec.okOr x e >>= f) := Ensures.okOr_bind (fun _ => trivial) h

theorem unit_cases {x : Exec ε Unit} (h : NoPanic x) : x = .ok () ∨ ∃ e, x = fail e := by
  rcases Ensures.cases h with ⟨_, h, -⟩ | ⟨e, h, -⟩
  · exact Or.inl h
  · exact Or.inr ⟨e, h⟩

/-- A computation that does not panic reports one error exactly where it does not return. -/
theorem exists_unique_fail {x : Exec ε Unit} (h : NoPanic x) : (∃! e, x = fail e) ↔ ¬x = .ok () := by
  refine ⟨fun ⟨e, he, _⟩ hok => fail_ne_ok _ _ (he.symm.trans hok), fun hnot => ?_⟩
  obtain ⟨e, he⟩ := (unit_cases h).resolve_left hnot
  exact ⟨e, he, fun e' he' => fail_inj.mp (he'.symm.trans he)⟩

end NoPanic

end Exec
