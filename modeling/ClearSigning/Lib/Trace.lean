import Mathlib.Data.List.Basic

/-!
# Runs of a partial transition function

`step s a` is the state after `a`, or `none` where `a` is refused. A run takes a
list of labels. What every allowed label keeps, a run of allowed labels keeps; in
particular a view of the state that is frozen at one point still holds at a later
one, which is what a check made before a use rests on. What relates the states
around each label relates the ends of a run, what a run brings about one of its
labels does, and labels that change nothing can be left out.
-/

namespace Trace

variable {σ ℓ β : Type} (step : σ → ℓ → Option σ)

def run (s : σ) (l : List ℓ) : Option σ := l.foldlM step s

variable {step} {s t : σ} {l : List ℓ}

@[simp] theorem run_nil : run step s [] = some s := rfl

theorem run_cons {a : ℓ} : run step s (a :: l) = some t ↔ ∃ u, step s a = some u ∧ run step u l = some t := by
  unfold run
  rw [List.foldlM_cons, Option.bind_eq_bind, Option.bind_eq_some_iff]

theorem run_append {l' : List ℓ} :
    run step s (l ++ l') = some t ↔ ∃ u, run step s l = some u ∧ run step u l' = some t := by
  unfold run
  rw [List.foldlM_append, Option.bind_eq_bind, Option.bind_eq_some_iff]

/-- The states around one label of a run. -/
theorem run_split {a : ℓ} {l' : List ℓ} : run step s (l ++ a :: l') = some t ↔
    ∃ u v, run step s l = some u ∧ step u a = some v ∧ run step v l' = some t := by
  simp only [run_append, run_cons, exists_and_left]

theorem run_invariant {P : σ → Prop} {ok : ℓ → Prop} (hstep : ∀ {s a t}, P s → ok a → step s a = some t → P t)
    (hs : P s) (hl : ∀ a ∈ l, ok a) (h : run step s l = some t) : P t := by
  induction l generalizing s with
  | nil =>
    rw [run_nil, Option.some.injEq] at h
    exact h ▸ hs
  | cons a l ih =>
    rw [List.forall_mem_cons] at hl
    obtain ⟨u, hu, h⟩ := run_cons.mp h
    exact ih (hstep hs hl.1 hu) hl.2 h

/-- A view `f` that allowed labels leave alone while `F` holds of it is the same at the end of a run. -/
theorem run_frozen {f : σ → β} {F : β → Prop} {ok : ℓ → Prop}
    (hstep : ∀ {s a t}, F (f s) → ok a → step s a = some t → f t = f s)
    (hs : F (f s)) (hl : ∀ a ∈ l, ok a) (h : run step s l = some t) : f t = f s := by
  have hinv : ∀ {u a v}, f u = f s → ok a → step u a = some v → f v = f s := by
    intro u a v hu ha hv
    exact (hstep (hu ▸ hs) ha hv).trans hu
  exact run_invariant (P := fun u => f u = f s) hinv rfl hl h

theorem run_congr {step' : σ → ℓ → Option σ} (h : ∀ a ∈ l, ∀ s, step s a = step' s a) :
    run step s l = run step' s l := by
  induction l generalizing s with
  | nil => rfl
  | cons a l ih =>
    rw [List.forall_mem_cons] at h
    unfold run at ih ⊢
    rw [List.foldlM_cons, List.foldlM_cons, h.1]
    exact congrArg _ (funext fun u => ih h.2)

theorem run_map {κ : Type} (f : κ → ℓ) (l : List κ) :
    run step s (l.map f) = run (fun s a => step s (f a)) s l := List.foldlM_map ..

/-- A transition that is never refused runs as a fold. -/
theorem run_total (f : σ → ℓ → σ) : run (fun s a => some (f s a)) s l = some (l.foldl f s) := by
  induction l generalizing s with
  | nil => rfl
  | cons a l ih => exact run_cons.mpr ⟨_, rfl, ih⟩

/-- What relates the states around every label of a run relates its ends. -/
theorem run_related {R : σ → σ → Prop} (hrefl : ∀ s, R s s) (htrans : ∀ {s t u}, R s t → R t u → R s u)
    (hstep : ∀ {s a t}, a ∈ l → step s a = some t → R s t) (h : run step s l = some t) : R s t := by
  have hinv : ∀ {u a v}, R s u → a ∈ l → step u a = some v → R s v := by
    intro u a v hu ha hv
    exact htrans hu (hstep ha hv)
  exact run_invariant (P := R s) hinv (hrefl s) (fun _ ha => ha) h

/-- What holds at the end of a run and not at its start was brought about by one label of it. -/
theorem run_first {P : σ → Prop} (hs : ¬P s) (h : run step s l = some t) (ht : P t) :
    ∃ pre a post u v, l = pre ++ a :: post ∧ run step s pre = some u ∧ ¬P u ∧ step u a = some v ∧ P v ∧
      run step v post = some t := by
  induction l generalizing s with
  | nil =>
    rw [run_nil, Option.some.injEq] at h
    exact absurd (h ▸ ht) hs
  | cons a l ih =>
    obtain ⟨u, hu, h⟩ := run_cons.mp h
    by_cases hPu : P u
    · exact ⟨[], a, l, s, u, rfl, rfl, hs, hu, hPu, h⟩
    · obtain ⟨pre, b, post, v, w, rfl, hpre, hv, hw, hPw, hpost⟩ := ih hPu h
      exact ⟨a :: pre, b, post, v, w, rfl, run_cons.mpr ⟨u, hu, hpre⟩, hv, hw, hPw, hpost⟩

/-- What a view `f` shows at the end of a run is what the last label that could change it left there. -/
theorem run_last {f : σ → β} {changes : ℓ → Prop} (hstep : ∀ {s a t}, ¬changes a → step s a = some t → f t = f s)
    (h : run step s l = some t) : (∀ a ∈ l, ¬changes a) ∧ f t = f s ∨
      ∃ pre a post u v, l = pre ++ a :: post ∧ changes a ∧ (∀ b ∈ post, ¬changes b) ∧ run step s pre = some u ∧
        step u a = some v ∧ f t = f v := by
  induction l generalizing s with
  | nil =>
    rw [run_nil, Option.some.injEq] at h
    exact .inl ⟨fun _ ha => absurd ha List.not_mem_nil, h ▸ rfl⟩
  | cons a l ih =>
    obtain ⟨u, hu, h⟩ := run_cons.mp h
    rcases ih h with ⟨hl, hf⟩ | ⟨pre, b, post, v, w, rfl, hb, hpost, hpre, hv, hf⟩
    · by_cases ha : changes a
      · exact .inr ⟨[], a, l, s, u, rfl, ha, hl, rfl, hu, hf⟩
      · exact .inl ⟨List.forall_mem_cons.mpr ⟨ha, hl⟩, hf.trans (hstep ha hu)⟩
    · exact .inr ⟨a :: pre, b, post, v, w, rfl, hb, hpost, run_cons.mpr ⟨u, hu, hpre⟩, hv, hf⟩

/-- Labels that leave the state alone wherever they are allowed can be left out of a run. -/
theorem run_filter {keep : ℓ → Bool} (hstep : ∀ {s a t}, a ∈ l → keep a = false → step s a = some t → t = s)
    (h : run step s l = some t) : run step s (l.filter keep) = some t := by
  induction l generalizing s with
  | nil => exact h
  | cons a l ih =>
    obtain ⟨u, hu, h⟩ := run_cons.mp h
    have htail := ih (fun {_ _ _} ha => hstep (List.mem_cons_of_mem a ha)) h
    cases hk : keep a with
    | true =>
      rw [List.filter_cons_of_pos hk]
      exact run_cons.mpr ⟨u, hu, htail⟩
    | false =>
      rw [List.filter_cons_of_neg (by rw [hk]; exact Bool.false_ne_true)]
      rwa [hstep (List.mem_cons_self ..) hk hu] at htail

end Trace
