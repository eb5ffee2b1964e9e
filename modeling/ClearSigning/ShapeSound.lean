import ClearSigning.Validation

/-!
# The shape check is a predicate of single instructions

The loop stops at the first instruction that is not allowed, with an error that
depends on that instruction alone; otherwise it counts the votes. Acceptance is
therefore membership only: every instruction allowed and one of them a vote.
-/

namespace ClearSigning

open Exec

variable (e : VoteExpectation)

/-- Skipped whatever it holds. -/
def Exempt (ix : Instruction) : Prop := ix.programId = e.selfProgram ∨ ix.programId = computeBudgetProgramId

instance (ix : Instruction) : Decidable (Exempt e ix) := inferInstanceAs (Decidable (_ ∨ _))

/-- The vote content: the action's discriminator, then multisig, signing member and proposal. -/
structure VoteContent (ix : Instruction) : Prop where
  eight_le : 8 ≤ ix.data.length
  discriminator : ix.data.take 8 = e.action.discriminator
  accounts : ∃ multisig member proposal rest, ix.accounts = multisig :: member :: proposal :: rest ∧
    multisig.pubkey = e.multisig ∧ member.pubkey = e.member ∧ member.isSigner = true ∧
    proposal.pubkey = e.proposal

def MatchingVote (ix : Instruction) : Prop := ix.programId = squadsProgramId ∧ VoteContent e ix

def Allowed (ix : Instruction) : Prop := Exempt e ix ∨ MatchingVote e ix

/-- A vote the loop counts: not skipped before it is looked at. -/
def Counts (ix : Instruction) : Prop := ¬Exempt e ix ∧ MatchingVote e ix

/-! ## One instruction -/

variable {e}

theorem exists_three {l : List AccountMeta} (h : 3 ≤ l.length) : ∃ a b c rest, l = a :: b :: c :: rest := by
  match l, h with
  | a :: b :: c :: rest, _ => exact ⟨a, b, c, rest, rfl⟩

theorem validateVote_eq_ok {ix : Instruction} : validateVote e ix = .ok () ↔ VoteContent e ix := by
  unfold validateVote
  rw [require_bind_eq_ok]
  refine ⟨fun ⟨hd, h⟩ => ?_, fun h => ⟨h.eight_le, ?_⟩⟩
  · rw [sliceTo_of_le hd, ok_bind, require_bind_eq_ok, require_bind_eq_ok] at h
    obtain ⟨hv, hl, h⟩ := h
    obtain ⟨a, b, c, rest, ha⟩ := exists_three hl
    simp only [ha, index, List.getElem?_cons_zero, List.getElem?_cons_succ, ok_bind, require_bind_eq_ok,
      require_eq_ok] at h
    exact ⟨hd, hv, a, b, c, rest, ha, h⟩
  · obtain ⟨a, b, c, rest, ha, h1, h2, h3, h4⟩ := h.accounts
    rw [sliceTo_of_le h.eight_le, ok_bind, require_pos h.discriminator, ok_bind, ha,
      require_pos (by rw [List.length_cons, List.length_cons, List.length_cons]; omega), ok_bind]
    simp only [index, List.getElem?_cons_zero, List.getElem?_cons_succ, ok_bind, require_bind_eq_ok, require_eq_ok]
    exact ⟨h1, h2, h3, h4⟩

/-- The accounts are indexed only where there are three of them, so nothing panics. -/
theorem validateVote_cases (e : VoteExpectation) (ix : Instruction) :
    validateVote e ix = .ok () ∨ ∃ x, validateVote e ix = fail x := by
  unfold validateVote
  by_cases hd : 8 ≤ ix.data.length
  · rw [require_pos hd, ok_bind, sliceTo_of_le hd, ok_bind, require_bind]
    split
    · rw [require_bind]
      split
      · rename_i hl
        obtain ⟨a, b, c, rest, ha⟩ := exists_three hl
        simp only [ha, index, List.getElem?_cons_zero, List.getElem?_cons_succ, ok_bind, require_eq_verdict,
          ← verdict_append]
        exact verdict_cases _
      · exact Or.inr ⟨_, rfl⟩
    · exact Or.inr ⟨_, rfl⟩
  · exact Or.inr ⟨_, by rw [require_neg hd, fail_bind]⟩

theorem countVote_eq (e : VoteExpectation) (v : Nat) (ix : Instruction) : countVote e v ix =
    if Exempt e ix then .ok v
    else if ix.programId = squadsProgramId then (validateVote e ix >>= fun _ => addUsize v 1)
    else fail .forbiddenInstruction := rfl

theorem countVote_exempt {ix : Instruction} (h : Exempt e ix) (v : Nat) : countVote e v ix = .ok v := by
  rw [countVote_eq, if_pos h]

theorem countVote_counts {ix : Instruction} (h : Counts e ix) {v : Nat} (hv : v + 1 ≤ usizeMax) :
    countVote e v ix = .ok (v + 1) := by
  obtain ⟨hx, hp, hc⟩ := h
  rw [countVote_eq, if_neg hx, if_pos hp, validateVote_eq_ok.mpr hc, ok_bind, addUsize_of_le hv]

theorem countVote_not_allowed {ix : Instruction} (h : ¬Allowed e ix) : ∃ x, ∀ v, countVote e v ix = fail x := by
  have hx : ¬Exempt e ix := by
    intro hx
    exact h (Or.inl hx)
  by_cases hp : ix.programId = squadsProgramId
  · cases validateVote_cases e ix with
    | inl hok => exact absurd (Or.inr ⟨hp, validateVote_eq_ok.mp hok⟩) h
    | inr hfail =>
      obtain ⟨x, hf⟩ := hfail
      refine ⟨x, ?_⟩
      intro v
      rw [countVote_eq, if_neg hx, if_pos hp, hf, fail_bind]
  · refine ⟨.forbiddenInstruction, ?_⟩
    intro v
    rw [countVote_eq, if_neg hx, if_neg hp]

/-! ## The loop -/

theorem foldlM_allowed {l : List Instruction} {v : Nat} (ha : ∀ ix ∈ l, Allowed e ix)
    (hl : v + l.length ≤ usizeMax) :
    ∃ n, l.foldlM (countVote e) v = .ok n ∧ v ≤ n ∧ (v < n ↔ ∃ ix ∈ l, Counts e ix) := by
  induction l generalizing v with
  | nil => exact ⟨v, rfl, Nat.le_refl _, by simp⟩
  | cons ix l ih =>
    rw [List.forall_mem_cons] at ha
    rw [List.length_cons] at hl
    rw [List.foldlM_cons]
    by_cases hx : Exempt e ix
    · obtain ⟨n, hn, hle, hlt⟩ := @ih v ha.2 (by omega)
      refine ⟨n, by rw [countVote_exempt hx, ok_bind, hn], hle, hlt.trans ?_⟩
      simp [Counts, hx]
    · have hc : Counts e ix := ⟨hx, ha.1.resolve_left hx⟩
      obtain ⟨n, hn, hle, -⟩ := @ih (v + 1) ha.2 (by omega)
      refine ⟨n, by rw [countVote_counts hc (by omega), ok_bind, hn], by omega, fun _ => ?_, fun _ => by omega⟩
      exact ⟨ix, List.mem_cons_self .., hc⟩

theorem foldlM_first {pre : List Instruction} (hpre : ∀ x ∈ pre, Allowed e x) {ix : Instruction}
    {x : ClearSigningError} (hx : ∀ v, countVote e v ix = fail x) (post : List Instruction) :
    ∀ v, v + pre.length ≤ usizeMax → (pre ++ ix :: post).foldlM (countVote e) v = fail x := by
  intro v hv
  obtain ⟨n, hn, -⟩ := foldlM_allowed hpre hv
  rw [List.foldlM_append, hn, ok_bind, List.foldlM_cons, hx, fail_bind]

theorem first_not_allowed {l : List Instruction} (h : ∃ ix ∈ l, ¬Allowed e ix) :
    ∃ pre ix post, l = pre ++ ix :: post ∧ (∀ x ∈ pre, Allowed e x) ∧ ¬Allowed e ix := by
  induction l with
  | nil =>
    obtain ⟨_, hm, _⟩ := h
    cases hm
  | cons a l ih =>
    by_cases ha : Allowed e a
    · obtain ⟨ix, hm, hn⟩ := h
      have hl : ix ∈ l := (List.mem_cons.mp hm).resolve_left fun he => hn (he ▸ ha)
      obtain ⟨pre, b, post, rfl, hpre, hb⟩ := ih ⟨ix, hl, hn⟩
      exact ⟨a :: pre, b, post, rfl, List.forall_mem_cons.mpr ⟨ha, hpre⟩, hb⟩
    · exact ⟨[], a, l, rfl, nofun, ha⟩

theorem shape_first {l pre post : List Instruction} {ix : Instruction} (hl : l.length ≤ usizeMax)
    (hs : l = pre ++ ix :: post) (hpre : ∀ x ∈ pre, Allowed e x) (hix : ¬Allowed e ix) :
    ∃ x, validateTransactionShape [ix] e = fail x ∧ validateTransactionShape l e = fail x := by
  obtain ⟨x, hx⟩ := countVote_not_allowed hix
  have hlen : 0 + pre.length ≤ usizeMax := by rw [hs, List.length_append] at hl; omega
  refine ⟨x, ?_, ?_⟩
  · unfold validateTransactionShape
    rw [List.foldlM_cons, hx, fail_bind, fail_bind]
  · unfold validateTransactionShape
    rw [hs, foldlM_first hpre hx post 0 hlen, fail_bind]

theorem shape_allowed {l : List Instruction} (hl : l.length ≤ usizeMax) (ha : ∀ ix ∈ l, Allowed e ix) :
    validateTransactionShape l e = .ok () ∧ (∃ ix ∈ l, Counts e ix) ∨
      validateTransactionShape l e = fail .missingVoteInstruction ∧ ¬∃ ix ∈ l, Counts e ix := by
  obtain ⟨n, hn, -, hlt⟩ := @foldlM_allowed e l 0 ha (by omega)
  unfold validateTransactionShape
  rw [hn, ok_bind]
  by_cases hc : ∃ ix ∈ l, Counts e ix
  · exact Or.inl ⟨require_pos (hlt.mpr hc) _, hc⟩
  · exact Or.inr ⟨require_neg (fun h => hc (hlt.mp h)) _, hc⟩

theorem shape_eq_ok {l : List Instruction} (hl : l.length ≤ usizeMax) :
    validateTransactionShape l e = .ok () ↔ (∀ ix ∈ l, Allowed e ix) ∧ ∃ ix ∈ l, Counts e ix := by
  refine ⟨fun h => ?_, fun h => ?_⟩
  · by_cases ha : ∀ ix ∈ l, Allowed e ix
    · cases shape_allowed hl ha with
      | inl h' => exact ⟨ha, h'.2⟩
      | inr h' => rw [h'.1] at h; cases h
    · obtain ⟨pre, ix, post, hs, hpre, hix⟩ := first_not_allowed (by simpa using ha)
      obtain ⟨x, -, hx⟩ := shape_first hl hs hpre hix
      rw [hx] at h; cases h
  · cases shape_allowed hl h.1 with
    | inl h' => exact h'.1
    | inr h' => exact absurd h.2 h'.2

theorem slice_le_usizeMax {α : Type} (s : Slice α) : s.toList.length ≤ usizeMax := by
  have := s.length_le
  unfold usizeMax; omega

/-- The verdict is the first instruction's that is not allowed, else whether a vote was counted; so
acceptance does not see the order, exempt instructions or repeated votes. -/
theorem validateTransactionShape_decides (e : VoteExpectation) :
    (∀ top : Slice Instruction, (∃ ix ∈ top.toList, ¬Allowed e ix) →
      ∃ pre ix post x, top.toList = pre ++ ix :: post ∧ (∀ y ∈ pre, Allowed e y) ∧ ¬Allowed e ix ∧
        validateTransactionShape [ix] e = fail x ∧ validateTransactionShape top.toList e = fail x) ∧
    (∀ top : Slice Instruction, (∀ ix ∈ top.toList, Allowed e ix) → (∃ ix ∈ top.toList, Counts e ix) →
      validateTransactionShape top.toList e = .ok ()) ∧
    (∀ top : Slice Instruction, (∀ ix ∈ top.toList, Allowed e ix) → (¬∃ ix ∈ top.toList, Counts e ix) →
      validateTransactionShape top.toList e = fail .missingVoteInstruction) ∧
    (∀ top top' : Slice Instruction, top.toList.Perm top'.toList →
      (validateTransactionShape top.toList e = .ok () ↔ validateTransactionShape top'.toList e = .ok ())) ∧
    (∀ (top top' : Slice Instruction) (pre post : List Instruction) (ix : Instruction),
      top.toList = pre ++ post → top'.toList = pre ++ ix :: post → Exempt e ix →
      (validateTransactionShape top.toList e = .ok () ↔ validateTransactionShape top'.toList e = .ok ())) ∧
    (∀ (top top' : Slice Instruction) (pre post : List Instruction) (ix : Instruction),
      top.toList = pre ++ post → top'.toList = pre ++ ix :: post → ix ∈ top.toList → MatchingVote e ix →
      (validateTransactionShape top.toList e = .ok () ↔ validateTransactionShape top'.toList e = .ok ())) := by
  have hle := fun top : Slice Instruction => slice_le_usizeMax top
  refine ⟨fun top h => ?_, fun top ha hc => ?_, fun top ha hc => ?_, fun top top' hp => ?_,
    fun top top' pre post ix h h' hx => ?_, fun top top' pre post ix h h' hm hv => ?_⟩
  · obtain ⟨pre, ix, post, hs, hpre, hix⟩ := first_not_allowed h
    obtain ⟨x, hx, hx'⟩ := shape_first (hle top) hs hpre hix
    exact ⟨pre, ix, post, x, hs, hpre, hix, hx, hx'⟩
  · exact (shape_eq_ok (hle top)).mpr ⟨ha, hc⟩
  · exact ((shape_allowed (hle top) ha).resolve_left fun h => hc h.2).1
  · rw [shape_eq_ok (hle top), shape_eq_ok (hle top')]
    simp only [hp.mem_iff]
  · rw [shape_eq_ok (hle top), shape_eq_ok (hle top'), h, h']
    have hc : ¬Counts e ix := fun hc => hc.1 hx
    have ha : Allowed e ix := Or.inl hx
    simp only [List.mem_append, List.mem_cons, or_imp, forall_and, forall_eq, ha, true_and, or_and_right, exists_or,
      exists_eq_left, hc, false_or]
  · rw [shape_eq_ok (hle top), shape_eq_ok (hle top')]
    have hmem : ∀ y, y ∈ top'.toList ↔ y ∈ top.toList := by
      intro y
      rw [h] at hm
      rw [h', h, List.perm_middle.mem_iff, List.mem_cons]
      refine ⟨fun hy => ?_, Or.inr⟩
      cases hy with
      | inl he => exact he ▸ hm
      | inr hy => exact hy
    simp only [hmem]

end ClearSigning
