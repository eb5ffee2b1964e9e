import ClearSigning.KeysSound

/-!
# The content diff is equality with the expansion

Checking a list against a stored message is comparing it, in a fixed order, with
the one list the message expands to under the key table. The verdict is the
first entry of the list of differences.
-/

namespace ClearSigning

open Exec

/-! ## The expansion under a key table -/

namespace AccountKeys

variable (k : AccountKeys)

def expandAccount (i : UInt8) : Option ExpectedAccountMeta :=
  k.keys[i.toNat]?.map fun pubkey => { pubkey, isSigner := k.isSigner i.toNat, isWritable := k.writable i.toNat }

def expandInstruction (ix : MultisigCompiledInstruction) : Option ExpectedInstruction := do
  let programId ← k.keys[ix.programIdIndex.toNat]?
  let accounts ← ix.accountIndexes.mapM k.expandAccount
  return { programId, accounts, data := ix.data }

variable {k}

theorem expandInstruction_eq_some {ix : MultisigCompiledInstruction} {x : ExpectedInstruction} :
    k.expandInstruction ix = some x ↔ k.keys[ix.programIdIndex.toNat]? = some x.programId ∧
      ix.accountIndexes.mapM k.expandAccount = some x.accounts ∧ ix.data = x.data := by
  obtain ⟨programId, accounts, data⟩ := x
  simp only [expandInstruction, Option.bind_eq_bind, Option.bind_eq_some_iff, Option.pure_def, Option.some.injEq,
    ExpectedInstruction.mk.injEq]
  refine ⟨fun h => ?_, fun h => ?_⟩
  · obtain ⟨_, hp, _, ha, rfl, rfl, rfl⟩ := h
    exact ⟨hp, ha, rfl⟩
  · obtain ⟨hp, ha, hd⟩ := h
    exact ⟨_, hp, _, ha, rfl, rfl, hd⟩

end AccountKeys

/-! ## Differences, in the order they are looked for -/

def accountDifferences (x y : ExpectedAccountMeta) : List ClearSigningError :=
  (if x.pubkey = y.pubkey then [] else [.accountKeyMismatch]) ++
    ((if x.isWritable = y.isWritable then [] else [.accountWritableMismatch]) ++
      (if x.isSigner = y.isSigner then [] else [.accountSignerMismatch]))

def instructionDifferences (x y : ExpectedInstruction) : List ClearSigningError :=
  (if x.programId = y.programId then [] else [.programIdMismatch]) ++
    ((if x.accounts.length = y.accounts.length then [] else [.accountCountMismatch]) ++
      ((x.accounts.zip y.accounts).flatMap (fun p => accountDifferences p.1 p.2) ++
        (if x.data = y.data then [] else [.dataMismatch])))

/-- Of two lists of one length. -/
def differences (l l' : List ExpectedInstruction) : List ClearSigningError :=
  (l.zip l').flatMap fun p => instructionDifferences p.1 p.2

theorem ite_nil_eq_nil {α : Type} {c : Prop} [Decidable c] {e : α} : (if c then [] else [e]) = [] ↔ c := by
  split <;> simp_all

theorem accountDifferences_eq_nil {x y : ExpectedAccountMeta} : accountDifferences x y = [] ↔ x = y := by
  obtain ⟨p, s, w⟩ := x
  obtain ⟨p', s', w'⟩ := y
  simp only [accountDifferences, List.append_eq_nil_iff, ite_nil_eq_nil, ExpectedAccountMeta.mk.injEq]
  exact and_congr_right fun _ => and_comm

theorem zip_flatMap_eq_nil {α β : Type} {d : α → α → List β} (hd : ∀ x y, d x y = [] ↔ x = y) {l l' : List α}
    (h : l.length = l'.length) : (l.zip l').flatMap (fun p => d p.1 p.2) = [] ↔ l = l' := by
  have heq : l = l' ↔ List.Forall₂ (· = ·) l l' := by rw [List.forall₂_eq_eq_eq]
  rw [heq, List.forall₂_iff_zip, List.flatMap_eq_nil_iff]
  exact ⟨fun hz => ⟨h, fun hm => (hd _ _).mp (hz _ hm)⟩, fun hz p hp => (hd _ _).mpr (hz.2 hp)⟩

theorem instructionDifferences_eq_nil {x y : ExpectedInstruction} : instructionDifferences x y = [] ↔ x = y := by
  obtain ⟨p, a, d⟩ := x
  obtain ⟨p', a', d'⟩ := y
  simp only [instructionDifferences, List.append_eq_nil_iff, ite_nil_eq_nil, ExpectedInstruction.mk.injEq]
  refine and_congr_right fun _ => ⟨fun ⟨hl, ha, hd⟩ => ?_, fun ⟨ha, hd⟩ => ?_⟩
  · exact ⟨(zip_flatMap_eq_nil (fun _ _ => accountDifferences_eq_nil) hl).mp ha, hd⟩
  · have hl := congrArg List.length ha
    exact ⟨hl, (zip_flatMap_eq_nil (fun _ _ => accountDifferences_eq_nil) hl).mpr ha, hd⟩

theorem zip_flatMap_self {α β : Type} {d : α → α → List β} (hd : ∀ x y, d x y = [] ↔ x = y) (l : List α) :
    (l.zip l).flatMap (fun p => d p.1 p.2) = [] := (zip_flatMap_eq_nil hd rfl).mpr rfl

theorem zip_flatMap_common {α β : Type} {d : α → α → List β} (hd : ∀ x y, d x y = [] ↔ x = y) (pre : List α)
    (x y : α) (post post' : List α) :
    ((pre ++ x :: post).zip (pre ++ y :: post')).flatMap (fun p => d p.1 p.2) =
      d x y ++ (post.zip post').flatMap fun p => d p.1 p.2 := by
  rw [List.zip_append rfl, List.flatMap_append, zip_flatMap_self hd, List.nil_append, List.zip_cons_cons,
    List.flatMap_cons]

/-! ## The checks are the verdict on the differences -/

section
variable {k : AccountKeys}

theorem validateAccount_eq {i : UInt8} {x : ExpectedAccountMeta} (h : k.expandAccount i = some x)
    (y : ExpectedAccountMeta) : validateAccount k i y = verdict (accountDifferences x y) := by
  obtain ⟨key, hk, rfl⟩ := Option.map_eq_some_iff.mp h
  unfold validateAccount AccountKeys.get accountDifferences
  simp only [hk, okOr_some, ok_bind, AccountKeys.isWritable_eq, require_eq_verdict, verdict_append]

theorem validateAccount_eq_ok {i : UInt8} {x : ExpectedAccountMeta} :
    validateAccount k i x = .ok () ↔ k.expandAccount i = some x := by
  cases hx : k.expandAccount i with
  | none =>
    have hk : k.keys[i.toNat]? = none := Option.map_eq_none_iff.mp hx
    unfold validateAccount AccountKeys.get
    simp only [hk, okOr_none, fail_bind]
    exact ⟨fun h => absurd h (fail_ne_ok _ _), nofun⟩
  | some y =>
    rw [validateAccount_eq hx, verdict_eq_ok, accountDifferences_eq_nil, Option.some.injEq]

theorem validateInstruction_eq {ix : MultisigCompiledInstruction} {x : ExpectedInstruction}
    (h : k.expandInstruction ix = some x) (y : ExpectedInstruction) :
    validateInstruction k ix y = verdict (instructionDifferences x y) := by
  obtain ⟨hp, ha, hd⟩ := AccountKeys.expandInstruction_eq_some.mp h
  have hl : ix.accountIndexes.length = x.accounts.length := (mapM_eq_some.mp ha).length_eq
  unfold validateInstruction AccountKeys.get instructionDifferences
  rw [hp]
  simp only [okOr_some, ok_bind, verdict_append, hl, hd, require_eq_verdict,
    forM_zip_verdict (fun i y x hx => validateAccount_eq (k := k) hx y) y.accounts ha]

theorem validateInstruction_eq_ok {ix : MultisigCompiledInstruction} {x : ExpectedInstruction} :
    validateInstruction k ix x = .ok () ↔ k.expandInstruction ix = some x := by
  have hz := @forM_zip_eq_ok _ _ _ (validateAccount k) ix.accountIndexes x.accounts
  rw [AccountKeys.expandInstruction_eq_some, mapM_eq_some]
  simp only [← validateAccount_eq_ok, ← hz]
  unfold validateInstruction AccountKeys.get
  refine ⟨fun h => ?_, fun ⟨hp, ⟨hl, ha⟩, hd⟩ => ?_⟩
  · obtain ⟨p, hp, h⟩ := bind_eq_ok.mp h
    obtain ⟨he, h⟩ := require_bind_eq_ok.mp h
    obtain ⟨hl, h⟩ := require_bind_eq_ok.mp h
    obtain ⟨_, ha, hd⟩ := bind_eq_ok.mp h
    exact ⟨he ▸ okOr_eq_ok.mp hp, ⟨hl, ha⟩, require_eq_ok.mp hd⟩
  · rw [hp, okOr_some, ok_bind, require_pos rfl, ok_bind, require_pos hl, ok_bind]
    exact bind_eq_ok.mpr ⟨(), ha, require_eq_ok.mpr hd⟩

theorem validateInstructions_eq_ok {message : VaultTransactionMessage} {l : List ExpectedInstruction} :
    validateInstructions message k l = .ok () ↔ message.instructions.mapM k.expandInstruction = some l := by
  have hz := @forM_zip_eq_ok _ _ _ (validateInstruction k) message.instructions l
  simp only [mapM_eq_some, ← validateInstruction_eq_ok, ← hz]
  exact require_bind_eq_ok

theorem validateInstructions_eq {message : VaultTransactionMessage} {l : List ExpectedInstruction}
    (h : message.instructions.mapM k.expandInstruction = some l) (l' : List ExpectedInstruction) :
    validateInstructions message k l' =
      if l.length = l'.length then verdict (differences l l') else fail .instructionCountMismatch := by
  have hl : message.instructions.length = l.length := (mapM_eq_some.mp h).length_eq
  unfold validateInstructions differences
  rw [require_bind, hl, ← forM_zip_verdict (fun ix y x hx => validateInstruction_eq (k := k) hx y) l' h]

end

/-! ## The first difference -/

inductive FirstAccountDifference (x y : ExpectedAccountMeta) : ClearSigningError → Prop
  | key (h : x.pubkey ≠ y.pubkey) : FirstAccountDifference x y .accountKeyMismatch
  | writable (hk : x.pubkey = y.pubkey) (h : x.isWritable ≠ y.isWritable) :
      FirstAccountDifference x y .accountWritableMismatch
  | signer (hk : x.pubkey = y.pubkey) (hw : x.isWritable = y.isWritable) (h : x.isSigner ≠ y.isSigner) :
      FirstAccountDifference x y .accountSignerMismatch

/-- Program id, then account count, then the accounts by position, then data. -/
inductive FirstDifference (x y : ExpectedInstruction) : ClearSigningError → Prop
  | programId (h : x.programId ≠ y.programId) : FirstDifference x y .programIdMismatch
  | accountCount (hp : x.programId = y.programId) (h : x.accounts.length ≠ y.accounts.length) :
      FirstDifference x y .accountCountMismatch
  | account {pre post post' : List ExpectedAccountMeta} {m m' : ExpectedAccountMeta} {e : ClearSigningError}
      (hp : x.programId = y.programId) (hl : x.accounts.length = y.accounts.length)
      (hx : x.accounts = pre ++ m :: post) (hy : y.accounts = pre ++ m' :: post')
      (h : FirstAccountDifference m m' e) : FirstDifference x y e
  | data (hp : x.programId = y.programId) (ha : x.accounts = y.accounts) (h : x.data ≠ y.data) :
      FirstDifference x y .dataMismatch

theorem first_ne {α : Type} [DecidableEq α] : ∀ {l l' : List α}, l.length = l'.length → l ≠ l' →
    ∃ pre x y post post', l = pre ++ x :: post ∧ l' = pre ++ y :: post' ∧ x ≠ y
  | [], [], _, h => absurd rfl h
  | x :: l, y :: l', hl, h => by
    by_cases he : x = y
    · subst he
      have hl' : l.length = l'.length := Nat.succ.inj hl
      obtain ⟨pre, a, b, post, post', h1, h2, hne⟩ := first_ne hl' fun h' => h (by rw [h'])
      exact ⟨x :: pre, a, b, post, post', by rw [h1]; rfl, by rw [h2]; rfl, hne⟩
    · exact ⟨[], x, y, l, l', rfl, rfl, he⟩

theorem FirstAccountDifference.of_ne {x y : ExpectedAccountMeta} (h : x ≠ y) :
    ∃ e, FirstAccountDifference x y e := by
  by_cases hk : x.pubkey = y.pubkey
  · by_cases hw : x.isWritable = y.isWritable
    · refine ⟨_, .signer hk hw fun hs => h ?_⟩
      obtain ⟨p, s, w⟩ := x
      obtain ⟨p', s', w'⟩ := y
      rw [show p = p' from hk, show s = s' from hs, show w = w' from hw]
    · exact ⟨_, .writable hk hw⟩
  · exact ⟨_, .key hk⟩

theorem FirstDifference.of_ne {x y : ExpectedInstruction} (h : x ≠ y) : ∃ e, FirstDifference x y e := by
  by_cases hp : x.programId = y.programId
  · by_cases hl : x.accounts.length = y.accounts.length
    · by_cases ha : x.accounts = y.accounts
      · refine ⟨_, .data hp ha fun hd => h ?_⟩
        obtain ⟨p, a, d⟩ := x
        obtain ⟨p', a', d'⟩ := y
        rw [show p = p' from hp, show a = a' from ha, show d = d' from hd]
      · obtain ⟨pre, m, m', post, post', hx, hy, hne⟩ := first_ne hl ha
        obtain ⟨e, he⟩ := FirstAccountDifference.of_ne hne
        exact ⟨e, .account hp hl hx hy he⟩
    · exact ⟨_, .accountCount hp hl⟩
  · exact ⟨_, .programId hp⟩

theorem FirstAccountDifference.verdict {x y : ExpectedAccountMeta} {e : ClearSigningError}
    (h : FirstAccountDifference x y e) (rest : List ClearSigningError) :
    verdict (accountDifferences x y ++ rest) = fail e := by
  unfold accountDifferences
  cases h with
  | key h => rw [if_neg h]; rfl
  | writable hk h => rw [if_pos hk, if_neg h]; rfl
  | signer hk hw h => rw [if_pos hk, if_pos hw, if_neg h]; rfl

theorem FirstDifference.verdict {x y : ExpectedInstruction} {e : ClearSigningError}
    (h : FirstDifference x y e) (rest : List ClearSigningError) :
    verdict (instructionDifferences x y ++ rest) = fail e := by
  unfold instructionDifferences
  cases h with
  | programId h => rw [if_neg h]; rfl
  | accountCount hp h => rw [if_pos hp, if_neg h]; rfl
  | account hp hl hx hy h =>
    rw [if_pos hp, if_pos hl, hx, hy, zip_flatMap_common fun _ _ => accountDifferences_eq_nil]
    simp only [List.nil_append, List.append_assoc]
    exact h.verdict _
  | data hp ha h =>
    rw [if_pos hp, if_pos (by rw [ha]), ha, zip_flatMap_self fun _ _ => accountDifferences_eq_nil, if_neg h]
    rfl

section
variable {message : VaultTransactionMessage} {k : AccountKeys} {pre post post' : List ExpectedInstruction}
  {x y : ExpectedInstruction}

theorem validateInstructions_first (h : validateInstructions message k (pre ++ x :: post) = .ok ())
    (hl : post.length = post'.length) {e : ClearSigningError} (he : FirstDifference x y e) :
    validateInstructions message k (pre ++ y :: post') = fail e := by
  have hlen : (pre ++ x :: post).length = (pre ++ y :: post').length := by
    simp only [List.length_append, List.length_cons, hl]
  rw [validateInstructions_eq (validateInstructions_eq_ok.mp h), if_pos hlen, differences,
    zip_flatMap_common fun _ _ => instructionDifferences_eq_nil]
  exact he.verdict _

theorem validateInstructions_firstAccount (h : validateInstructions message k (pre ++ x :: post) = .ok ())
    {accounts accounts' : List ExpectedAccountMeta} {m m' : ExpectedAccountMeta}
    (hx : x.accounts = accounts ++ m :: accounts') {e : ClearSigningError} (he : FirstAccountDifference m m' e) :
    validateInstructions message k (pre ++ { x with accounts := accounts ++ m' :: accounts' } :: post) = fail e := by
  have hl : x.accounts.length = (accounts ++ m' :: accounts').length := by
    rw [hx, List.length_append, List.length_append, List.length_cons, List.length_cons]
  have hf : FirstDifference x { x with accounts := accounts ++ m' :: accounts' } e := .account rfl hl hx rfl he
  exact validateInstructions_first h rfl hf

end

/-- Against an accepted list every other list is refused, with its first difference from it. -/
theorem validateInstructions_classifies {message : VaultTransactionMessage} {k : AccountKeys}
    {expected : List ExpectedInstruction} (h : validateInstructions message k expected = .ok ()) :
    (∀ expected', expected'.length ≠ expected.length →
      validateInstructions message k expected' = fail .instructionCountMismatch) ∧
    (∀ expected', expected'.length = expected.length → expected' ≠ expected →
      ∃ pre x y post post' e, expected = pre ++ x :: post ∧ expected' = pre ++ y :: post' ∧
        FirstDifference x y e ∧ validateInstructions message k expected' = fail e) ∧
    (∀ expected', expected' = expected → validateInstructions message k expected' = .ok ()) ∧
    (∀ pre x post data, expected = pre ++ x :: post → data ≠ x.data →
      validateInstructions message k (pre ++ { x with data } :: post) = fail .dataMismatch) ∧
    (∀ pre x post accounts m accounts', expected = pre ++ x :: post → x.accounts = accounts ++ m :: accounts' →
      validateInstructions message k
        (pre ++ { x with accounts := accounts ++ { m with isWritable := !m.isWritable } :: accounts' } :: post) =
          fail .accountWritableMismatch ∧
      validateInstructions message k
        (pre ++ { x with accounts := accounts ++ { m with isSigner := !m.isSigner } :: accounts' } :: post) =
          fail .accountSignerMismatch) := by
  refine ⟨fun l hl => ?_, fun l hl hne => ?_, fun l hl => hl ▸ h, fun pre x post data hx hd => ?_,
    fun pre x post accounts m accounts' hx ha => ⟨?_, ?_⟩⟩
  · rw [validateInstructions_eq (validateInstructions_eq_ok.mp h), if_neg fun he => hl he.symm]
  · obtain ⟨pre, x, y, post, post', rfl, rfl, hxy⟩ := first_ne hl.symm hne.symm
    obtain ⟨e, he⟩ := FirstDifference.of_ne hxy
    have hlen : post.length = post'.length := by
      simp only [List.length_append, List.length_cons] at hl; omega
    exact ⟨pre, x, y, post, post', e, rfl, rfl, he, validateInstructions_first h hlen he⟩
  · subst hx
    have hf : FirstDifference x { x with data } .dataMismatch := .data rfl rfl hd.symm
    exact validateInstructions_first h rfl hf
  · subst hx
    apply validateInstructions_firstAccount h ha
    exact .writable rfl (by simp)
  · subst hx
    apply validateInstructions_firstAccount h ha
    exact .signer rfl rfl (by simp)

/-! ## A transfer, and other lists checked against it -/

namespace Transfer

def keys : AccountKeys := AccountKeys.resolved message [[recipient]]

/-- A transfer of `lamports` to the looked-up recipient, with the flags given for it. -/
def moves (lamports : Nat) (isSigner isWritable : Bool) : ExpectedInstruction where
  programId := systemProgram
  accounts := [
    { pubkey := vault, isSigner := true, isWritable := true },
    { pubkey := recipient, isSigner := isSigner, isWritable := isWritable }]
  data := leBytes 4 2 ++ leBytes 8 lamports

end Transfer

theorem transfer_classified :
    validateInstructions Transfer.message Transfer.keys [] = fail .instructionCountMismatch ∧
    validateInstructions Transfer.message Transfer.keys [Transfer.moves 2 false true] = fail .dataMismatch ∧
    validateInstructions Transfer.message Transfer.keys [Transfer.moves 1 false false] =
      fail .accountWritableMismatch ∧
    validateInstructions Transfer.message Transfer.keys [Transfer.moves 1 true true] = fail .accountSignerMismatch ∧
    ∃ e, validateInstructions Transfer.message Transfer.keys [Transfer.moves 2 true false] = fail e := by
  have h : validateInstructions Transfer.message Transfer.keys Transfer.instructions = .ok () := by decide +kernel
  obtain ⟨hcount, hfirst, -, hdata, hflags⟩ := validateInstructions_classifies h
  obtain ⟨hwritable, hsigner⟩ := hflags [] _ [] [_] _ [] rfl rfl
  refine ⟨hcount [] (by decide), hdata [] _ [] _ rfl (by decide), hwritable, hsigner, ?_⟩
  obtain ⟨_, _, _, _, _, e, -, -, -, he⟩ := hfirst [Transfer.moves 2 true false] rfl (by decide +kernel)
  exact ⟨e, he⟩

end ClearSigning
