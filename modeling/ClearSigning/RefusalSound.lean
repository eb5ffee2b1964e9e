import ClearSigning.HashingSound
import ClearSigning.LayoutSound
import ClearSigning.LedgerSound
import ClearSigning.PanicSound
import ClearSigning.SegmentsSound
import ClearSigning.TablesSound

/-!
# Why a handler refuses

Each error a handler reports names the first check that fails, and the condition
behind it is one on the account data, the arguments and the outer transaction.
The conditions are collected stage by stage, in the order the stages run.
-/

namespace ClearSigning

open Exec

/-! ## The stored transaction -/

/-- The data do not start with a transaction's encoding. -/
inductive Unreadable (d : Bytes) : ClearSigningError → Prop
  | discriminator (h : ¬(8 < d.length ∧ vaultTransactionDiscriminator <+: d)) : Unreadable d .notAVaultTransaction
  | encoding (hl : 8 < d.length) (hp : vaultTransactionDiscriminator <+: d)
      (h : ∀ tx e s, VaultTransaction.serialize tx = some e → d ≠ vaultTransactionDiscriminator ++ e ++ s) :
      Unreadable d .transactionDeserializationError

theorem isPrefix_iff_take {p d : Bytes} : p <+: d ↔ p.length ≤ d.length ∧ d.take p.length = p := by
  rw [List.prefix_iff_eq_take]
  refine ⟨fun h => ?_, fun h => h.2.symm⟩
  have hl := congrArg List.length h
  rw [List.length_take] at hl
  exact ⟨by omega, h.symm⟩

theorem deserializeChecked_eq_fail {d : Bytes} {e : ClearSigningError} :
    VaultTransaction.deserializeChecked d = fail e ↔ Unreadable d e := by
  have h8 : vaultTransactionDiscriminator.length = 8 := rfl
  by_cases hl : 8 < d.length
  · by_cases hp : vaultTransactionDiscriminator <+: d
    · have ht := (isPrefix_iff_take.mp hp).2
      rw [h8] at ht
      have hread : VaultTransaction.deserializeChecked d =
          okOr ((VaultTransaction.borsh.dec (d.drop 8)).map Prod.fst) .transactionDeserializationError := by
        unfold VaultTransaction.deserializeChecked
        rw [require_pos hl, ok_bind, sliceTo_of_le (by omega), ok_bind, require_pos ht, ok_bind,
          sliceFrom_of_le (by omega), ok_bind]
      rw [hread, okOr_eq_fail]
      refine ⟨fun ⟨hn, he⟩ => ?_, fun h => ?_⟩
      · subst he
        refine .encoding hl hp fun tx e s hs hd => ?_
        have hok := VaultTransaction.deserializeChecked_eq_ok.mpr ⟨e, s, hs, hd⟩
        rw [hread, hn] at hok
        cases hok
      · cases h with
        | discriminator h => exact absurd ⟨hl, hp⟩ h
        | encoding _ _ h =>
          cases hd : (VaultTransaction.borsh.dec (d.drop 8)).map Prod.fst with
          | none => exact ⟨rfl, rfl⟩
          | some tx =>
            rw [hd] at hread
            obtain ⟨e, s, hs, hd⟩ := VaultTransaction.deserializeChecked_eq_ok.mp hread
            exact absurd hd (h tx e s hs)
    · have ht : ¬d.take 8 = vaultTransactionDiscriminator := by
        intro ht
        exact hp (isPrefix_iff_take.mpr ⟨by omega, ht⟩)
      unfold VaultTransaction.deserializeChecked
      rw [require_pos hl, ok_bind, sliceTo_of_le (by omega), ok_bind, require_neg ht, fail_bind, fail_inj]
      refine ⟨fun he => he ▸ .discriminator fun h => hp h.2, fun h => ?_⟩
      cases h with
      | discriminator => rfl
      | encoding _ hp' => exact absurd hp' hp
  · unfold VaultTransaction.deserializeChecked
    rw [require_neg (show ¬d.length > 8 from hl), fail_bind, fail_inj]
    refine ⟨fun he => he ▸ .discriminator fun h => hl h.1, fun h => ?_⟩
    cases h with
    | discriminator => rfl
    | encoding hl' => exact absurd hl' hl

/-- A stored transaction that is another one than the arguments name. -/
inductive Misnamed (tx : VaultTransaction) (args : VerifyProposalArgs) : ClearSigningError → Prop
  | multisig (h : tx.multisig ≠ args.multisig) : Misnamed tx args .multisigMismatch
  | index (hm : tx.multisig = args.multisig) (h : tx.index ≠ args.transactionIndex) :
      Misnamed tx args .transactionIndexMismatch
  | vaultIndex (hm : tx.multisig = args.multisig) (hi : tx.index = args.transactionIndex)
      (h : tx.vaultIndex ≠ args.vaultIndex) : Misnamed tx args .vaultIndexMismatch
  | ephemeralSigners (hm : tx.multisig = args.multisig) (hi : tx.index = args.transactionIndex)
      (hv : tx.vaultIndex = args.vaultIndex)
      (h : tx.ephemeralSignerBumps.length ≠ args.numEphemeralSigners.toNat) :
      Misnamed tx args .ephemeralSignersMismatch

/-! ## The lookup tables -/

/-- What is wrong with the account passed for a lookup. -/
inductive BadTable (account : AccountInfo) (lookup : MultisigMessageAddressTableLookup) : ClearSigningError → Prop
  | address (h : account.key ≠ lookup.accountKey) : BadTable account lookup .lookupTableAddressMismatch
  | owner (hk : account.key = lookup.accountKey) (h : account.owner ≠ addressLookupTableProgramId) :
      BadTable account lookup .invalidLookupTableOwner
  | data (hk : account.key = lookup.accountKey) (ho : account.owner = addressLookupTableProgramId)
      (h : ∀ m a : Bytes, m.length = 52 → 32 ∣ a.length → account.data.toList ≠ leBytes 4 1 ++ m ++ a) :
      BadTable account lookup .invalidLookupTableData

theorem parseLookupTableAddresses_cases (d : Bytes) :
    (∃ ks, parseLookupTableAddresses d = .ok ks) ∨ parseLookupTableAddresses d = fail .invalidLookupTableData := by
  unfold parseLookupTableAddresses
  rw [require_bind]
  split
  · rename_i hd
    have h56 : lookupTableMetaSize = 56 := rfl
    rw [u32FromLeBytes_slice_bind (by omega), require_bind]
    split
    · rw [sliceFrom_of_le hd, ok_bind, require_bind]
      split
      · rename_i hm
        obtain ⟨ks, hks⟩ := exists_addresses (Nat.eq_mul_of_div_eq_right (Nat.dvd_of_mod_eq_zero hm) rfl)
        exact Or.inl ⟨ks, by rw [hks, mapM_toArray_chunks]⟩
      · exact Or.inr rfl
    · exact Or.inr rfl
  · exact Or.inr rfl

theorem parseLookupTableAddresses_eq_fail {d : Bytes} {e : ClearSigningError} :
    parseLookupTableAddresses d = fail e ↔ e = .invalidLookupTableData ∧
      ∀ m a : Bytes, m.length = 52 → 32 ∣ a.length → d ≠ leBytes 4 1 ++ m ++ a := by
  refine ⟨fun h => ?_, fun ⟨he, h⟩ => ?_⟩
  · cases parseLookupTableAddresses_cases d with
    | inl hok =>
      obtain ⟨ks, hks⟩ := hok
      rw [hks] at h
      cases h
    | inr hf =>
      refine ⟨(fail_inj.mp (hf.symm.trans h)).symm, fun m a hm ha hd => ?_⟩
      obtain ⟨ks, hks⟩ := exists_layout_iff.mpr ⟨m, a, hm, ha, hd⟩
      rw [hks] at h
      cases h
  · cases parseLookupTableAddresses_cases d with
    | inl hok =>
      obtain ⟨m, a, hm, ha, hd⟩ := exists_layout_iff.mp hok
      exact absurd hd (h m a hm ha)
    | inr hf => rw [hf, he]

theorem readLookupTable_eq_fail {account : AccountInfo} {lookup : MultisigMessageAddressTableLookup}
    {e : ClearSigningError} : readLookupTable account lookup = fail e ↔ BadTable account lookup e := by
  unfold readLookupTable
  rw [require_bind_eq_fail, require_bind_eq_fail, parseLookupTableAddresses_eq_fail]
  refine ⟨fun h => ?_, fun h => ?_⟩
  · rcases h with ⟨hk, rfl⟩ | ⟨hk, ⟨ho, rfl⟩ | ⟨ho, rfl, hd⟩⟩
    · exact .address hk
    · exact .owner hk ho
    · exact .data hk ho hd
  · cases h with
    | address h => exact Or.inl ⟨h, rfl⟩
    | owner hk h => exact Or.inr ⟨hk, Or.inl ⟨h, rfl⟩⟩
    | data hk ho h => exact Or.inr ⟨hk, Or.inr ⟨ho, rfl, h⟩⟩

/-- The first of the accounts passed that is not the table its lookup names. -/
def FirstBadTable (accounts : List AccountInfo) (lookups : List MultisigMessageAddressTableLookup)
    (e : ClearSigningError) : Prop :=
  ∃ pre p post, accounts.zip lookups = pre ++ p :: post ∧ (∀ q ∈ pre, ∃ table, TableAccount q.1 q.2 table) ∧
    BadTable p.1 p.2 e

theorem readTables_eq_fail {accounts : List AccountInfo} {lookups : List MultisigMessageAddressTableLookup}
    {e : ClearSigningError} : ((accounts.zip lookups).mapM fun (account, lookup) => readLookupTable account lookup) =
      fail e ↔ FirstBadTable accounts lookups e := by
  rw [mapM_eq_fail]
  unfold FirstBadTable
  refine ⟨fun ⟨pre, p, post, ys, hl, hpre, hp⟩ => ?_, fun ⟨pre, p, post, hl, hpre, hp⟩ => ?_⟩
  · refine ⟨pre, p, post, hl, fun q hq => ?_, readLookupTable_eq_fail.mp hp⟩
    obtain ⟨table, ht⟩ := exists_mapM_eq_ok.mp ⟨ys, hpre⟩ q hq
    exact ⟨table, readLookupTable_eq_ok.mp ht⟩
  · obtain ⟨ys, hys⟩ := (exists_mapM_eq_ok (f := fun q : AccountInfo × MultisigMessageAddressTableLookup =>
      readLookupTable q.1 q.2)).mpr fun q hq => (hpre q hq).imp fun _ ht => readLookupTable_eq_ok.mpr ht
    exact ⟨pre, p, post, ys, hl, hys, readLookupTable_eq_fail.mpr hp⟩

theorem resolve_eq_fail {message : VaultTransactionMessage} {tables : List (List Pubkey)} {e : ClearSigningError}
    (hl : tables.length = message.addressTableLookups.length) : AccountKeys.resolve message tables = fail e ↔
      e = .lookupTableIndexOutOfBounds ∧ ¬LookupsInRange message tables := by
  have hr := AccountKeys.resolve_eq message tables
  rw [if_pos hl] at hr
  rw [← AccountKeys.exists_resolve, hr]
  by_cases hall : (keyTable message tables).all Option.isSome
  · rw [if_pos hall]
    refine ⟨nofun, fun h => absurd ⟨_, rfl⟩ h.2⟩
  · rw [if_neg hall, fail_inj]
    exact ⟨fun h => ⟨h.symm, fun ⟨_, hk⟩ => fail_ne_ok _ _ hk⟩, fun h => h.1.symm⟩

/-! ## The content diff -/

/-- The first thing wrong with an account shown for the stored index `i`. -/
inductive AccountProblem (k : AccountKeys) (i : UInt8) (y : ExpectedAccountMeta) : ClearSigningError → Prop
  | index (h : k.keys.length ≤ i.toNat) : AccountProblem k i y .accountIndexOutOfBounds
  | difference {x : ExpectedAccountMeta} {e : ClearSigningError} (hx : k.expandAccount i = some x)
      (h : FirstAccountDifference x y e) : AccountProblem k i y e

/-- The first thing wrong with an instruction shown for a stored one. -/
inductive InstructionProblem (k : AccountKeys) (ix : MultisigCompiledInstruction) (y : ExpectedInstruction) :
    ClearSigningError → Prop
  | index (h : k.keys.length ≤ ix.programIdIndex.toNat) : InstructionProblem k ix y .accountIndexOutOfBounds
  | programId {p : Pubkey} (hp : k.keys[ix.programIdIndex.toNat]? = some p) (h : p ≠ y.programId) :
      InstructionProblem k ix y .programIdMismatch
  | accountCount (hp : k.keys[ix.programIdIndex.toNat]? = some y.programId)
      (h : ix.accountIndexes.length ≠ y.accounts.length) : InstructionProblem k ix y .accountCountMismatch
  | account {pre post : List UInt8} {pre' post' : List ExpectedAccountMeta} {i : UInt8} {m : ExpectedAccountMeta}
      {e : ClearSigningError} (hp : k.keys[ix.programIdIndex.toNat]? = some y.programId)
      (hl : ix.accountIndexes.length = y.accounts.length) (hx : ix.accountIndexes = pre ++ i :: post)
      (hy : y.accounts = pre' ++ m :: post') (hpre : pre.mapM k.expandAccount = some pre')
      (h : AccountProblem k i m e) : InstructionProblem k ix y e
  | data (hp : k.keys[ix.programIdIndex.toNat]? = some y.programId)
      (ha : ix.accountIndexes.mapM k.expandAccount = some y.accounts) (h : ix.data ≠ y.data) :
      InstructionProblem k ix y .dataMismatch

/-- The first thing wrong with a list shown for a stored message. -/
inductive ContentProblem (k : AccountKeys) (message : VaultTransactionMessage) (shown : List ExpectedInstruction) :
    ClearSigningError → Prop
  | count (h : message.instructions.length ≠ shown.length) : ContentProblem k message shown .instructionCountMismatch
  | instruction {pre post : List MultisigCompiledInstruction} {pre' post' : List ExpectedInstruction}
      {ix : MultisigCompiledInstruction} {y : ExpectedInstruction} {e : ClearSigningError}
      (hl : message.instructions.length = shown.length) (hx : message.instructions = pre ++ ix :: post)
      (hy : shown = pre' ++ y :: post') (hpre : pre.mapM k.expandInstruction = some pre')
      (h : InstructionProblem k ix y e) : ContentProblem k message shown e

theorem verdict_accountDifferences {x y : ExpectedAccountMeta} {e : ClearSigningError} :
    verdict (accountDifferences x y) = fail e ↔ FirstAccountDifference x y e := by
  refine ⟨fun h => ?_, fun h => ?_⟩
  · by_cases hxy : x = y
    · rw [accountDifferences_eq_nil.mpr hxy] at h
      cases h
    · obtain ⟨e', he⟩ := FirstAccountDifference.of_ne hxy
      have hv := he.verdict []
      rw [List.append_nil, h, fail_inj] at hv
      exact hv ▸ he
  · have hv := h.verdict []
    rwa [List.append_nil] at hv

section
variable {k : AccountKeys} {e : ClearSigningError}

theorem validateAccount_eq_fail {i : UInt8} {y : ExpectedAccountMeta} :
    validateAccount k i y = fail e ↔ AccountProblem k i y e := by
  cases hx : k.expandAccount i with
  | none =>
    have hk : k.keys[i.toNat]? = none := Option.map_eq_none_iff.mp hx
    have hf : validateAccount k i y = fail .accountIndexOutOfBounds := by
      unfold validateAccount AccountKeys.get
      simp only [hk, okOr_none, fail_bind]
    rw [hf, fail_inj]
    refine ⟨fun he => he ▸ .index (List.getElem?_eq_none_iff.mp hk), fun h => ?_⟩
    cases h with
    | index => rfl
    | difference hx' =>
      rw [hx] at hx'
      cases hx'
  | some x =>
    rw [validateAccount_eq hx, verdict_accountDifferences]
    refine ⟨.difference hx, fun h => ?_⟩
    cases h with
    | index h =>
      rw [AccountKeys.expandAccount, List.getElem?_eq_none h] at hx
      cases hx
    | difference hx' h =>
      rw [hx, Option.some.injEq] at hx'
      exact hx' ▸ h

theorem validateInstruction_eq_fail {ix : MultisigCompiledInstruction} {y : ExpectedInstruction} :
    validateInstruction k ix y = fail e ↔ InstructionProblem k ix y e := by
  have hok : ∀ {is : List UInt8} {ms : List ExpectedAccountMeta},
      List.Forall₂ (fun i m => validateAccount k i m = .ok ()) is ms ↔ is.mapM k.expandAccount = some ms := by
    intro is ms
    simp only [validateAccount_eq_ok, mapM_eq_some]
  unfold validateInstruction AccountKeys.get
  rw [okOr_bind_eq_fail]
  simp only [require_bind_eq_fail]
  refine ⟨fun h => ?_, fun h => ?_⟩
  · rcases h with ⟨hp, rfl⟩ | ⟨p, hp, ⟨hne, rfl⟩ | ⟨rfl, ⟨hl, rfl⟩ | ⟨hl, h⟩⟩⟩
    · exact .index (List.getElem?_eq_none_iff.mp hp)
    · exact .programId hp hne
    · exact .accountCount hp hl
    · rcases bind_eq_fail.mp h with h | ⟨_, ha, h⟩
      · obtain ⟨pre, i, post, pre', m, post', hx, hy, hpre, h⟩ := (forM_zip_eq_fail hl).mp h
        exact .account hp hl hx hy (hok.mp hpre) (validateAccount_eq_fail.mp h)
      · obtain ⟨hd, rfl⟩ := require_eq_fail.mp h
        exact .data hp (hok.mp (forM_zip_eq_ok.mp ⟨hl, ha⟩)) hd
  · cases h with
    | index h => exact Or.inl ⟨List.getElem?_eq_none h, rfl⟩
    | programId hp h => exact Or.inr ⟨_, hp, Or.inl ⟨h, rfl⟩⟩
    | accountCount hp h => exact Or.inr ⟨_, hp, Or.inr ⟨rfl, Or.inl ⟨h, rfl⟩⟩⟩
    | account hp hl hx hy hpre h =>
      refine Or.inr ⟨_, hp, Or.inr ⟨rfl, Or.inr ⟨hl, bind_eq_fail.mpr (Or.inl ?_)⟩⟩⟩
      exact (forM_zip_eq_fail hl).mpr ⟨_, _, _, _, _, _, hx, hy, hok.mpr hpre, validateAccount_eq_fail.mpr h⟩
    | data hp ha h =>
      obtain ⟨hl, hall⟩ := forM_zip_eq_ok.mpr (hok.mpr ha)
      refine Or.inr ⟨_, hp, Or.inr ⟨rfl, Or.inr ⟨hl, bind_eq_fail.mpr (Or.inr ⟨(), hall, ?_⟩)⟩⟩⟩
      exact require_eq_fail.mpr ⟨h, rfl⟩

theorem validateInstructions_eq_fail {message : VaultTransactionMessage} {shown : List ExpectedInstruction} :
    validateInstructions message k shown = fail e ↔ ContentProblem k message shown e := by
  have hok : ∀ {ixs : List MultisigCompiledInstruction} {ys : List ExpectedInstruction},
      List.Forall₂ (fun ix y => validateInstruction k ix y = .ok ()) ixs ys ↔
        ixs.mapM k.expandInstruction = some ys := by
    intro ixs ys
    simp only [validateInstruction_eq_ok, mapM_eq_some]
  unfold validateInstructions
  rw [require_bind_eq_fail]
  refine ⟨fun h => ?_, fun h => ?_⟩
  · rcases h with ⟨hl, rfl⟩ | ⟨hl, h⟩
    · exact .count hl
    · obtain ⟨pre, ix, post, pre', y, post', hx, hy, hpre, h⟩ :=
        (forM_zip_eq_fail (g := validateInstruction k) hl).mp h
      exact .instruction hl hx hy (hok.mp hpre) (validateInstruction_eq_fail.mp h)
  · cases h with
    | count h => exact Or.inl ⟨h, rfl⟩
    | instruction hl hx hy hpre h =>
      refine Or.inr ⟨hl, (forM_zip_eq_fail (g := validateInstruction k) hl).mpr ?_⟩
      exact ⟨_, _, _, _, _, _, hx, hy, hok.mpr hpre, validateInstruction_eq_fail.mpr h⟩

end

/-! ## The outer transaction -/

/-- The sysvar account lists no transaction: no count, or an instruction below the count that does not load. -/
inductive Undescribed (rt : Runtime) (sysvar : AccountInfo) : Prop
  | short (h : sysvar.data.toList.length < 2)
  | load {i : Nat} (h : 2 ≤ sysvar.data.toList.length) (hi : i < leNat (sysvar.data.toList.take 2))
      (hn : rt.loadInstructionAtChecked i sysvar = none)

section
variable {rt : Runtime} {sysvar : AccountInfo} {top : List Instruction} {e : ClearSigningError}

theorem readTopLevel_loads (h : 2 ≤ sysvar.data.toList.length) : readTopLevel rt sysvar =
    (List.range (leNat (sysvar.data.toList.take 2))).mapM fun i =>
      okOr (rt.loadInstructionAtChecked i sysvar) .instructionsSysvarError := by
  unfold readTopLevel
  generalize sysvar.data.toList = d at h
  match d, h with
  | a :: b :: rest, h =>
    simp only [require_pos h, index, List.getElem?_cons_zero, List.getElem?_cons_succ, ok_bind, List.take_succ_cons,
      List.take_zero]

theorem readTopLevel_eq_ok : readTopLevel rt sysvar = .ok top ↔ Describes rt sysvar top := by
  refine ⟨fun h => ?_, readTopLevel_eq⟩
  have h2 : 2 ≤ sysvar.data.toList.length := by
    unfold readTopLevel at h
    exact (require_bind_eq_ok.mp h).1
  rw [readTopLevel_loads h2, mapM_eq_ok, List.forall₂_iff_get] at h
  obtain ⟨hl, hget⟩ := h
  rw [List.length_range] at hl
  refine ⟨h2, hl, fun i hi => ?_⟩
  have hi' := hget i (by rw [List.length_range, hl]; exact hi) hi
  simp only [List.get_eq_getElem, List.getElem_range, okOr_eq_ok] at hi'
  exact hi'

theorem readTopLevel_fails (h : readTopLevel rt sysvar = fail e) :
    e = .instructionsSysvarError ∧ Undescribed rt sysvar := by
  by_cases h2 : 2 ≤ sysvar.data.toList.length
  · rw [readTopLevel_loads h2, mapM_eq_fail] at h
    obtain ⟨pre, i, post, _, hr, _, hi⟩ := h
    obtain ⟨hn, rfl⟩ := okOr_eq_fail.mp hi
    have hmem : i ∈ List.range (leNat (sysvar.data.toList.take 2)) := by rw [hr]; simp
    exact ⟨rfl, .load h2 (List.mem_range.mp hmem) hn⟩
  · unfold readTopLevel at h
    simp only [require_neg (show ¬sysvar.data.toList.length ≥ 2 from h2), fail_bind, fail_inj] at h
    exact ⟨h.symm, .short (Nat.lt_of_not_le h2)⟩

theorem Undescribed.not_describes (h : Undescribed rt sysvar) : ¬Describes rt sysvar top := by
  intro hd
  cases h with
  | short h => exact absurd hd.two_le (Nat.not_le_of_lt h)
  | load _ hi hn =>
    rw [hd.load _ (hd.count ▸ hi)] at hn
    cases hn

theorem readTopLevel_eq_fail :
    readTopLevel rt sysvar = fail e ↔ e = .instructionsSysvarError ∧ Undescribed rt sysvar := by
  refine ⟨readTopLevel_fails, fun ⟨he, h⟩ => ?_⟩
  rcases (readTopLevel_ensures rt sysvar).cases with ⟨top, hok, -⟩ | ⟨e', hf, -⟩
  · exact absurd (readTopLevel_eq_ok.mp hok) h.not_describes
  · rw [hf, he, (readTopLevel_fails hf).1]

end

/-- The first thing wrong with a Squads instruction that is not the vote expected. -/
inductive VoteProblem (v : VoteExpectation) (ix : Instruction) : ClearSigningError → Prop
  | discriminator (h : ¬v.action.discriminator <+: ix.data) : VoteProblem v ix .unexpectedSquadsInstruction
  | accounts (hd : v.action.discriminator <+: ix.data) (h : ix.accounts.length < 3) :
      VoteProblem v ix .malformedVoteInstruction
  | multisig {a b c : AccountMeta} {rest : List AccountMeta} (hd : v.action.discriminator <+: ix.data)
      (ha : ix.accounts = a :: b :: c :: rest) (h : a.pubkey ≠ v.multisig) : VoteProblem v ix .voteMultisigMismatch
  | member {a b c : AccountMeta} {rest : List AccountMeta} (hd : v.action.discriminator <+: ix.data)
      (ha : ix.accounts = a :: b :: c :: rest) (hm : a.pubkey = v.multisig) (h : b.pubkey ≠ v.member) :
      VoteProblem v ix .voteMemberMismatch
  | signer {a b c : AccountMeta} {rest : List AccountMeta} (hd : v.action.discriminator <+: ix.data)
      (ha : ix.accounts = a :: b :: c :: rest) (hm : a.pubkey = v.multisig) (hb : b.pubkey = v.member)
      (h : b.isSigner = false) : VoteProblem v ix .voteMemberNotSigner
  | proposal {a b c : AccountMeta} {rest : List AccountMeta} (hd : v.action.discriminator <+: ix.data)
      (ha : ix.accounts = a :: b :: c :: rest) (hm : a.pubkey = v.multisig) (hb : b.pubkey = v.member)
      (hs : b.isSigner = true) (h : c.pubkey ≠ v.proposal) : VoteProblem v ix .voteProposalMismatch

theorem ProposalAction.discriminator_length (a : ProposalAction) : a.discriminator.length = 8 := by
  cases a <;> rfl

section
variable {v : VoteExpectation} {ix : Instruction} {e : ClearSigningError}

theorem discriminator_isPrefix : v.action.discriminator <+: ix.data ↔
    8 ≤ ix.data.length ∧ ix.data.take 8 = v.action.discriminator := by
  rw [isPrefix_iff_take, v.action.discriminator_length]

theorem VoteContent.isPrefix (h : VoteContent v ix) : v.action.discriminator <+: ix.data :=
  discriminator_isPrefix.mpr ⟨h.eight_le, h.discriminator⟩

theorem validateVote_eq_fail : validateVote v ix = fail e ↔ VoteProblem v ix e := by
  unfold validateVote
  by_cases hd : v.action.discriminator <+: ix.data
  · obtain ⟨h8, ht⟩ := discriminator_isPrefix.mp hd
    rw [require_pos h8, ok_bind, sliceTo_of_le h8, ok_bind, require_pos ht, ok_bind]
    by_cases hl : 3 ≤ ix.accounts.length
    · obtain ⟨a, b, c, rest, ha⟩ := exists_three hl
      rw [require_pos hl, ok_bind, ha]
      simp only [index, List.getElem?_cons_zero, List.getElem?_cons_succ, ok_bind, require_bind_eq_fail,
        require_eq_fail]
      refine ⟨fun h => ?_, fun h => ?_⟩
      · rcases h with ⟨h, rfl⟩ | ⟨hm, ⟨h, rfl⟩ | ⟨hb, ⟨h, rfl⟩ | ⟨hs, h, rfl⟩⟩⟩
        · exact .multisig hd ha h
        · exact .member hd ha hm h
        · exact .signer hd ha hm hb (Bool.eq_false_iff.mpr h)
        · exact .proposal hd ha hm hb hs h
      · cases h with
        | discriminator h => exact absurd hd h
        | accounts _ h => omega
        | multisig _ ha' h =>
          cases ha.symm.trans ha'
          exact Or.inl ⟨h, rfl⟩
        | member _ ha' hm h =>
          cases ha.symm.trans ha'
          exact Or.inr ⟨hm, Or.inl ⟨h, rfl⟩⟩
        | signer _ ha' hm hb h =>
          cases ha.symm.trans ha'
          exact Or.inr ⟨hm, Or.inr ⟨hb, Or.inl ⟨Bool.eq_false_iff.mp h, rfl⟩⟩⟩
        | proposal _ ha' hm hb hs h =>
          cases ha.symm.trans ha'
          exact Or.inr ⟨hm, Or.inr ⟨hb, Or.inr ⟨hs, h, rfl⟩⟩⟩
    · rw [require_neg hl, fail_bind, fail_inj]
      refine ⟨fun he => he ▸ .accounts hd (Nat.lt_of_not_le hl), fun h => ?_⟩
      have hlen : ∀ {a b c : AccountMeta} {rest}, ix.accounts ≠ a :: b :: c :: rest := by
        intro a b c rest ha
        rw [ha] at hl
        exact hl (Nat.le_add_left 3 rest.length)
      cases h with
      | discriminator h => exact absurd hd h
      | accounts => rfl
      | multisig _ ha | member _ ha | signer _ ha | proposal _ ha => exact absurd ha hlen
  · have hall : .unexpectedSquadsInstruction = e ↔ VoteProblem v ix e := by
      refine ⟨fun he => he ▸ .discriminator hd, fun h => ?_⟩
      cases h with
      | discriminator => rfl
      | accounts hd' | multisig hd' | member hd' | signer hd' | proposal hd' => exact absurd hd' hd
    rw [require_bind]
    split
    · rename_i h8
      rw [sliceTo_of_le h8, ok_bind, require_neg fun ht => hd (discriminator_isPrefix.mpr ⟨h8, ht⟩), fail_bind,
        fail_inj]
      exact hall
    · rw [fail_inj]
      exact hall

/-- Why the outer transaction is refused: its first instruction that is not allowed, or that nothing votes. -/
inductive ShapeProblem (v : VoteExpectation) (top : List Instruction) : ClearSigningError → Prop
  | forbidden {pre post : List Instruction} {ix : Instruction} (ht : top = pre ++ ix :: post)
      (hpre : ∀ y ∈ pre, Allowed v y) (hx : ¬Exempt v ix) (hp : ix.programId ≠ squadsProgramId) :
      ShapeProblem v top .forbiddenInstruction
  | vote {pre post : List Instruction} {ix : Instruction} {e : ClearSigningError} (ht : top = pre ++ ix :: post)
      (hpre : ∀ y ∈ pre, Allowed v y) (hx : ¬Exempt v ix) (hp : ix.programId = squadsProgramId)
      (h : VoteProblem v ix e) : ShapeProblem v top e
  | missing (h : ∀ ix ∈ top, Exempt v ix) : ShapeProblem v top .missingVoteInstruction

theorem countVote_eq_fail : (∀ n, countVote v n ix = fail e) ↔ ¬Exempt v ix ∧
    (ix.programId ≠ squadsProgramId ∧ e = .forbiddenInstruction ∨
      ix.programId = squadsProgramId ∧ VoteProblem v ix e) := by
  by_cases hx : Exempt v ix
  · simp only [countVote_exempt hx]
    exact ⟨fun h => absurd (h 0).symm (fail_ne_ok _ _), fun h => absurd hx h.1⟩
  · by_cases hp : ix.programId = squadsProgramId
    · simp only [countVote_eq, if_neg hx, if_pos hp]
      refine ⟨fun h => ⟨hx, Or.inr ⟨hp, ?_⟩⟩, fun ⟨_, h⟩ n => ?_⟩
      · rcases bind_eq_fail.mp (h 0) with h | ⟨_, _, h⟩
        · exact validateVote_eq_fail.mp h
        · cases h
      · have h := (h.resolve_left fun h => h.1 hp).2
        rw [validateVote_eq_fail.mpr h, fail_bind]
    · simp only [countVote_eq, if_neg hx, if_neg hp, fail_inj, forall_const]
      exact ⟨fun he => ⟨hx, Or.inl ⟨hp, he.symm⟩⟩, fun ⟨_, h⟩ => (h.resolve_right fun h => hp h.1).2.symm⟩

theorem validateTransactionShape_eq_fail {top : List Instruction} (hl : top.length ≤ usizeMax) :
    validateTransactionShape top v = fail e ↔ ShapeProblem v top e := by
  have hfirst : ∀ {pre post : List Instruction} {ix : Instruction} {e : ClearSigningError},
      top = pre ++ ix :: post → (∀ y ∈ pre, Allowed v y) → (∀ n, countVote v n ix = fail e) →
        validateTransactionShape top v = fail e := by
    intro pre post ix e ht hpre hix
    have hle : 0 + pre.length ≤ usizeMax := by rw [ht, List.length_append] at hl; omega
    unfold validateTransactionShape
    rw [ht, foldlM_first hpre hix post 0 hle, fail_bind]
  refine ⟨fun h => ?_, fun h => ?_⟩
  · by_cases ha : ∀ ix ∈ top, Allowed v ix
    · cases shape_allowed hl ha with
      | inl hok =>
        rw [hok.1] at h
        cases h
      | inr hmiss =>
        rw [hmiss.1, fail_inj] at h
        subst h
        refine .missing fun ix hix => ?_
        by_contra hx
        exact hmiss.2 ⟨ix, hix, hx, (ha ix hix).resolve_left hx⟩
    · obtain ⟨pre, ix, post, ht, hpre, hix⟩ := first_not_allowed (by simpa using ha)
      obtain ⟨x, hx⟩ := countVote_not_allowed hix
      have he : x = e := by
        rw [hfirst ht hpre hx, fail_inj] at h
        exact h
      subst he
      obtain ⟨hex, ⟨hp, rfl⟩ | ⟨hp, hv⟩⟩ := countVote_eq_fail.mp hx
      · exact .forbidden ht hpre hex hp
      · exact .vote ht hpre hex hp hv
  · cases h with
    | forbidden ht hpre hx hp => exact hfirst ht hpre (countVote_eq_fail.mpr ⟨hx, Or.inl ⟨hp, rfl⟩⟩)
    | vote ht hpre hx hp hv => exact hfirst ht hpre (countVote_eq_fail.mpr ⟨hx, Or.inr ⟨hp, hv⟩⟩)
    | missing hall =>
      refine ((shape_allowed hl fun ix hix => Or.inl (hall ix hix)).resolve_left fun h => ?_).1
      obtain ⟨-, ix, hix, hc⟩ := h
      exact hc.1 (hall ix hix)

end

/-! ## `verify_proposal` -/

section
variable (rt : Runtime) (ctx : Context VerifyProposal) (args : VerifyProposalArgs)

structure Located : Prop where
  key : ctx.accounts.transaction.key = deriveTransactionPda rt args.multisig args.transactionIndex
  owner : ctx.accounts.transaction.owner = squadsProgramId

/-- The account stores the transaction `tx` that the arguments name. -/
structure Named (tx : VaultTransaction) : Prop where
  stored : VaultTransaction.deserializeChecked ctx.accounts.transaction.data.toList = .ok tx
  multisig : tx.multisig = args.multisig
  index : tx.index = args.transactionIndex
  vaultIndex : tx.vaultIndex = args.vaultIndex
  ephemeralSigners : tx.ephemeralSignerBumps.length = args.numEphemeralSigners.toNat

/-- The remaining accounts are the tables the transaction looks keys up in. -/
structure TablesPassed (tx : VaultTransaction) (tables : List (List Pubkey)) : Prop where
  count : ctx.remainingAccounts.length = tx.message.addressTableLookups.length
  tables : List.Forall₂ (fun p table => TableAccount p.1 p.2 table)
    (ctx.remainingAccounts.zip tx.message.addressTableLookups) tables

/-- The first stage that `args` fail, and the error it reports. -/
inductive ProposalRefused : ClearSigningError → Prop
  | pda (h : ctx.accounts.transaction.key ≠ deriveTransactionPda rt args.multisig args.transactionIndex) :
      ProposalRefused .transactionPdaMismatch
  | owner (hk : ctx.accounts.transaction.key = deriveTransactionPda rt args.multisig args.transactionIndex)
      (h : ctx.accounts.transaction.owner ≠ squadsProgramId) : ProposalRefused .invalidTransactionOwner
  | unreadable {e : ClearSigningError} (hl : Located rt ctx args)
      (h : Unreadable ctx.accounts.transaction.data.toList e) : ProposalRefused e
  | misnamed {tx : VaultTransaction} {e : ClearSigningError} (hl : Located rt ctx args)
      (hs : VaultTransaction.deserializeChecked ctx.accounts.transaction.data.toList = .ok tx)
      (h : Misnamed tx args e) : ProposalRefused e
  | tableCount {tx : VaultTransaction} (hl : Located rt ctx args) (hn : Named ctx args tx)
      (h : ctx.remainingAccounts.length ≠ tx.message.addressTableLookups.length) :
      ProposalRefused .lookupTableCountMismatch
  | table {tx : VaultTransaction} {e : ClearSigningError} (hl : Located rt ctx args) (hn : Named ctx args tx)
      (hc : ctx.remainingAccounts.length = tx.message.addressTableLookups.length)
      (h : FirstBadTable ctx.remainingAccounts tx.message.addressTableLookups e) : ProposalRefused e
  | tableIndex {tx : VaultTransaction} {tables : List (List Pubkey)} (hl : Located rt ctx args)
      (hn : Named ctx args tx) (ht : TablesPassed ctx tx tables) (h : ¬LookupsInRange tx.message tables) :
      ProposalRefused .lookupTableIndexOutOfBounds
  | content {tx : VaultTransaction} {tables : List (List Pubkey)} {k : AccountKeys} {e : ClearSigningError}
      (hl : Located rt ctx args) (hn : Named ctx args tx) (ht : TablesPassed ctx tx tables)
      (hk : AccountKeys.resolve tx.message tables = .ok k) (h : ContentProblem k tx.message args.instructions e) :
      ProposalRefused e
  | sysvar {tx : VaultTransaction} {tables : List (List Pubkey)} (hl : Located rt ctx args)
      (hn : Named ctx args tx) (ht : TablesPassed ctx tx tables)
      (hx : expansion tx.message tables = some args.instructions)
      (h : Undescribed rt ctx.accounts.instructionsSysvar) : ProposalRefused .instructionsSysvarError
  | shape {tx : VaultTransaction} {tables : List (List Pubkey)} {top : List Instruction} {e : ClearSigningError}
      (hl : Located rt ctx args) (hn : Named ctx args tx) (ht : TablesPassed ctx tx tables)
      (hx : expansion tx.message tables = some args.instructions)
      (hd : Describes rt ctx.accounts.instructionsSysvar top) (h : ShapeProblem (args.expectation rt) top e) :
      ProposalRefused e

end

section
variable {rt : Runtime} {ctx : Context VerifyProposal} {args : VerifyProposalArgs}

theorem named_bind_eq_fail {tx : VaultTransaction} {f : Unit → Result Unit} {e : ClearSigningError} :
    (require (tx.multisig = args.multisig) .multisigMismatch >>= fun _ =>
      require (tx.index = args.transactionIndex) .transactionIndexMismatch >>= fun _ =>
      require (tx.vaultIndex = args.vaultIndex) .vaultIndexMismatch >>= fun _ =>
      require (tx.ephemeralSignerBumps.length = args.numEphemeralSigners.toNat) .ephemeralSignersMismatch >>= f) =
        fail e ↔
      Misnamed tx args e ∨ (tx.multisig = args.multisig ∧ tx.index = args.transactionIndex ∧
        tx.vaultIndex = args.vaultIndex ∧ tx.ephemeralSignerBumps.length = args.numEphemeralSigners.toNat) ∧
          f () = fail e := by
  simp only [require_bind_eq_fail]
  refine ⟨fun h => ?_, fun h => ?_⟩
  · rcases h with ⟨h, rfl⟩ | ⟨hm, ⟨h, rfl⟩ | ⟨hi, ⟨h, rfl⟩ | ⟨hv, ⟨h, rfl⟩ | ⟨he, h⟩⟩⟩⟩
    · exact Or.inl (.multisig h)
    · exact Or.inl (.index hm h)
    · exact Or.inl (.vaultIndex hm hi h)
    · exact Or.inl (.ephemeralSigners hm hi hv h)
    · exact Or.inr ⟨⟨hm, hi, hv, he⟩, h⟩
  · rcases h with h | ⟨⟨hm, hi, hv, he⟩, h⟩
    · cases h with
      | multisig h => exact Or.inl ⟨h, rfl⟩
      | index hm h => exact Or.inr ⟨hm, Or.inl ⟨h, rfl⟩⟩
      | vaultIndex hm hi h => exact Or.inr ⟨hm, Or.inr ⟨hi, Or.inl ⟨h, rfl⟩⟩⟩
      | ephemeralSigners hm hi hv h => exact Or.inr ⟨hm, Or.inr ⟨hi, Or.inr ⟨hv, Or.inl ⟨h, rfl⟩⟩⟩⟩
    · exact Or.inr ⟨hm, Or.inr ⟨hi, Or.inr ⟨hv, Or.inr ⟨he, h⟩⟩⟩⟩

theorem TablesPassed.length_eq {tx : VaultTransaction} {tables : List (List Pubkey)} (h : TablesPassed ctx tx tables) :
    tables.length = tx.message.addressTableLookups.length := by
  rw [← h.tables.length_eq, List.length_zip, h.count, Nat.min_self]

theorem TablesPassed.mapM {tx : VaultTransaction} {tables : List (List Pubkey)} (h : TablesPassed ctx tx tables) :
    ((ctx.remainingAccounts.zip tx.message.addressTableLookups).mapM fun (account, lookup) =>
      readLookupTable account lookup) = .ok tables :=
  mapM_eq_ok.mpr (h.tables.imp fun _ _ ht => readLookupTable_eq_ok.mpr ht)

theorem outer_eq_fail {e : ClearSigningError} :
    (readTopLevel rt ctx.accounts.instructionsSysvar >>= fun top =>
      validateTransactionShape top (args.expectation rt)) = fail e ↔
      (e = .instructionsSysvarError ∧ Undescribed rt ctx.accounts.instructionsSysvar) ∨
        ∃ top, Describes rt ctx.accounts.instructionsSysvar top ∧ ShapeProblem (args.expectation rt) top e := by
  rw [bind_eq_fail, readTopLevel_eq_fail]
  simp only [readTopLevel_eq_ok]
  refine or_congr_right (exists_congr fun top => and_congr_right fun hd => ?_)
  exact validateTransactionShape_eq_fail hd.length_le

theorem resolved_eq_fail {tx : VaultTransaction} {tables : List (List Pubkey)} {e : ClearSigningError}
    (hl : tables.length = tx.message.addressTableLookups.length) :
    (AccountKeys.resolve tx.message tables >>= fun k => validateInstructions tx.message k args.instructions >>= fun _ =>
      readTopLevel rt ctx.accounts.instructionsSysvar >>= fun top =>
        validateTransactionShape top (args.expectation rt)) = fail e ↔
      (e = .lookupTableIndexOutOfBounds ∧ ¬LookupsInRange tx.message tables) ∨
      (∃ k, AccountKeys.resolve tx.message tables = .ok k ∧ ContentProblem k tx.message args.instructions e) ∨
      expansion tx.message tables = some args.instructions ∧
        ((e = .instructionsSysvarError ∧ Undescribed rt ctx.accounts.instructionsSysvar) ∨
          ∃ top, Describes rt ctx.accounts.instructionsSysvar top ∧ ShapeProblem (args.expectation rt) top e) := by
  rw [bind_eq_fail, resolve_eq_fail hl, expansion_eq_some, ← outer_eq_fail]
  refine or_congr_right ⟨fun ⟨k, hk, h⟩ => ?_, fun h => ?_⟩
  · rcases bind_eq_fail.mp h with h | ⟨_, hval, h⟩
    · exact Or.inl ⟨k, hk, validateInstructions_eq_fail.mp h⟩
    · exact Or.inr ⟨⟨k, hk, hval⟩, h⟩
  · rcases h with ⟨k, hk, h⟩ | ⟨⟨k, hk, hval⟩, h⟩
    · exact ⟨k, hk, bind_eq_fail.mpr (Or.inl (validateInstructions_eq_fail.mpr h))⟩
    · exact ⟨k, hk, bind_eq_fail.mpr (Or.inr ⟨(), hval, h⟩)⟩

theorem located_eq_fail {e : ClearSigningError} (hl : Located rt ctx args) :
    verifyProposal rt ctx args = fail e ↔ Unreadable ctx.accounts.transaction.data.toList e ∨
      ∃ tx, VaultTransaction.deserializeChecked ctx.accounts.transaction.data.toList = .ok tx ∧
        (Misnamed tx args e ∨ Named ctx args tx ∧
          ((ctx.remainingAccounts.length ≠ tx.message.addressTableLookups.length ∧ .lookupTableCountMismatch = e) ∨
            ctx.remainingAccounts.length = tx.message.addressTableLookups.length ∧
              FirstBadTable ctx.remainingAccounts tx.message.addressTableLookups e ∨
            ∃ tables, TablesPassed ctx tx tables ∧
              (AccountKeys.resolve tx.message tables >>= fun k =>
                validateInstructions tx.message k args.instructions >>= fun _ =>
                readTopLevel rt ctx.accounts.instructionsSysvar >>= fun top =>
                  validateTransactionShape top (args.expectation rt)) = fail e)) := by
  unfold verifyProposal
  simp only [require_pos hl.key, require_pos hl.owner, ok_bind]
  rw [bind_eq_fail, deserializeChecked_eq_fail]
  refine or_congr_right (exists_congr fun tx => and_congr_right fun htx => ?_)
  rw [named_bind_eq_fail, require_bind_eq_fail, bind_eq_fail, readTables_eq_fail]
  refine or_congr_right ⟨fun h => ?_, fun h => ?_⟩
  · obtain ⟨⟨hm, hi, hv, he⟩, h⟩ := h
    refine ⟨⟨htx, hm, hi, hv, he⟩, ?_⟩
    rcases h with h | ⟨hc, h | ⟨tables, ht, h⟩⟩
    · exact Or.inl h
    · exact Or.inr (Or.inl ⟨hc, h⟩)
    · have ht' := (mapM_eq_ok.mp ht).imp fun _ _ h => readLookupTable_eq_ok.mp h
      exact Or.inr (Or.inr ⟨tables, ⟨hc, ht'⟩, h⟩)
  · obtain ⟨hn, h⟩ := h
    refine ⟨⟨hn.multisig, hn.index, hn.vaultIndex, hn.ephemeralSigners⟩, ?_⟩
    rcases h with h | ⟨hc, h⟩ | ⟨tables, ht, h⟩
    · exact Or.inl h
    · exact Or.inr ⟨hc, Or.inl h⟩
    · exact Or.inr ⟨ht.count, Or.inr ⟨tables, ht.mapM, h⟩⟩

theorem verifyProposal_eq_fail {e : ClearSigningError} :
    verifyProposal rt ctx args = fail e ↔ ProposalRefused rt ctx args e := by
  by_cases hk : ctx.accounts.transaction.key = deriveTransactionPda rt args.multisig args.transactionIndex
  · by_cases ho : ctx.accounts.transaction.owner = squadsProgramId
    · have hl : Located rt ctx args := ⟨hk, ho⟩
      rw [located_eq_fail hl]
      refine ⟨fun h => ?_, fun h => ?_⟩
      · rcases h with h | ⟨tx, htx, h | ⟨hn, ⟨hc, rfl⟩ | ⟨hc, h⟩ | ⟨tables, ht, h⟩⟩⟩
        · exact .unreadable hl h
        · exact .misnamed hl htx h
        · exact .tableCount hl hn hc
        · exact .table hl hn hc h
        · rcases (resolved_eq_fail ht.length_eq).mp h with ⟨rfl, hr⟩ | ⟨k, hk, hc⟩ | ⟨hx, ⟨rfl, hu⟩ | ⟨top, hd, hs⟩⟩
          · exact .tableIndex hl hn ht hr
          · exact .content hl hn ht hk hc
          · exact .sysvar hl hn ht hx hu
          · exact .shape hl hn ht hx hd hs
      · cases h with
        | pda h => exact absurd hk h
        | owner _ h => exact absurd ho h
        | unreadable _ h => exact Or.inl h
        | misnamed _ hs h => exact Or.inr ⟨_, hs, Or.inl h⟩
        | tableCount _ hn h => exact Or.inr ⟨_, hn.stored, Or.inr ⟨hn, Or.inl ⟨h, rfl⟩⟩⟩
        | table _ hn hc h => exact Or.inr ⟨_, hn.stored, Or.inr ⟨hn, Or.inr (Or.inl ⟨hc, h⟩)⟩⟩
        | tableIndex _ hn ht h =>
          refine Or.inr ⟨_, hn.stored, Or.inr ⟨hn, Or.inr (Or.inr ⟨_, ht, ?_⟩)⟩⟩
          exact (resolved_eq_fail ht.length_eq).mpr (Or.inl ⟨rfl, h⟩)
        | content _ hn ht hk h =>
          refine Or.inr ⟨_, hn.stored, Or.inr ⟨hn, Or.inr (Or.inr ⟨_, ht, ?_⟩)⟩⟩
          exact (resolved_eq_fail ht.length_eq).mpr (Or.inr (Or.inl ⟨_, hk, h⟩))
        | sysvar _ hn ht hx h =>
          refine Or.inr ⟨_, hn.stored, Or.inr ⟨hn, Or.inr (Or.inr ⟨_, ht, ?_⟩)⟩⟩
          exact (resolved_eq_fail ht.length_eq).mpr (Or.inr (Or.inr ⟨hx, Or.inl ⟨rfl, h⟩⟩))
        | shape _ hn ht hx hd h =>
          refine Or.inr ⟨_, hn.stored, Or.inr ⟨hn, Or.inr (Or.inr ⟨_, ht, ?_⟩)⟩⟩
          exact (resolved_eq_fail ht.length_eq).mpr (Or.inr (Or.inr ⟨hx, Or.inr ⟨_, hd, h⟩⟩))
    · unfold verifyProposal
      simp only [require_pos hk, require_neg ho, ok_bind, fail_bind, fail_inj]
      refine ⟨fun he => he ▸ .owner hk ho, fun h => ?_⟩
      cases h with
      | pda h => exact absurd hk h
      | owner => rfl
      -- every later stage presupposes the owner
      | unreadable hl | misnamed hl | tableCount hl | table hl | tableIndex hl | content hl | sysvar hl | shape hl =>
        exact absurd hl.owner ho
  · unfold verifyProposal
    simp only [require_neg hk, fail_bind, fail_inj]
    refine ⟨fun he => he ▸ .pda hk, fun h => ?_⟩
    cases h with
    | pda => rfl
    | owner hk' => exact absurd hk' hk
    | unreadable hl | misnamed hl | tableCount hl | table hl | tableIndex hl | content hl | sysvar hl | shape hl =>
      exact absurd hl.key hk

theorem verifyProposal_eq_ok_iff : verifyProposal rt ctx args = .ok () ↔
    ∃ top, Describes rt ctx.accounts.instructionsSysvar top ∧ ∃ tx tables, Accepted rt ctx args top tx tables := by
  refine ⟨fun h => ?_, fun ⟨top, hs, h⟩ => (verifyProposal_eq_ok hs).mpr h⟩
  have htop := h
  unfold verifyProposal at htop
  simp only [bind_eq_ok, require_eq_ok, exists_const, readTopLevel_eq_ok] at htop
  obtain ⟨-, -, _, -, -, -, -, -, -, _, -, _, -, _, -, top, hs, -⟩ := htop
  exact ⟨top, hs, (verifyProposal_eq_ok hs).mp h⟩

end

/-- Every input is accepted or refused at exactly one stage, with that stage's error. -/
theorem verifyProposal_refuses (rt : Runtime) (ctx : Context VerifyProposal) (args : VerifyProposalArgs) :
    (∀ e, verifyProposal rt ctx args = fail e ↔ ProposalRefused rt ctx args e) ∧
    ((∃! e, ProposalRefused rt ctx args e) ↔
      ¬∃ top, Describes rt ctx.accounts.instructionsSysvar top ∧
        ∃ tx tables, Accepted rt ctx args top tx tables) := by
  refine ⟨fun e => verifyProposal_eq_fail, ?_⟩
  rw [← verifyProposal_eq_ok_iff]
  simp only [← verifyProposal_eq_fail]
  exact NoPanic.exists_unique_fail (verifyProposal_noPanic rt ctx args)

/-! ## `verify_buffer_hash` -/

/-- The first check that `args` fail, and the error it reports. -/
inductive BufferRefused (rt : Runtime) (buffer : AccountInfo) (args : VerifyBufferHashArgs) : ClearSigningError → Prop
  | key (h : buffer.key ≠ args.buffer) : BufferRefused rt buffer args .bufferKeyMismatch
  | owner (hk : buffer.key = args.buffer) (h : buffer.owner ≠ bpfLoaderUpgradeableId) :
      BufferRefused rt buffer args .invalidBufferOwner
  | notABuffer (hk : buffer.key = args.buffer) (ho : buffer.owner = bpfLoaderUpgradeableId)
      (h : ¬(bufferMetadataSize ≤ buffer.data.toList.length ∧ leNat (buffer.data.toList.take 4) = bufferStateTag)) :
      BufferRefused rt buffer args .notABuffer
  | hash {p : Bytes} (hk : buffer.key = args.buffer) (hb : IsBuffer buffer) (hp : Trimmed buffer.program p)
      (h : args.expectedHash ≠ hexString (rt.sha256 p).toList) : BufferRefused rt buffer args .bufferHashMismatch

theorem extractBufferProgramBytes_eq_fail {d : Bytes} {e : ClearSigningError} :
    extractBufferProgramBytes d = fail e ↔
      e = .notABuffer ∧ ¬(bufferMetadataSize ≤ d.length ∧ leNat (d.take 4) = bufferStateTag) := by
  unfold extractBufferProgramBytes
  by_cases hd : bufferMetadataSize ≤ d.length
  · have h37 : bufferMetadataSize = 37 := rfl
    have hok : (Except.ok (d.drop bufferMetadataSize) : Result Bytes) ≠ fail e := (fail_ne_ok _ _).symm
    rw [require_pos hd, ok_bind, u32FromLeBytes_slice_bind (by omega), sliceFrom_of_le hd, require_bind_eq_fail]
    simp only [hd, hok, true_and, and_false, or_false]
    exact ⟨fun ⟨h, he⟩ => ⟨he.symm, h⟩, fun ⟨he, h⟩ => ⟨h, he.symm⟩⟩
  · rw [require_neg hd, fail_bind, fail_inj]
    simp only [hd, false_and, not_false_eq_true, and_true, eq_comm]

theorem verifyBufferHash_eq_fail {rt : Runtime} {ctx : Context VerifyBufferHash} {args : VerifyBufferHashArgs}
    {e : ClearSigningError} : verifyBufferHash rt ctx args = fail e ↔ BufferRefused rt ctx.accounts.buffer args e := by
  refine ⟨fun h => ?_, fun h => ?_⟩
  · obtain ⟨p, hp⟩ := exists_trimmed ctx.accounts.buffer.program
    by_cases hb : ctx.accounts.buffer.key = args.buffer ∧ IsBuffer ctx.accounts.buffer
    · have hne : args.expectedHash ≠ hexString (rt.sha256 p).toList := by
        intro hs
        rw [(verifyBufferHash_eq_ok hp).mpr ⟨hb.1, hb.2, hs⟩] at h
        exact fail_ne_ok _ _ h.symm
      rw [verifyBufferHash_mismatch hp hb.1 hb.2 hne, fail_inj] at h
      exact h ▸ .hash hb.1 hb.2 hp hne
    · unfold verifyBufferHash at h
      simp only [require_bind_eq_fail] at h
      rcases h with ⟨hk, rfl⟩ | ⟨hk, ⟨ho, rfl⟩ | ⟨ho, h⟩⟩
      · exact .key hk
      · exact .owner hk ho
      · rcases bind_eq_fail.mp h with h | ⟨b, hx, -⟩
        · obtain ⟨rfl, hn⟩ := extractBufferProgramBytes_eq_fail.mp h
          exact .notABuffer hk ho hn
        · obtain ⟨hsize, htag, -⟩ := extractBufferProgramBytes_eq_ok.mp hx
          exact absurd ⟨hk, ho, hsize, htag⟩ hb
  · cases h with
    | key h =>
      unfold verifyBufferHash
      simp only [require_neg h, fail_bind]
    | owner hk h =>
      unfold verifyBufferHash
      simp only [require_pos hk, require_neg h, ok_bind, fail_bind]
    | notABuffer hk ho h =>
      have hx := extractBufferProgramBytes_eq_fail.mpr ⟨rfl, h⟩
      unfold verifyBufferHash
      simp only [require_pos hk, require_pos ho, ok_bind, hx, fail_bind]
    | hash hk hb hp h => exact verifyBufferHash_mismatch hp hk hb h

theorem verifyBufferHash_holds {rt : Runtime} {ctx : Context VerifyBufferHash} {args : VerifyBufferHashArgs} :
    verifyBufferHash rt ctx args = .ok () ↔
      ctx.accounts.buffer.key = args.buffer ∧ Holds rt ctx.accounts.buffer args.expectedHash := by
  obtain ⟨p, hp⟩ := exists_trimmed ctx.accounts.buffer.program
  rw [verifyBufferHash_eq_ok hp]
  refine and_congr_right fun _ => and_congr_right fun _ => ⟨fun h => ⟨p, hp, h⟩, fun ⟨q, hq, h⟩ => ?_⟩
  rw [h, trimmed_unique hp hq]

/-- Every buffer and hash is accepted or refused at exactly one check, with that check's error. -/
theorem verifyBufferHash_refuses (rt : Runtime) (ctx : Context VerifyBufferHash) (args : VerifyBufferHashArgs) :
    (∀ e, verifyBufferHash rt ctx args = fail e ↔ BufferRefused rt ctx.accounts.buffer args e) ∧
    ((∃! e, BufferRefused rt ctx.accounts.buffer args e) ↔
      ¬(ctx.accounts.buffer.key = args.buffer ∧ Holds rt ctx.accounts.buffer args.expectedHash)) := by
  refine ⟨fun e => verifyBufferHash_eq_fail, ?_⟩
  rw [← verifyBufferHash_holds]
  simp only [← verifyBufferHash_eq_fail]
  exact NoPanic.exists_unique_fail (verifyBufferHash_noPanic rt ctx args)

end ClearSigning
