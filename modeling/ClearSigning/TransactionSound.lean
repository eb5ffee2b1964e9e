import ClearSigning.Transaction

/-!
# A transaction with an accepted check is its vote

Where a transaction that holds a `verify_proposal` succeeds, it did what its
Squads instructions alone do, each of them is the vote shown, and the content
shown is the ledger's before and after.
-/

namespace ClearSigning

open Exec

/-! ## Content is read from the accounts that carry it -/

namespace Ledger

variable {L L' L'' : Ledger}

theorem Preserves.refl (L : Ledger) : L.Preserves L := fun _ _ => rfl

theorem Preserves.trans (h : L.Preserves L') (h' : L'.Preserves L'') : L.Preserves L'' := by
  intro key hc
  have hkey := h key hc
  rw [← hkey] at hc ⊢
  exact h' key hc

theorem carries_of_vaultTransaction {rt : Runtime} {multisig : Pubkey} {index : UInt64} {tx : VaultTransaction}
    (h : L.vaultTransaction rt multisig index = some tx) : (L (deriveTransactionPda rt multisig index)).Carries := by
  obtain ⟨hd, ho, -, -⟩ := Ledger.vaultTransaction_eq_some.mp h
  obtain ⟨e, s, -, hdata⟩ := VaultTransaction.deserializeChecked_eq_ok.mp hd
  refine Or.inr (Or.inl ⟨ho, ?_⟩)
  rw [hdata, List.append_assoc]
  exact List.prefix_append ..

theorem Preserves.vaultTransaction (h : L.Preserves L') {rt : Runtime} {multisig : Pubkey} {index : UInt64}
    {tx : VaultTransaction} (htx : L.vaultTransaction rt multisig index = some tx) :
    L'.vaultTransaction rt multisig index = some tx := by
  have hsame := h _ (carries_of_vaultTransaction htx)
  rw [Ledger.vaultTransaction_eq_some] at htx ⊢
  rwa [hsame]

theorem Preserves.table (h : L.Preserves L') {key : Pubkey} {table : List Pubkey} (ht : L.table key = some table) :
    L'.table key = some table := by
  rw [Ledger.table_eq_some] at ht ⊢
  rwa [h key (Or.inl ht.1)]

theorem Preserves.content (h : L.Preserves L') {tx : VaultTransaction} {args : VerifyProposalArgs}
    (hc : L.content tx = some args.content) : L'.content tx = some args.content := by
  rw [Ledger.content_eq_some] at hc ⊢
  obtain ⟨hv, he, tables, ht, hx⟩ := hc
  refine ⟨hv, he, tables, ?_, hx⟩
  rw [mapM_eq_some] at ht ⊢
  exact ht.imp fun _ _ ht => h.table ht

end Ledger

theorem sysvar_not_carries {a : AccountState} (h : a.owner = sysvarProgramId) : ¬a.Carries := by
  have hne : sysvarProgramId ≠ addressLookupTableProgramId ∧ sysvarProgramId ≠ squadsProgramId ∧
      sysvarProgramId ≠ bpfLoaderUpgradeableId := by decide +kernel
  intro hc
  unfold AccountState.Carries at hc
  rw [h] at hc
  exact hc.elim hne.1 fun hc => hc.elim (fun hc => hne.2.1 hc.1) hne.2.2

/-! ## One instruction -/

theorem Ledger.context_of_takes {L : Ledger} {metas : List AccountMeta} {ctx : Context VerifyProposal}
    (h : VerifyProposal.Takes (metas.map fun m => L.info m.pubkey) ctx) :
    ∃ transaction remaining, ctx = L.context transaction (L.info instructionsSysvarId) rfl remaining := by
  obtain ⟨⟨t, s, hs⟩, rest⟩ := ctx
  match metas, h with
  | a :: b :: metas, h =>
    unfold VerifyProposal.Takes at h
    simp only [List.map_cons, List.cons.injEq] at h
    obtain ⟨rfl, rfl, rfl⟩ := h
    have hb : b.pubkey = instructionsSysvarId := hs
    refine ⟨a.pubkey, metas.map (·.pubkey), ?_⟩
    simp only [Ledger.context, ← hb, List.map_map, Function.comp_def]

namespace Cluster

variable {σ : Type} {c : Cluster σ} {s t : σ} {top : List Instruction} {i : Nat} {ix : Instruction}

theorem view_preserves : (c.view top i s).Preserves (c.ledger s) := by
  intro key hc
  have hne : key ≠ instructionsSysvarId := by
    intro he
    subst he
    have hown : (c.view top i s instructionsSysvarId).owner = sysvarProgramId := by
      unfold view
      rw [Function.update_self]
      rfl
    exact sysvar_not_carries hown hc
  exact (Function.update_of_ne hne _ _).symm

theorem Lists.describes (hl : c.Lists top) (hi : i < top.length) :
    Describes c.rt ((c.view top i s).info instructionsSysvarId) top := by
  have hsysvar : (c.view top i s).info instructionsSysvarId =
      { key := instructionsSysvarId, owner := sysvarProgramId, data := c.sysvar top i } := by
    unfold Ledger.info view
    rw [Function.update_self]
    rfl
  exact hsysvar ▸ hl i hi

theorem invoke_program (hp : ix.programId = programId) : c.invoke top s (ix, i) = some t ↔
    entry c.rt (ix.accounts.map fun m => (c.view top i s).info m.pubkey) ix.data = .ok () ∧ t = s := by
  unfold invoke
  rw [if_pos hp, Option.ite_none_right_eq_some, Option.some.injEq, eq_comm (a := s)]

theorem invoke_other (hp : ix.programId ≠ programId) : c.invoke top s (ix, i) = c.execute s ix := if_neg hp

/-- An accepted `verify_proposal`, read off the ledger it ran on. -/
theorem invoke_verified (hl : c.Lists top) (hi : i < top.length) (hp : ix.programId = programId)
    {args : VerifyProposalArgs} (hs : ShowsProposal ix.data args) (h : c.invoke top s (ix, i) = some t) :
    (∃ tx, (c.ledger s).vaultTransaction c.rt args.multisig args.transactionIndex = some tx ∧
      (c.ledger s).content tx = some args.content) ∧
    (∀ y ∈ top, Allowed (args.expectation c.rt) y) ∧ ∃ y ∈ top, Counts (args.expectation c.rt) y := by
  obtain ⟨hok, -⟩ := (invoke_program hp).mp h
  obtain ⟨args', ctx, hs', htakes, hver⟩ := (entry_proposal_eq_ok hs.isPrefix).mp hok
  obtain rfl := hs.unique hs'
  obtain ⟨transaction, remaining, rfl⟩ := Ledger.context_of_takes htakes
  obtain ⟨-, tx, htx, -, hc, hall, hvote⟩ := (verifyProposal_iff_content (hl.describes hi)).mp hver
  exact ⟨⟨tx, view_preserves.vaultTransaction htx, view_preserves.content hc⟩, hall, hvote⟩

/-- Among allowed instructions only the votes do anything. -/
theorem invoke_allowed (hlaw : c.Lawful) {e : VoteExpectation} (he : e.selfProgram = programId) (ha : Allowed e ix)
    (h : c.invoke top s (ix, i) = some t) :
    ix.programId = squadsProgramId ∧ MatchingVote e ix ∧ c.execute s ix = some t ∨
      ix.programId ≠ squadsProgramId ∧ t = s := by
  have hne : squadsProgramId ≠ programId ∧ squadsProgramId ≠ computeBudgetProgramId ∧
      computeBudgetProgramId ≠ programId := by decide +kernel
  cases ha with
  | inl hx =>
    rcases hx with hp | hp
    · rw [he] at hp
      exact Or.inr ⟨hp ▸ hne.1.symm, ((invoke_program hp).mp h).2⟩
    · rw [invoke_other (hp ▸ hne.2.2)] at h
      exact Or.inr ⟨hp ▸ hne.2.1.symm, hlaw.computeBudget hp h⟩
  | inr hv =>
    rw [invoke_other (hv.1 ▸ hne.1)] at h
    exact Or.inl ⟨hv.1, hv, h⟩

/-! ## A run of allowed instructions -/

section
variable {e : VoteExpectation} {l : List (Instruction × Nat)}

theorem run_allowed_preserves (hlaw : c.Lawful) (he : e.selfProgram = programId) (ha : ∀ p ∈ l, Allowed e p.1)
    (h : Trace.run (c.invoke top) s l = some t) :
    (c.ledger s).Preserves (c.ledger t) ∧ (c.ledger t).Preserves (c.ledger s) := by
  refine Trace.run_related (R := fun s t => (c.ledger s).Preserves (c.ledger t) ∧ (c.ledger t).Preserves (c.ledger s))
    (fun s => ⟨.refl _, .refl _⟩) (fun h h' => ⟨h.1.trans h'.1, h'.2.trans h.2⟩) (fun {u p v} hp hstep => ?_) h
  rcases invoke_allowed hlaw he (ha p hp) hstep with ⟨hsquads, hm, hx⟩ | ⟨-, rfl⟩
  · exact hlaw.vote_ledger hsquads hm.2.isPrefix hx
  · exact ⟨.refl _, .refl _⟩

theorem run_allowed_filter (hlaw : c.Lawful) (he : e.selfProgram = programId) (ha : ∀ y ∈ top, Allowed e y)
    (h : c.transact s top = some t) :
    Trace.run c.execute s (top.filter (·.programId = squadsProgramId)) = some t := by
  have hmem : ∀ {p : Instruction × Nat}, p ∈ top.zipIdx → p.1 ∈ top := fun hp => List.fst_mem_of_mem_zipIdx hp
  have hne : squadsProgramId ≠ programId := by decide +kernel
  -- what is allowed and not a vote leaves the state alone
  have hkeep : ∀ {u p v}, p ∈ top.zipIdx → decide (p.1.programId = squadsProgramId) = false →
      c.invoke top u p = some v → v = u := by
    intro u p v hp hk hstep
    rcases invoke_allowed hlaw he (ha _ (hmem hp)) hstep with ⟨hsquads, -⟩ | ⟨-, hsame⟩
    · simp [hsquads] at hk
    · exact hsame
  have hkept := Trace.run_filter hkeep h
  have hfilter := @List.filter_map _ _ Prod.fst (fun ix : Instruction => decide (ix.programId = squadsProgramId))
    top.zipIdx
  rw [List.zipIdx_map_fst] at hfilter
  rw [hfilter, Trace.run_map, ← hkept]
  refine Trace.run_congr fun p hp u => ?_
  have hsquads : p.1.programId = squadsProgramId := of_decide_eq_true (List.mem_filter.mp hp).2
  exact (invoke_other (hsquads ▸ hne)).symm

end

theorem exists_mem_zipIdx {l : List Instruction} (h : ix ∈ l) : ∃ i, (ix, i) ∈ l.zipIdx := by
  obtain ⟨i, hi, hget⟩ := List.mem_iff_getElem.mp h
  exact ⟨i, by rw [List.mem_zipIdx_iff_getElem?, List.getElem?_eq_getElem hi, hget]⟩

/-- An instruction of the program that a transaction ran, and the state it ran in. -/
theorem transact_ran (hix : ix ∈ top) (hp : ix.programId = programId) (h : c.transact s top = some t) :
    ∃ i l l' u, i < top.length ∧ top.zipIdx = l ++ l' ∧ Trace.run (c.invoke top) s l = some u ∧
      c.invoke top u (ix, i) = some u ∧ Trace.run (c.invoke top) u l' = some t := by
  obtain ⟨i, hmem⟩ := exists_mem_zipIdx hix
  obtain ⟨l, l', hsplit⟩ := List.append_of_mem hmem
  unfold transact at h
  rw [hsplit] at h
  obtain ⟨u, v, hu, huv, hv⟩ := Trace.run_split.mp h
  obtain ⟨-, rfl⟩ := (invoke_program hp).mp huv
  exact ⟨i, l, (ix, i) :: l', _, List.snd_lt_of_mem_zipIdx hmem, hsplit, hu, huv, Trace.run_cons.mpr ⟨_, huv, hv⟩⟩

theorem transact_shown (hl : c.Lists top) {args : VerifyProposalArgs} (hs : Shown top args)
    (h : c.transact s top = some t) : ∃ l l' u, top.zipIdx = l ++ l' ∧ Trace.run (c.invoke top) s l = some u ∧
      Trace.run (c.invoke top) u l' = some t ∧
      (∃ tx, (c.ledger u).vaultTransaction c.rt args.multisig args.transactionIndex = some tx ∧
        (c.ledger u).content tx = some args.content) ∧
      (∀ y ∈ top, Allowed (args.expectation c.rt) y) ∧ ∃ y ∈ top, Counts (args.expectation c.rt) y := by
  obtain ⟨ix, hix, hp, hshow⟩ := hs
  obtain ⟨i, l, l', u, hi, hsplit, hu, hstep, ht⟩ := transact_ran hix hp h
  exact ⟨l, l', u, hsplit, hu, ht, invoke_verified hl hi hp hshow hstep⟩

theorem transact_content (hlaw : c.Lawful) (hl : c.Lists top) {args : VerifyProposalArgs} (hs : Shown top args)
    (h : c.transact s top = some t) :
    (∃ tx, (c.ledger s).vaultTransaction c.rt args.multisig args.transactionIndex = some tx ∧
      (c.ledger s).content tx = some args.content ∧
      (c.ledger t).vaultTransaction c.rt args.multisig args.transactionIndex = some tx ∧
      (c.ledger t).content tx = some args.content) ∧
    (∀ y ∈ top, Allowed (args.expectation c.rt) y) ∧ ∃ y ∈ top, Counts (args.expectation c.rt) y := by
  obtain ⟨l, l', u, hsplit, hu, ht, ⟨tx, htx, hc⟩, hall, hvote⟩ := transact_shown hl hs h
  have hmem : ∀ p ∈ l ++ l', Allowed (args.expectation c.rt) p.1 := by
    intro p hp
    rw [← hsplit] at hp
    exact hall _ (List.fst_mem_of_mem_zipIdx hp)
  rw [List.forall_mem_append] at hmem
  have hbefore := (run_allowed_preserves hlaw rfl hmem.1 hu).2
  have hafter := (run_allowed_preserves hlaw rfl hmem.2 ht).1
  exact ⟨⟨tx, hbefore.vaultTransaction htx, hbefore.content hc, hafter.vaultTransaction htx, hafter.content hc⟩,
    hall, hvote⟩

/-- A transaction that holds a check and succeeds has the effect of its Squads instructions alone, all of them the
vote shown, and the content shown is what the ledger stores for the transaction voted on. -/
theorem transact_is_vote (hlaw : c.Lawful) (hl : c.Lists top) {args : VerifyProposalArgs} (hs : Shown top args)
    (h : c.transact s top = some t) :
    Trace.run c.execute s (top.filter (·.programId = squadsProgramId)) = some t ∧
    (∀ ix ∈ top, ix.programId = squadsProgramId → MatchingVote (args.expectation c.rt) ix) ∧
    (∃ ix ∈ top, ix.programId = squadsProgramId) ∧
    ∃ tx, (c.ledger s).vaultTransaction c.rt args.multisig args.transactionIndex = some tx ∧
      (c.ledger s).content tx = some args.content ∧
      (c.ledger t).vaultTransaction c.rt args.multisig args.transactionIndex = some tx ∧
      (c.ledger t).content tx = some args.content := by
  obtain ⟨hcontent, hall, ix, hix, hcounts⟩ := transact_content hlaw hl hs h
  refine ⟨run_allowed_filter hlaw rfl hall h, fun y hy hp => ?_, ⟨ix, hix, hcounts.2.1⟩, hcontent⟩
  exact (hall y hy).resolve_left (squads_not_exempt rfl hp)

end Cluster

/-! ## A cluster that records votes and grows a table -/

namespace Transfer

/-- The action whose discriminator the data start with. -/
def voteAction (data : Bytes) : Option ProposalAction :=
  [.approve, .reject, .cancel, .cancelV2].find? fun a => a.discriminator.isPrefixOf data

theorem voteAction_eq {a : ProposalAction} {data : Bytes} (h : a.discriminator <+: data) :
    voteAction data = some a := by
  cases hf : voteAction data with
  | none =>
    have hnot := List.find?_eq_none.mp hf a (by cases a <;> simp)
    exact absurd (List.isPrefixOf_iff_prefix.mpr h) hnot
  | some b =>
    have hfound := List.find?_some (p := fun a : ProposalAction => a.discriminator.isPrefixOf data) hf
    have hb : b.discriminator <+: data := List.isPrefixOf_iff_prefix.mp hfound
    have hle := List.prefix_of_prefix_length_le hb h (by rw [a.discriminator_length, b.discriminator_length])
    rw [ProposalAction.discriminator_inj (hle.eq_of_length (by rw [a.discriminator_length, b.discriminator_length]))]

/-- Whether the lookup table has grown, and the votes. -/
abbrev State := Bool × List Vote

def execute (s : State) (ix : Instruction) : Option State :=
  if ix.programId = computeBudgetProgramId then some s
  else if ix.programId = addressLookupTableProgramId then some (true, s.2)
  else if ix.programId = squadsProgramId then
    match voteAction ix.data, ix.accounts with
    | some action, _ :: member :: proposal :: _ =>
      if member.isSigner then some (s.1, ⟨proposal.pubkey, member.pubkey, action⟩ :: s.2) else none
    | _, _ => none
  else none

def cluster : Cluster State where
  rt := runtime top
  ledger s := ledger (if s.1 then grownTable else table)
  votes s v := v ∈ s.2
  sysvar := sysvarData
  execute := execute

theorem execute_vote {s t : State} {ix : Instruction} {a : ProposalAction} (hp : ix.programId = squadsProgramId)
    (hd : a.discriminator <+: ix.data) (h : execute s ix = some t) : ∃ multisig member proposal rest,
      ix.accounts = multisig :: member :: proposal :: rest ∧ member.isSigner = true ∧
        t = (s.1, ⟨proposal.pubkey, member.pubkey, a⟩ :: s.2) := by
  have hne : squadsProgramId ≠ computeBudgetProgramId ∧ squadsProgramId ≠ addressLookupTableProgramId := by
    decide +kernel
  unfold execute at h
  rw [if_neg (hp ▸ hne.1), if_neg (hp ▸ hne.2), if_pos hp, voteAction_eq hd] at h
  split at h
  · rename_i action multisig member proposal rest ha hacc
    cases ha
    rw [Option.ite_none_right_eq_some, Option.some.injEq] at h
    exact ⟨multisig, member, proposal, rest, hacc, h.1, h.2.symm⟩
  · cases h

theorem execute_recorded {s t : State} {ix : Instruction} {a : ProposalAction} {multisig member proposal : AccountMeta}
    {rest : List AccountMeta} {v : Vote} (hp : ix.programId = squadsProgramId) (hd : a.discriminator <+: ix.data)
    (ha : ix.accounts = multisig :: member :: proposal :: rest) (h : execute s ix = some t) (hv : v ∈ t.2) :
    v ∈ s.2 ∨ v = ⟨proposal.pubkey, member.pubkey, a⟩ := by
  obtain ⟨_, _, _, _, ha', -, rfl⟩ := execute_vote hp hd h
  rw [ha] at ha'
  cases ha'
  exact (List.mem_cons.mp hv).symm

theorem cluster_lawful : cluster.Lawful where
  computeBudget hp h := by
    have hx : execute _ _ = some _ := h
    unfold execute at hx
    rw [if_pos hp] at hx
    exact (Option.some.inj hx).symm
  vote_ledger hp hd h := by
    obtain ⟨_, _, _, _, -, -, rfl⟩ := execute_vote hp hd h
    exact ⟨.refl _, .refl _⟩
  vote_recorded hp hd ha h hv := execute_recorded hp hd ha h hv

theorem lists_of_sysvarData {σ : Type} {c : Cluster σ} {top : List Instruction} (hrt : c.rt = runtime top)
    (hsys : c.sysvar = sysvarData) (htop : top.length < 2 ^ 16) (h : (listing top).length ≤ 2 ^ 62) : c.Lists top := by
  intro i _
  rw [hrt]
  exact describes_sysvar htop h i (congrFun (congrFun hsys top) i)

theorem cluster_lists : cluster.Lists top := lists_of_sysvarData rfl rfl top_short listing_fits

theorem shown : Shown top args := by
  refine ⟨verify, List.mem_cons_self .., rfl, (VerifyProposalArgs.borsh.enc args).getD [], [], ?_, ?_⟩
  · decide +kernel
  · rw [List.append_nil]
    rfl

end Transfer

theorem transfer_is_vote : ∃ tx,
    ((Transfer.ledger Transfer.table).vaultTransaction (Transfer.runtime Transfer.top) Transfer.multisig 1 = some tx ∧
      (Transfer.ledger Transfer.table).content tx = some Transfer.args.content) ∧
    Trace.run Transfer.execute (false, []) [Transfer.vote] =
      some (false, [⟨Transfer.proposalPda, Transfer.member, .approve⟩]) := by
  have h : Transfer.cluster.transact (false, []) Transfer.top =
      some (false, [⟨Transfer.proposalPda, Transfer.member, .approve⟩]) := by decide +kernel
  obtain ⟨hrun, -, -, tx, htx, hc, -⟩ := Cluster.transact_is_vote Transfer.cluster_lawful Transfer.cluster_lists
    Transfer.shown h
  exact ⟨tx, ⟨htx, hc⟩, hrun⟩

end ClearSigning
