import ClearSigning.ApprovalSound
import ClearSigning.TransactionSound

/-!
# What becomes of an approval

Where the buffer holds the build in the file, a script's transaction does what
its other instructions do, unless the run tampered with something that is there
to tamper with or the count of signers is past a byte; and the script's exit
status says which of the two it was.
-/

namespace ClearSigning

open Exec

/-! ## Checks in front of other instructions -/

namespace Cluster

variable {σ : Type} {c : Cluster σ} {s t : σ} {top : List Instruction}

def Passes (c : Cluster σ) (top : List Instruction) (s : σ) (p : Instruction × Nat) : Prop :=
  entry c.rt (p.1.accounts.map fun m => (c.view top p.2 s).info m.pubkey) p.1.data = .ok ()

theorem run_checks (hlaw : c.Lawful) {l : List (Instruction × Nat)}
    (hl : ∀ p ∈ l, p.1.programId = programId ∨ p.1.programId = computeBudgetProgramId) :
    Trace.run (c.invoke top) s l = some t ↔ (∀ p ∈ l, p.1.programId = programId → c.Passes top s p) ∧
      Trace.run c.execute s ((l.map Prod.fst).filter (·.programId ≠ programId)) = some t := by
  induction l with
  | nil => simp
  | cons p l ih =>
    rw [List.forall_mem_cons] at hl
    specialize ih hl.2
    rw [Trace.run_cons, List.forall_mem_cons, List.map_cons]
    by_cases hp : p.1.programId = programId
    · rw [List.filter_cons_of_neg (by simp [hp])]
      refine ⟨fun ⟨u, hu, h⟩ => ?_, fun ⟨⟨hpass, hrest⟩, h⟩ => ?_⟩
      · obtain ⟨hpass, rfl⟩ := (invoke_program hp).mp hu
        obtain ⟨hrest, h⟩ := ih.mp h
        exact ⟨⟨fun _ => hpass, hrest⟩, h⟩
      · exact ⟨s, (invoke_program hp).mpr ⟨hpass hp, rfl⟩, ih.mpr ⟨hrest, h⟩⟩
    · have hbudget := hl.1.resolve_left hp
      rw [List.filter_cons_of_pos (by simp [hp]), Trace.run_cons]
      refine ⟨fun ⟨u, hu, h⟩ => ?_, fun ⟨⟨_, hrest⟩, u, hu, h⟩ => ?_⟩
      · have hx : c.execute s p.1 = some u := (invoke_other hp).symm.trans hu
        obtain rfl := hlaw.computeBudget hbudget hx
        obtain ⟨hrest, h⟩ := ih.mp h
        exact ⟨⟨fun h' => absurd h' hp, hrest⟩, _, hx, h⟩
      · obtain rfl := hlaw.computeBudget hbudget hu
        exact ⟨_, (invoke_other hp).trans hu, ih.mpr ⟨hrest, h⟩⟩

theorem transact_checks (hlaw : c.Lawful) {front : List Instruction} {last : Instruction}
    (hfront : ∀ ix ∈ front, ix.programId = programId ∨ ix.programId = computeBudgetProgramId)
    (hlast : last.programId ≠ programId) :
    c.transact s (front ++ [last]) = some t ↔
      (∀ p ∈ front.zipIdx, p.1.programId = programId → c.Passes (front ++ [last]) s p) ∧
        Trace.run c.execute s ((front ++ [last]).filter (·.programId ≠ programId)) = some t := by
  have hmem : ∀ p ∈ front.zipIdx, p.1.programId = programId ∨ p.1.programId = computeBudgetProgramId :=
    fun p hp => hfront _ (List.fst_mem_of_mem_zipIdx hp)
  have hkeep : [last].filter (·.programId ≠ programId) = [last] := by simp [hlast]
  unfold transact
  rw [List.zipIdx_append, Trace.run_append, List.filter_append, hkeep]
  simp only [Trace.run_append, run_checks hlaw hmem, List.zipIdx_map_fst, List.zipIdx_singleton, Trace.run_cons,
    Trace.run_nil, invoke_other hlast]
  exact ⟨fun ⟨u, ⟨hpass, hrun⟩, h⟩ => ⟨hpass, u, hrun, h⟩, fun ⟨hpass, u, hrun, h⟩ => ⟨u, ⟨hpass, hrun⟩, h⟩⟩

/-! ## Reading a ledger around the sysvar -/

section
variable {i : Nat}

theorem preserves_view (hsys : ¬(c.ledger s instructionsSysvarId).Carries) :
    (c.ledger s).Preserves (c.view top i s) := by
  intro key hc
  have hne : key ≠ instructionsSysvarId := by
    intro he
    rw [he] at hc
    exact hsys hc
  exact Function.update_of_ne hne _ _

theorem view_holds (hsys : (c.ledger s instructionsSysvarId).owner = sysvarProgramId) {key : Pubkey} {h : String} :
    Holds c.rt ((c.view top i s).info key) h ↔ Holds c.rt ((c.ledger s).info key) h := by
  by_cases hk : key = instructionsSysvarId
  · have hne : sysvarProgramId ≠ bpfLoaderUpgradeableId := by decide +kernel
    have hview : (c.view top i s instructionsSysvarId).owner = sysvarProgramId := by
      unfold view
      rw [Function.update_self]
      rfl
    subst hk
    refine ⟨fun ⟨hb, _⟩ => ?_, fun ⟨hb, _⟩ => ?_⟩
    · exact absurd (hview.symm.trans hb.owner) hne
    · exact absurd (hsys.symm.trans hb.owner) hne
  · have hsame : (c.view top i s).info key = (c.ledger s).info key := by
      unfold Ledger.info view
      rw [Function.update_of_ne hk]
    rw [hsame]

end

end Cluster

/-! ## The calls on a ledger -/

section
variable {σ : Type} {c : Cluster σ} {s : σ} {top : List Instruction} {ix : Instruction} {i : Nat}

theorem map_info (L : Ledger) (metas : List AccountMeta) :
    (metas.map fun m => L.info m.pubkey) = (metas.map (·.pubkey)).map L.info := by
  rw [List.map_map]
  rfl

section
variable {args : VerifyBufferHashArgs} (hsys : (c.ledger s instructionsSysvarId).owner = sysvarProgramId)
  (h : BufferCall args ix)
include hsys h

theorem BufferCall.passes :
    c.Passes top s (ix, i) ↔ Holds c.rt ((c.ledger s).info args.buffer) args.expectedHash := by
  unfold Cluster.Passes
  rw [map_info, h.accounts, entry_buffer_eq_ok h.shows.isPrefix, ← Cluster.view_holds hsys]
  refine ⟨fun ⟨args', ctx, hs, ht, hok⟩ => ?_, fun hh => ?_⟩
  · obtain rfl := h.shows.unique hs
    have hb : (c.view top i s).info args.buffer = ctx.accounts.buffer := (List.cons.inj ht).1
    rw [hb]
    exact (verifyBufferHash_holds.mp hok).2
  · refine ⟨args, ⟨⟨(c.view top i s).info args.buffer⟩, []⟩, h.shows, rfl, ?_⟩
    exact verifyBufferHash_holds.mpr ⟨rfl, hh⟩

theorem BufferCall.mismatch {hash : String} (hh : Holds c.rt ((c.ledger s).info args.buffer) hash)
    (hne : args.expectedHash ≠ hash) :
    entry c.rt (ix.accounts.map fun m => (c.view top i s).info m.pubkey) ix.data =
      fail (.clearSigning .bufferHashMismatch) := by
  rw [← Cluster.view_holds hsys] at hh
  obtain ⟨hb, p, hp, rfl⟩ := hh
  rw [map_info, h.accounts, entry_buffer_eq_fail h.shows.isPrefix]
  exact ⟨args, ⟨⟨(c.view top i s).info args.buffer⟩, []⟩, h.shows, rfl, .hash rfl hb hp hne⟩

end

theorem takes_call {L : Ledger} {transaction : Pubkey} {remaining : List Pubkey} {ctx : Context VerifyProposal} :
    VerifyProposal.Takes ((transaction :: instructionsSysvarId :: remaining).map L.info) ctx ↔
      ctx = L.context transaction (L.info instructionsSysvarId) rfl remaining := by
  obtain ⟨⟨t, sysvar, address⟩, rest⟩ := ctx
  refine ⟨fun h => ?_, fun h => ?_⟩
  · simp only [VerifyProposal.Takes, List.map_cons, List.cons.injEq] at h
    obtain ⟨rfl, rfl, rfl⟩ := h
    rfl
  · cases h
    rfl

/-- A call accepts where the ledger shows the content of its arguments, beside the vote they announce. -/
theorem ProposalCall.accepts {args : VerifyProposalArgs} {remaining : List Pubkey}
    (hsys : ¬(c.ledger s instructionsSysvarId).Carries) (h : ProposalCall c.rt args remaining ix) (hl : c.Lists top)
    (hi : i < top.length) : c.Passes top s (ix, i) ↔
      ∃ tx, (c.ledger s).vaultTransaction c.rt args.multisig args.transactionIndex = some tx ∧
        remaining = tx.message.addressTableLookups.map (·.accountKey) ∧ (c.ledger s).content tx = some args.content ∧
        (∀ y ∈ top, Allowed (args.expectation c.rt) y) ∧ ∃ y ∈ top, Counts (args.expectation c.rt) y := by
  unfold Cluster.Passes
  rw [map_info, h.accounts, entry_proposal_eq_ok h.shows.isPrefix]
  have hd : Describes c.rt ((c.view top i s).info instructionsSysvarId) top := hl.describes hi
  have hok := @verifyProposal_iff_content (c.view top i s) c.rt
    (deriveTransactionPda c.rt args.multisig args.transactionIndex) _ rfl remaining args top hd
  refine ⟨fun ⟨args', ctx, hs, ht, hver⟩ => ?_, fun ⟨tx, htx, hr, hc, hall, hvote⟩ => ?_⟩
  · obtain rfl := h.shows.unique hs
    obtain rfl := takes_call.mp ht
    obtain ⟨-, tx, htx, hr, hc, hall, hvote⟩ := hok.mp hver
    exact ⟨tx, Cluster.view_preserves.vaultTransaction htx, hr, Cluster.view_preserves.content hc, hall, hvote⟩
  · have hview : (c.ledger s).Preserves (c.view top i s) := Cluster.preserves_view hsys
    refine ⟨args, _, h.shows, takes_call.mpr rfl, hok.mpr ⟨rfl, tx, ?_, hr, ?_, hall, hvote⟩⟩
    · exact hview.vaultTransaction htx
    · exact hview.content hc

structure Expands (c : Cluster σ) (s : σ) (args : VerifyProposalArgs) (tx : VaultTransaction)
    (expected : List ExpectedInstruction) : Prop where
  stored : (c.ledger s).vaultTransaction c.rt args.multisig args.transactionIndex = some tx
  vaultIndex : tx.vaultIndex = args.vaultIndex
  lookups : tx.message.addressTableLookups = []
  expansion : expansion tx.message [] = some expected

section
variable {args : VerifyProposalArgs} {tx : VaultTransaction} {expected : List ExpectedInstruction}

theorem Expands.view (hx : Expands c s args tx expected)
    (hsys : (c.ledger s instructionsSysvarId).owner = sysvarProgramId) (top : List Instruction) (i : Nat) :
    (c.view top i s).vaultTransaction c.rt args.multisig args.transactionIndex = some tx :=
  (Cluster.preserves_view (sysvar_not_carries hsys)).vaultTransaction hx.stored

theorem Expands.content (hx : Expands c s args tx expected) :
    (c.ledger s).content tx = some args.content ↔
      tx.ephemeralSignerBumps.length = args.numEphemeralSigners.toNat ∧ args.instructions = expected := by
  have htables : tx.message.addressTableLookups.mapM (fun l => (c.ledger s).table l.accountKey) = some [] := by
    rw [hx.lookups]
    rfl
  rw [Ledger.content_eq_some]
  refine ⟨fun ⟨_, hn, tables, ht, hexp⟩ => ⟨hn, ?_⟩, fun ⟨hn, he⟩ => ?_⟩
  · obtain rfl := Option.some.inj (htables.symm.trans ht)
    exact Option.some.inj (hexp.symm.trans hx.expansion)
  · exact ⟨hx.vaultIndex, hn, [], htables, by rw [he, hx.expansion]⟩

variable (hsys : (c.ledger s instructionsSysvarId).owner = sysvarProgramId) (h : ProposalCall c.rt args [] ix)
  (hx : Expands c s args tx expected)
include hsys h hx

theorem ProposalCall.passes (hl : c.Lists top) (hi : i < top.length)
    (hall : ∀ y ∈ top, Allowed (args.expectation c.rt) y) (hvote : ∃ y ∈ top, Counts (args.expectation c.rt) y) :
    c.Passes top s (ix, i) ↔
      tx.ephemeralSignerBumps.length = args.numEphemeralSigners.toNat ∧ args.instructions = expected := by
  rw [h.accepts (sysvar_not_carries hsys) hl hi, ← hx.content]
  refine ⟨fun ⟨tx', htx', _, hc, _⟩ => ?_, fun hc => ⟨tx, hx.stored, ?_, hc, hall, hvote⟩⟩
  · obtain rfl : tx' = tx := Option.some.inj (htx'.symm.trans hx.stored)
    exact hc
  · rw [hx.lookups]
    rfl

theorem ProposalCall.miscounted (hn : tx.ephemeralSignerBumps.length ≠ args.numEphemeralSigners.toNat) :
    entry c.rt (ix.accounts.map fun m => (c.view top i s).info m.pubkey) ix.data =
      fail (.clearSigning .ephemeralSignersMismatch) := by
  obtain ⟨hstored, howner, hm, hindex⟩ := Ledger.vaultTransaction_eq_some.mp (hx.view hsys top i)
  rw [map_info, h.accounts, entry_proposal_eq_fail h.shows.isPrefix]
  exact ⟨args, h.shows, .inr ⟨_, takes_call.mpr rfl, .misnamed ⟨rfl, howner⟩ hstored
    (.ephemeralSigners hm hindex hx.vaultIndex hn)⟩⟩

theorem ProposalCall.mismatch (hn : tx.ephemeralSignerBumps.length = args.numEphemeralSigners.toNat)
    {x y : ExpectedInstruction} {rest : List ExpectedInstruction}
    (hexp : expected = x :: rest) (hshown : args.instructions = y :: rest) (hp : y.programId = x.programId)
    (ha : y.accounts = x.accounts) (hd : y.data ≠ x.data) :
    entry c.rt (ix.accounts.map fun m => (c.view top i s).info m.pubkey) ix.data =
      fail (.clearSigning .dataMismatch) := by
  obtain ⟨hstored, howner, hm, hindex⟩ := Ledger.vaultTransaction_eq_some.mp (hx.view hsys top i)
  obtain ⟨k, hk, hval⟩ := expansion_eq_some.mp hx.expansion
  have hfail : validateInstructions tx.message k args.instructions = fail .dataMismatch := by
    rw [hshown]
    have hval : validateInstructions tx.message k ([] ++ x :: rest) = .ok () := hexp ▸ hval
    exact validateInstructions_first hval rfl (.data hp.symm ha.symm hd.symm)
  rw [map_info, h.accounts, entry_proposal_eq_fail h.shows.isPrefix]
  refine ⟨args, h.shows, .inr ⟨_, takes_call.mpr rfl, .content ⟨rfl, howner⟩
    ⟨hstored, hm, hindex, hx.vaultIndex, hn⟩ ⟨?_, ?_⟩ hk (validateInstructions_eq_fail.mp hfail)⟩⟩
  · rw [hx.lookups]
    rfl
  · rw [hx.lookups]
    exact .nil

end

end

section
variable {σ : Type} {c : Cluster σ} {s t : σ} {hashes : List VerifyBufferHashArgs} {args : VerifyProposalArgs}
  {budget checks : List Instruction} {verify vote : Instruction} {tx : VaultTransaction}
  {expected : List ExpectedInstruction}

theorem Bundle.transact (h : Bundle c.rt hashes args budget checks verify vote) (hlaw : c.Lawful)
    (hl : c.Lists (budget ++ checks ++ [verify] ++ [vote]))
    (hsys : (c.ledger s instructionsSysvarId).owner = sysvarProgramId) (hx : Expands c s args tx expected) :
    c.transact s (budget ++ checks ++ [verify] ++ [vote]) = some t ↔
      ((∀ a ∈ hashes, Holds c.rt ((c.ledger s).info a.buffer) a.expectedHash) ∧
        tx.ephemeralSignerBumps.length = args.numEphemeralSigners.toNat ∧ args.instructions = expected) ∧
      Trace.run c.execute s ((budget ++ checks ++ [verify] ++ [vote]).filter (·.programId ≠ programId)) = some t := by
  have hne : squadsProgramId ≠ programId ∧ computeBudgetProgramId ≠ programId := by decide +kernel
  rw [Cluster.transact_checks hlaw h.front (h.vote.1 ▸ hne.1)]
  have hlt : ∀ {ix i}, (ix, i) ∈ (budget ++ checks ++ [verify]).zipIdx →
      i < (budget ++ checks ++ [verify] ++ [vote]).length := by
    intro ix i hp
    have hi := List.snd_lt_of_mem_zipIdx hp
    rw [List.length_append]
    exact Nat.lt_of_lt_of_le hi (Nat.le_add_right ..)
  refine and_congr_left fun _ => ⟨fun hall => ⟨fun a ha => ?_, ?_⟩, fun ⟨hh, he⟩ p hp hprog => ?_⟩
  · obtain ⟨ix, hix, hcall⟩ := h.called ha
    obtain ⟨i, hi⟩ := Cluster.exists_mem_zipIdx (show ix ∈ budget ++ checks ++ [verify] by simp [hix])
    exact (hcall.passes hsys).mp (hall _ hi hcall.programId)
  · obtain ⟨i, hi⟩ := Cluster.exists_mem_zipIdx (show verify ∈ budget ++ checks ++ [verify] by simp)
    exact (h.verify.passes hsys hx hl (hlt hi) h.allowed h.voted).mp (hall _ hi h.verify.programId)
  · obtain ⟨ix, i⟩ := p
    have hmem := List.fst_mem_of_mem_zipIdx hp
    simp only [List.mem_append, List.mem_singleton] at hmem
    rcases hmem with (hix | hix) | rfl
    · exact absurd ((h.budget ix hix).symm.trans hprog) hne.2
    · obtain ⟨a, ha, hcall⟩ := h.check hix
      exact (hcall.passes hsys).mpr (hh a ha)
    · exact (h.verify.passes hsys hx hl (hlt hp) h.allowed h.voted).mpr he

end

/-! ## What becomes of it -/

/-- The run tampers with something that is there to tamper with. -/
def Environment.Corrupts (env : Environment) (tx : VaultTransaction) : Prop :=
  env.tamper = "hash" ∧ env.buffer.isSome ∨
    env.tamper = "data" ∧ ∃ ix rest, tx.message.instructions = ix :: rest ∧ ix.data ≠ []

def Environment.tamperError (env : Environment) : ClearSigningError :=
  if env.tamper = "data" then .dataMismatch else .bufferHashMismatch

theorem Holds.unique {rt : Runtime} {account : AccountInfo} {x y : String} (h : Holds rt account x)
    (h' : Holds rt account y) : x = y := by
  obtain ⟨-, p, hp, rfl⟩ := h
  obtain ⟨-, q, hq, rfl⟩ := h'
  rw [trimmed_unique hp hq]

def Environment.Built (rt : Runtime) (L : Ledger) (env : Environment) : Prop :=
  ∀ buffer so, env.buffer = some (buffer, so) → Holds rt (L.info buffer) (scriptHash rt "none" so)

section
variable {rt : Runtime} {L : Ledger} {env : Environment} {tx : VaultTransaction}
  {expected shown : List ExpectedInstruction}

theorem scriptHash_tampered (so : Bytes) : scriptHash rt "hash" so ≠ scriptHash rt "none" so :=
  tamperHash_ne (canonicalHex_hexString (rt.sha256 (trimScript so))).length

theorem scriptHash_honest {tamper : String} (h : tamper ≠ "hash") (so : Bytes) :
    scriptHash rt tamper so = scriptHash rt "none" so := by
  unfold scriptHash expectedHashScript
  rw [if_neg h]
  rfl

theorem hashes_hold_iff (hb : env.Built rt L) :
    (∀ a ∈ env.hashes (scriptHash rt env.tamper), Holds rt (L.info a.buffer) a.expectedHash) ↔
      ¬(env.tamper = "hash" ∧ env.buffer.isSome) := by
  unfold Environment.hashes
  unfold Environment.Built at hb
  cases hbuf : env.buffer with
  | none => simp
  | some p =>
    obtain ⟨buffer, so⟩ := p
    have hh := hb buffer so hbuf
    simp only [Option.toList_some, List.map_cons, List.map_nil, List.forall_mem_singleton, Option.isSome_some, and_true]
    refine ⟨fun hx ht => ?_, fun ht => ?_⟩
    · rw [ht] at hx
      exact scriptHash_tampered so (hx.unique hh)
    · rw [scriptHash_honest ht]
      exact hh

theorem expansion_first (hx : expansion tx.message [] = some expected) {x : ExpectedInstruction}
    {rest : List ExpectedInstruction} (he : expected = x :: rest) :
    x.data = [] ↔ ¬∃ ix rest, tx.message.instructions = ix :: rest ∧ ix.data ≠ [] := by
  have hshape := expansion_shape hx
  subst he
  obtain ⟨ix, ixs, ⟨-, hdata⟩, -, hixs⟩ := List.forall₂_cons_right_iff.mp hshape
  simp [hixs, hdata]

theorem shown_eq_iff (hx : expansion tx.message [] = some expected)
    (hshown : tampered env (expected.map ExpectedInstruction.toJs) = some (shown.map ExpectedInstruction.toJs)) :
    shown = expected ↔
      ¬(env.tamper = "data" ∧ ∃ ix rest, tx.message.instructions = ix :: rest ∧ ix.data ≠ []) := by
  unfold tampered at hshown
  by_cases ht : env.tamper = "data"
  · rw [if_pos ht] at hshown
    obtain ⟨x, y, rest, hexp, rfl, hp, ha, -, hd⟩ := flipByte_eq_some hshown
    rw [not_and, ← expansion_first hx hexp, ← hd]
    simp only [ht, forall_const, hexp, List.cons.injEq, and_true]
    refine ⟨fun h => by rw [h], fun h => ?_⟩
    obtain ⟨px, ax, dx⟩ := x
    obtain ⟨py, ay, dy⟩ := y
    rw [show py = px from hp, show ay = ax from ha, show dy = dx from h]
  · rw [if_neg ht] at hshown
    rw [List.map_injective_iff.mpr ExpectedInstruction.toJs_injective (Option.some.inj hshown)]
    simp [ht]

end

section
variable {σ : Type} {c : Cluster σ} {s t : σ} {env : Environment} {tx : VaultTransaction} {ixs top : List Instruction}

theorem Sends.compiled (htx : (c.ledger s).vaultTransaction c.rt env.multisig env.txIndex = some tx)
    (h : Sends c.rt env tx ixs) (hc : List.Forall₂ Instruction.CompilesTo ixs top) :
    ∃ (expected shown : List ExpectedInstruction) (budget checks : List Instruction) (verify vote : Instruction),
      top = budget ++ checks ++ [verify] ++ [vote] ∧
      Bundle c.rt (env.hashes (scriptHash c.rt env.tamper)) (announced env tx shown) budget checks verify vote ∧
      Expands c s (announced env tx shown) tx expected ∧
      tampered env (expected.map ExpectedInstruction.toJs) = some (shown.map ExpectedInstruction.toJs) := by
  obtain ⟨expected, shown, budget, checks, verify, vote, hexp, hshown, rfl, hbundle⟩ := h
  obtain ⟨budget', checks', verify', vote', rfl, hbundle⟩ := hbundle.compiled hc
  obtain ⟨hno, hx⟩ := buildExpected_eq_some.mp hexp
  exact ⟨expected, shown, budget', checks', verify', vote', rfl, hbundle, ⟨htx, rfl, hno, hx⟩, hshown⟩

theorem Sends.transact (hlaw : c.Lawful) (hl : c.Lists top)
    (hsys : (c.ledger s instructionsSysvarId).owner = sysvarProgramId)
    (htx : (c.ledger s).vaultTransaction c.rt env.multisig env.txIndex = some tx) (hb : env.Built c.rt (c.ledger s))
    (h : Sends c.rt env tx ixs) (hc : List.Forall₂ Instruction.CompilesTo ixs top) :
    c.transact s top = some t ↔ (tx.ephemeralSignerBumps.length < 256 ∧ ¬env.Corrupts tx) ∧
      Trace.run c.execute s (top.filter (·.programId ≠ programId)) = some t := by
  obtain ⟨expected, shown, budget, checks, verify, vote, rfl, hbundle, hx, hshown⟩ := h.compiled htx hc
  have hcount : tx.ephemeralSignerBumps.length = (announced env tx shown).numEphemeralSigners.toNat ↔
      tx.ephemeralSignerBumps.length < 256 := count_fits
  have hsame : (announced env tx shown).instructions = expected ↔ _ := shown_eq_iff hx.expansion hshown
  rw [hbundle.transact hlaw hl hsys hx, hashes_hold_iff hb, hcount, hsame]
  unfold Environment.Corrupts
  rw [not_or, and_left_comm]

section
variable {args : VerifyProposalArgs} {budget checks : List Instruction} {verify vote : Instruction}
  (hsys : (c.ledger s instructionsSysvarId).owner = sysvarProgramId)
  (h : Bundle c.rt (env.hashes (scriptHash c.rt env.tamper)) args budget checks verify vote)
include hsys h

/-- A check of a hash that is not the buffer's. -/
theorem Bundle.refuses_hash (hb : env.Built c.rt (c.ledger s)) (ht : env.tamper = "hash") (hsome : env.buffer.isSome) :
    ∃ ix ∈ checks, ix.programId = programId ∧ ∀ i,
      entry c.rt (ix.accounts.map fun m => (c.view top i s).info m.pubkey) ix.data =
        fail (.clearSigning env.tamperError) := by
  obtain ⟨⟨buffer, so⟩, hbuf⟩ := Option.isSome_iff_exists.mp hsome
  have hcalled : (⟨buffer, scriptHash c.rt "hash" so⟩ : VerifyBufferHashArgs) ∈
      env.hashes (scriptHash c.rt env.tamper) := by
    unfold Environment.hashes
    rw [hbuf, ht]
    exact List.mem_singleton_self _
  obtain ⟨ix, hix, hcall⟩ := h.called hcalled
  have herror : env.tamperError = .bufferHashMismatch := by
    unfold Environment.tamperError
    rw [ht, if_neg (by decide)]
  refine ⟨ix, hix, hcall.programId, fun i => ?_⟩
  rw [herror]
  exact hcall.mismatch hsys (hb buffer so hbuf) (scriptHash_tampered so)

theorem Bundle.refuses_data {expected : List ExpectedInstruction} (hx : Expands c s args tx expected)
    (hn : tx.ephemeralSignerBumps.length = args.numEphemeralSigners.toNat)
    (hshown : tampered env (expected.map ExpectedInstruction.toJs) =
      some (args.instructions.map ExpectedInstruction.toJs)) (ht : env.tamper = "data")
    (hstored : ∃ ix rest, tx.message.instructions = ix :: rest ∧ ix.data ≠ []) :
    verify.programId = programId ∧ ∀ i,
      entry c.rt (verify.accounts.map fun m => (c.view top i s).info m.pubkey) verify.data =
        fail (.clearSigning env.tamperError) := by
  have herror : env.tamperError = .dataMismatch := by
    unfold Environment.tamperError
    rw [if_pos ht]
  unfold tampered at hshown
  rw [if_pos ht] at hshown
  obtain ⟨x, y, rest, hfirst, hy, hp, ha, -, hd⟩ := flipByte_eq_some hshown
  have hdata : y.data ≠ x.data := fun he => (expansion_first hx.expansion hfirst).mp (hd.mp he) hstored
  refine ⟨h.verify.programId, fun i => ?_⟩
  rw [herror]
  exact h.verify.mismatch hsys hx hn hfirst hy hp ha hdata

end

theorem Sends.refused (hsys : (c.ledger s instructionsSysvarId).owner = sysvarProgramId)
    (htx : (c.ledger s).vaultTransaction c.rt env.multisig env.txIndex = some tx) (hb : env.Built c.rt (c.ledger s))
    (hlt : tx.ephemeralSignerBumps.length < 256) (h : Sends c.rt env tx ixs)
    (hc : List.Forall₂ Instruction.CompilesTo ixs top) (hbad : env.Corrupts tx) :
    ∃ ix i, (ix, i) ∈ top.zipIdx ∧ ix.programId = programId ∧
      entry c.rt (ix.accounts.map fun m => (c.view top i s).info m.pubkey) ix.data =
        fail (.clearSigning env.tamperError) := by
  obtain ⟨expected, shown, budget, checks, verify, vote, rfl, hbundle, hx, hshown⟩ := h.compiled htx hc
  rcases hbad with ⟨ht, hsome⟩ | ⟨ht, hstored⟩
  · obtain ⟨ix, hix, hp, hfail⟩ := hbundle.refuses_hash hsys hb ht hsome
    obtain ⟨i, hmem⟩ := Cluster.exists_mem_zipIdx (show ix ∈ budget ++ checks ++ [verify] ++ [vote] by simp [hix])
    exact ⟨ix, i, hmem, hp, hfail i⟩
  · obtain ⟨hp, hfail⟩ := hbundle.refuses_data hsys hx (count_fits.mpr hlt) hshown ht hstored
    obtain ⟨i, hmem⟩ := Cluster.exists_mem_zipIdx (show verify ∈ budget ++ checks ++ [verify] ++ [vote] by simp)
    exact ⟨verify, i, hmem, hp, hfail i⟩

theorem Sends.miscounted (hsys : (c.ledger s instructionsSysvarId).owner = sysvarProgramId)
    (htx : (c.ledger s).vaultTransaction c.rt env.multisig env.txIndex = some tx)
    (hge : 256 ≤ tx.ephemeralSignerBumps.length) (h : Sends c.rt env tx ixs)
    (hc : List.Forall₂ Instruction.CompilesTo ixs top) :
    ∃ ix i, (ix, i) ∈ top.zipIdx ∧ ix.programId = programId ∧
      entry c.rt (ix.accounts.map fun m => (c.view top i s).info m.pubkey) ix.data =
        fail (.clearSigning .ephemeralSignersMismatch) := by
  obtain ⟨expected, shown, budget, checks, verify, vote, rfl, hbundle, hx, -⟩ := h.compiled htx hc
  obtain ⟨i, hmem⟩ := Cluster.exists_mem_zipIdx (show verify ∈ budget ++ checks ++ [verify] ++ [vote] by simp)
  have hn : tx.ephemeralSignerBumps.length ≠ (announced env tx shown).numEphemeralSigners.toNat := fun hn =>
    Nat.not_lt.mpr hge (count_fits.mp hn)
  exact ⟨verify, i, hmem, hbundle.verify.programId, hbundle.verify.miscounted hsys hx hn⟩

section
variable {sdk : Sdk} {coder : Coder} (hlaw : c.Lawful) (hsdk : sdk.Lawful c.rt) (hcoder : coder.Follows idl)
  (hl : c.Lists top) (hsys : (c.ledger s instructionsSysvarId).owner = sysvarProgramId)
  (htx : (c.ledger s).vaultTransaction c.rt env.multisig env.txIndex = some tx) (hb : env.Built c.rt (c.ledger s))
  (h : Scripted c.rt sdk coder env tx ixs) (hc : List.Forall₂ Instruction.CompilesTo ixs top)
include hlaw hsdk hcoder hl hsys htx hb h hc

/-- A script's transaction does what its vote and compute-budget instructions do, unless the run tampered with
something or the count of signers is past a byte. Then one of its checks refuses it, with the error for what was
tampered with, or for the count. -/
theorem approval_decides :
    (∀ t, c.transact s top = some t ↔ (tx.ephemeralSignerBumps.length < 256 ∧ ¬env.Corrupts tx) ∧
      Trace.run c.execute s (top.filter (·.programId ≠ programId)) = some t) ∧
    (tx.ephemeralSignerBumps.length < 256 → env.Corrupts tx →
      ∃ ix i, (ix, i) ∈ top.zipIdx ∧ ix.programId = programId ∧
        entry c.rt (ix.accounts.map fun m => (c.view top i s).info m.pubkey) ix.data =
          fail (.clearSigning env.tamperError)) ∧
    (256 ≤ tx.ephemeralSignerBumps.length → ∃ ix i, (ix, i) ∈ top.zipIdx ∧ ix.programId = programId ∧
      entry c.rt (ix.accounts.map fun m => (c.view top i s).info m.pubkey) ix.data =
        fail (.clearSigning .ephemeralSignersMismatch)) := by
  have hsends := h.sends hsdk hcoder htx
  exact ⟨fun _ => hsends.transact hlaw hl hsys htx hb hc, fun hlt hbad => hsends.refused hsys htx hb hlt hc hbad,
    fun hge => hsends.miscounted hsys htx hge hc⟩

end

end

/-! ## A transfer and its buffer, approved -/

theorem Instruction.CompilesTo.refl (ix : Instruction) : ix.CompilesTo ix :=
  ⟨rfl, rfl, List.forall₂_same.mpr fun _ _ => ⟨rfl, id⟩⟩

namespace Approve

def ledger : Ledger := fun key =>
  if key = Transfer.transactionPda then
    { owner := squadsProgramId
      data := ⟨vaultTransactionDiscriminator ++ tx.serialize.getD [], by decide +kernel⟩ }
  else if key = bufferKey then { owner := paddedBuffer.owner, data := paddedBuffer.data }
  else { owner := sysvarProgramId, data := ⟨[], Transfer.nil_fits⟩ }

section
variable (tamper : String)

def cluster : Cluster Transfer.State where
  rt := Transfer.runtime (sent tamper)
  ledger _ := ledger
  votes s v := v ∈ s.2
  sysvar := Transfer.sysvarData
  execute := Transfer.execute

theorem cluster_lawful : (cluster tamper).Lawful where
  computeBudget hp h := Transfer.cluster_lawful.computeBudget hp h
  vote_ledger _ _ _ := ⟨Ledger.Preserves.refl ledger, Ledger.Preserves.refl ledger⟩
  vote_recorded hp hd ha h hv := Transfer.execute_recorded hp hd ha h hv

theorem cluster_lists (hlen : (sent tamper).length < 2 ^ 16)
    (hsize : (Transfer.listing (sent tamper)).length ≤ 2 ^ 62) : (cluster tamper).Lists (sent tamper) :=
  Transfer.lists_of_sysvarData rfl rfl hlen hsize

theorem env_built : (env tamper).Built (Transfer.runtime (sent tamper)) ledger := by
  intro buffer so h
  cases h
  refine ⟨⟨by decide +kernel, by decide +kernel, by decide +kernel⟩, [1], ⟨by decide, 3, by decide +kernel⟩, rfl⟩

end

theorem stored (top : List Instruction) :
    ledger.vaultTransaction (Transfer.runtime top) Transfer.multisig 1 = some tx := by
  have h : ledger.vaultTransaction (Transfer.runtime []) Transfer.multisig 1 = some tx := by decide +kernel
  exact h

end Approve

/-- A run that replaces a character of the hash. -/
theorem approve_hash_refused : (Approve.cluster "hash").transact (false, []) (Approve.sent "hash") = none ∧
    ∃ ix ∈ Approve.sent "hash", ∃ accounts,
      entry (Approve.cluster "hash").rt accounts ix.data = fail (.clearSigning .bufferHashMismatch) := by
  have hl : (Approve.cluster "hash").Lists (Approve.sent "hash") :=
    Approve.cluster_lists "hash" (by decide +kernel) (by decide +kernel)
  have hsent : ApproveClearsign.instructions Approve.sha256 Approve.sdk Approve.coder (Approve.env "hash")
      Approve.tx = some (Approve.sent "hash") := by decide +kernel
  have hsame : List.Forall₂ Instruction.CompilesTo (Approve.sent "hash") (Approve.sent "hash") :=
    List.forall₂_same.mpr fun ix _ => .refl ix
  have hbad : (Approve.env "hash").Corrupts Approve.tx := .inl ⟨rfl, rfl⟩
  obtain ⟨hiff, hrefused, -⟩ := @approval_decides _ (Approve.cluster "hash") (false, []) (Approve.env "hash")
    Approve.tx (Approve.sent "hash") (Approve.sent "hash") Approve.sdk Approve.coder (Approve.cluster_lawful _)
    (Approve.sdk_lawful _) Approve.coder_follows hl (by decide +kernel) (Approve.stored _) (Approve.env_built _)
    (.inl hsent) hsame
  obtain ⟨ix, i, hix, -, hfail⟩ := hrefused (by decide) hbad
  refine ⟨Option.eq_none_iff_forall_ne_some.mpr fun t h => ((hiff t).mp h).1.2 hbad, ix, ?_, _, hfail⟩
  exact List.fst_mem_of_mem_zipIdx hix

end ClearSigning
