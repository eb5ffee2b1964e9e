import ClearSigning.HistorySound
import ClearSigning.DeploymentSound
import ClearSigning.TamperSound

/-!
# From the approval to the deployment

A transaction that shows the check of a build beside the check of a proposal
succeeds only where the buffer holds that build, and leaves it there. Later, the
loader does a run of its actions in each transaction. While the buffer is there
under the authority of a vault that signs upgrades only, it keeps the build,
until an upgrade deploys it.
-/

namespace ClearSigning

open Exec

/-- The transaction shows `hash`, in the bytes of a `verify_buffer_hash` instruction. -/
def ShownBuild (top : List Instruction) (hash : VerifyBufferHashArgs) : Prop :=
  ∃ ix ∈ top, ix.programId = programId ∧ ShowsBuffer ix.data hash

def AccountState.HeldBy (a : AccountState) (vault : Pubkey) : Prop :=
  ∀ authority, Records a.data.toList authority → authority = vault

def UpgradesFrom (l : List Action) (buffer : Pubkey) : Prop :=
  ∃ pre post, l = pre ++ .upgrade buffer :: post ∧ ∀ a ∈ post, ¬a.IsUpgrade

/-- The bytes deployed for the upgraded program, and what a transaction has the loader do. -/
structure Loader (σ : Type) where
  deployed : σ → Bytes
  actions : σ → List Instruction → List Action

namespace Cluster

variable {σ : Type}

/-- What a transaction does to buffers and to the deployed program, loader actions do. Besides, accounts become
buffers, and buffers are closed, or emptied by an upgrade. -/
structure Loads (c : Cluster σ) (vault : Pubkey) (loader : Loader σ) : Prop where
  run : ∀ {s t top}, c.transact s top = some t → ∃ x y : Chain, x.deployed = loader.deployed s ∧
    (∀ key, IsBuffer ((c.ledger s).info key) → x.ledger key = c.ledger s key) ∧
    Trace.run (Chain.step vault) x (loader.actions s top) = some y ∧ y.deployed = loader.deployed t ∧
    ∀ key, .upgrade key ∉ loader.actions s top → IsBuffer ((c.ledger s).info key) →
      IsBuffer ((c.ledger t).info key) → c.ledger t key = y.ledger key

/-- The buffer is there after each of the transactions `txs`, and none of them upgrades from it. -/
def Spares (c : Cluster σ) (loader : Loader σ) (s : σ) (txs : List (List Instruction)) (buffer : Pubkey) : Prop :=
  ∀ pre top post, txs = pre ++ top :: post → .upgrade buffer ∉ loader.actions (c.history s pre) top ∧
    IsBuffer ((c.ledger (c.history s (pre ++ [top]))).info buffer)

def SignsUpgradesOnly (c : Cluster σ) (vault : Pubkey) (loader : Loader σ) (s : σ) (txs : List (List Instruction)) :
    Prop :=
  ∀ pre top post t, txs = pre ++ top :: post → c.transact (c.history s pre) top = some t →
    VaultOnlyUpgrades vault (loader.actions (c.history s pre) top)

def NoUpgrades (c : Cluster σ) (loader : Loader σ) (s : σ) (txs : List (List Instruction)) : Prop :=
  ∀ pre top post, txs = pre ++ top :: post → ∀ a ∈ loader.actions (c.history s pre) top, ¬a.IsUpgrade

end Cluster

/-! ## The check -/

theorem Ledger.info_congr {L L' : Ledger} {key : Pubkey} (h : L' key = L key) : L'.info key = L.info key := by
  unfold Ledger.info
  rw [h]

theorem Ledger.Preserves.holds {L L' : Ledger} (h : L.Preserves L') {rt : Runtime} {key : Pubkey} {x : String}
    (hh : Holds rt (L.info key) x) : Holds rt (L'.info key) x := by
  rwa [Ledger.info_congr (h key (Or.inr (Or.inr hh.1.owner)))]

namespace Cluster

section
variable {σ : Type} {c : Cluster σ} {s t u : σ} {top : List Instruction} {ix : Instruction} {i : Nat}
  {hash : VerifyBufferHashArgs}

theorem invoke_build (hp : ix.programId = programId) (hs : ShowsBuffer ix.data hash)
    (h : c.invoke top s (ix, i) = some t) : Holds c.rt ((c.ledger s).info hash.buffer) hash.expectedHash := by
  obtain ⟨hok, -⟩ := (invoke_program hp).mp h
  obtain ⟨hash', ⟨⟨buffer⟩, rest⟩, hs', htakes, hver⟩ := (entry_buffer_eq_ok hs.isPrefix).mp hok
  obtain rfl := hs.unique hs'
  obtain ⟨m, metas, -, rfl, -⟩ := List.map_eq_cons_iff.mp htakes
  obtain ⟨hkey, hholds⟩ := verifyBufferHash_holds.mp hver
  have hkey : m.pubkey = hash.buffer := hkey
  rw [← hkey]
  exact view_preserves.holds hholds

theorem transact_build (hlaw : c.Lawful) {e : VoteExpectation} (he : e.selfProgram = programId)
    (hall : ∀ y ∈ top, Allowed e y) (hb : ShownBuild top hash) (h : c.transact s top = some t) :
    Holds c.rt ((c.ledger s).info hash.buffer) hash.expectedHash ∧
      c.ledger t hash.buffer = c.ledger s hash.buffer := by
  obtain ⟨ix, hix, hp, hshow⟩ := hb
  obtain ⟨i, l, l', u, -, hsplit, hu, hstep, -⟩ := transact_ran hix hp h
  have hmem : ∀ p ∈ l ++ l', Allowed e p.1 := by
    intro p hp
    rw [← hsplit] at hp
    exact hall _ (List.fst_mem_of_mem_zipIdx hp)
  have hbefore := (run_allowed_preserves hlaw he (List.forall_mem_append.mp hmem).1 hu).2
  have hholds := hbefore.holds (invoke_build hp hshow hstep)
  have hwhole := (run_allowed_preserves hlaw he (hsplit ▸ hmem) h).1
  exact ⟨hholds, hwhole _ (Or.inr (Or.inr hholds.1.owner))⟩

end

/-! ## The loader -/

theorem run_deployed {vault : Pubkey} {x y : Chain} {l : List Action} (hl : ∀ a ∈ l, ¬a.IsUpgrade)
    (h : Trace.run (Chain.step vault) x l = some y) : y.deployed = x.deployed := by
  have hkeep : ∀ {u a v}, u.deployed = x.deployed → ¬a.IsUpgrade → Chain.step vault u a = some v →
      v.deployed = x.deployed := fun hu ha hv => (Chain.step_deployed ha hv).trans hu
  exact Trace.run_invariant (P := fun u : Chain => u.deployed = x.deployed) hkeep rfl hl h

namespace Loads

section
variable {σ : Type} {c : Cluster σ} {vault buffer : Pubkey} {loader : Loader σ} {s t : σ} {top : List Instruction}
  (hload : c.Loads vault loader) (h : c.transact s top = some t)
include hload h

theorem deployed_same (hno : ∀ a ∈ loader.actions s top, ¬a.IsUpgrade) : loader.deployed t = loader.deployed s := by
  obtain ⟨x, y, hx, -, hrun, hy, -⟩ := hload.run h
  rw [← hy, ← hx]
  exact run_deployed hno hrun

variable (hvault : VaultOnlyUpgrades vault (loader.actions s top)) (hb : IsBuffer ((c.ledger s).info buffer))
  (hheld : (c.ledger s buffer).HeldBy vault)
include hvault hb hheld

theorem buffer_same (hno : .upgrade buffer ∉ loader.actions s top) (hb' : IsBuffer ((c.ledger t).info buffer)) :
    c.ledger t buffer = c.ledger s buffer := by
  obtain ⟨x, y, -, hx, hrun, -, hy⟩ := hload.run h
  have hsame := hx _ hb
  rw [hy _ hno hb hb', ← hsame]
  exact buffer_frozen (hsame.symm ▸ hheld) hvault hrun

/-- The last upgrade of a transaction deploys what the buffer held before the transaction. -/
theorem deployed_upgrade (hup : UpgradesFrom (loader.actions s top) buffer) :
    loader.deployed t = ((c.ledger s).info buffer).program := by
  obtain ⟨l, l', hsplit, hl'⟩ := hup
  obtain ⟨x, y, -, hx, hrun, hy, -⟩ := hload.run h
  have hsame := hx _ hb
  rw [hsplit] at hrun hvault
  obtain ⟨u, v, hu, hstep, hv⟩ := Trace.run_split.mp hrun
  obtain ⟨-, rfl⟩ := Chain.step_upgrade.mp hstep
  have hkept : u.ledger buffer = x.ledger buffer :=
    buffer_frozen (hsame.symm ▸ hheld) (fun a ha => hvault a (List.mem_append_left _ ha)) hu
  rw [← hy, run_deployed hl' hv, ← Ledger.info_congr (hkept.trans hsame)]

end

/-! ## The transactions between -/

section
variable {σ : Type} {c : Cluster σ} {vault buffer : Pubkey} {loader : Loader σ} {s : σ} {txs : List (List Instruction)}
  (hload : c.Loads vault loader)
include hload

theorem history_deployed (hno : c.NoUpgrades loader s txs) :
    loader.deployed (c.history s txs) = loader.deployed s := by
  induction txs generalizing s with
  | nil => rfl
  | cons top txs ih =>
    have hrest := ih (s := c.commit s top) fun pre top' post hsplit =>
      hno (top :: pre) top' post (congrArg (top :: ·) hsplit)
    refine hrest.trans ?_
    rcases commit_cases c s top with h | hsame
    · exact hload.deployed_same h (hno [] top txs rfl)
    · rw [hsame]

theorem history_buffer (hvault : c.SignsUpgradesOnly vault loader s txs) (hb : IsBuffer ((c.ledger s).info buffer))
    (hheld : (c.ledger s buffer).HeldBy vault) (hspares : c.Spares loader s txs buffer) :
    c.ledger (c.history s txs) buffer = c.ledger s buffer := by
  induction txs generalizing s with
  | nil => rfl
  | cons top txs ih =>
    obtain ⟨hno, hb'⟩ := hspares [] top txs rfl
    have hstep : c.ledger (c.commit s top) buffer = c.ledger s buffer := by
      rcases commit_cases c s top with h | hsame
      · exact hload.buffer_same h (hvault [] top txs _ rfl h) hb hheld hno hb'
      · rw [hsame]
    have hheld' : (c.ledger (c.commit s top) buffer).HeldBy vault := hstep.symm ▸ hheld
    refine (ih (fun pre top' post t hsplit => ?_) hb' hheld' fun pre top' post hsplit => ?_).trans hstep
    · exact hvault (top :: pre) top' post t (congrArg (top :: ·) hsplit)
    · exact hspares (top :: pre) top' post (congrArg (top :: ·) hsplit)

end

end Loads

section
variable {σ : Type} {c : Cluster σ} {vault : Pubkey} {loader : Loader σ} {s t : σ} {top : List Instruction}

/-- A transaction that shows the check of a build beside the check of a proposal succeeds only where the buffer holds
that build. If the vault holds the buffer then and signs nothing but upgrades, and the buffer is there until a
transaction upgrades from it, the hash printed of the program after that transaction, and until the next upgrade, is
the hash shown. -/
theorem bundle_deploys (hlaw : c.Lawful) (hload : c.Loads vault loader) (hl : c.Lists top) {args : VerifyProposalArgs}
    {hash : VerifyBufferHashArgs} (hs : Shown top args) (hb : ShownBuild top hash) (h : c.transact s top = some t) :
    (Holds c.rt ((c.ledger s).info hash.buffer) hash.expectedHash ∧
      Holds c.rt ((c.ledger t).info hash.buffer) hash.expectedHash) ∧
    ∀ txs up rest u, (c.ledger s hash.buffer).HeldBy vault → c.SignsUpgradesOnly vault loader t (txs ++ [up]) →
      c.Spares loader t txs hash.buffer → c.transact (c.history t txs) up = some u →
      UpgradesFrom (loader.actions (c.history t txs) up) hash.buffer → c.NoUpgrades loader u rest →
      ∀ (host : ProgramHash.Host) program target,
        host.createHash "sha256" = (fun b => (c.rt.sha256 b).toList) → ProgramHash.IsTarget target →
        host.publicKey target = some program →
        ProgramHash.Deploys host program (loader.deployed (c.history t (txs ++ up :: rest))) →
        ProgramHash.main host [target] = some hash.expectedHash := by
  obtain ⟨-, hall, -⟩ := transact_content hlaw hl hs h
  obtain ⟨hholds, hsame⟩ := transact_build hlaw rfl hall hb h
  have hinfo := Ledger.info_congr hsame
  refine ⟨⟨hholds, hinfo ▸ hholds⟩, ?_⟩
  intro txs up rest u hheld hvault hspares hup hfrom hrest host program target halgo ht hkey hd
  have hbefore : c.SignsUpgradesOnly vault loader t txs := by
    intro pre top' post t' hsplit
    exact hvault pre top' (post ++ [up]) t' (by rw [hsplit, List.append_assoc]; rfl)
  obtain ⟨hbuffer, p, hp, hh⟩ := hholds
  have hkept := (hload.history_buffer hbefore (hinfo ▸ hbuffer) (hsame ▸ hheld) hspares).trans hsame
  have hinfo' := Ledger.info_congr hkept
  have hdeployed := hload.deployed_upgrade hup (hvault txs up [] u rfl hup) (hinfo' ▸ hbuffer) (hkept ▸ hheld) hfrom
  rw [history_committed hup, hload.history_deployed hrest, hdeployed, hinfo'] at hd
  rw [ProgramHash.main_program ht hkey hd hp, halgo, hh]

end

end Cluster

/-! ## A build approved and deployed -/

section
variable {rt : Runtime} {hashes : List VerifyBufferHashArgs} {args : VerifyProposalArgs}
  {budget checks : List Instruction} {verify vote : Instruction} (h : Bundle rt hashes args budget checks verify vote)
include h

theorem Bundle.shown : Shown (budget ++ checks ++ [verify] ++ [vote]) args :=
  ⟨verify, by simp, h.verify.programId, h.verify.shows⟩

theorem Bundle.shownBuild {a : VerifyBufferHashArgs} (ha : a ∈ hashes) :
    ShownBuild (budget ++ checks ++ [verify] ++ [vote]) a := by
  obtain ⟨ix, hix, hcall⟩ := h.called ha
  exact ⟨ix, by simp [hix], hcall.programId, hcall.shows⟩

end

namespace Approve

def upgrade : Instruction where
  programId := bpfLoaderUpgradeableId
  accounts := [{ pubkey := bufferKey, isSigner := false, isWritable := true }]
  data := leBytes 4 3

def isUpgrade (ix : Instruction) : Bool := ix.programId = bpfLoaderUpgradeableId

/-- Whether the build is deployed, and the votes. -/
def execute (s : Transfer.State) (ix : Instruction) : Option Transfer.State :=
  if isUpgrade ix then some (true, s.2) else (Transfer.execute s ix).map fun t => (s.1, t.2)

def loading : Cluster Transfer.State := { cluster "none" with execute }

def loader : Loader Transfer.State where
  deployed s := if s.1 then paddedBuffer.program else []
  actions _ top := if top.any isUpgrade then [.upgrade bufferKey] else []

theorem actions_upgrade {s : Transfer.State} {top : List Instruction} (h : top.any isUpgrade = true) :
    loader.actions s top = [.upgrade bufferKey] := if_pos h

theorem actions_none {s : Transfer.State} {top : List Instruction} (h : ¬top.any isUpgrade = true) :
    loader.actions s top = [] := if_neg h

theorem execute_other {s t : Transfer.State} {ix : Instruction} (hp : ix.programId ≠ bpfLoaderUpgradeableId)
    (h : execute s ix = some t) : ∃ u, Transfer.execute s ix = some u ∧ t = (s.1, u.2) := by
  have hno : isUpgrade ix = false := decide_eq_false hp
  unfold execute at h
  rw [hno, if_neg Bool.false_ne_true, Option.map_eq_some_iff] at h
  obtain ⟨u, hu, rfl⟩ := h
  exact ⟨u, hu, rfl⟩

theorem loading_lawful : loading.Lawful where
  computeBudget hp h := by
    have hne : computeBudgetProgramId ≠ bpfLoaderUpgradeableId := by decide +kernel
    obtain ⟨u, hu, rfl⟩ := execute_other (hp ▸ hne) h
    rw [Transfer.cluster_lawful.computeBudget hp hu]
  vote_ledger _ _ _ := ⟨Ledger.Preserves.refl ledger, Ledger.Preserves.refl ledger⟩
  vote_recorded hp hd ha h hv := by
    have hne : squadsProgramId ≠ bpfLoaderUpgradeableId := by decide +kernel
    obtain ⟨u, hu, rfl⟩ := execute_other (hp ▸ hne) h
    exact Transfer.execute_recorded hp hd ha hu hv

theorem loading_lists {top : List Instruction} (h : (cluster "none").Lists top) : loading.Lists top := h

theorem run_upgraded {s t : Transfer.State} {top : List Instruction} {l : List (Instruction × Nat)}
    (h : Trace.run (loading.invoke top) s l = some t) : t.1 = (s.1 || (l.map Prod.fst).any isUpgrade) := by
  induction l generalizing s with
  | nil =>
    rw [Trace.run_nil, Option.some.injEq] at h
    simp [h]
  | cons p l ih =>
    obtain ⟨u, hu, h⟩ := Trace.run_cons.mp h
    have hne : programId ≠ bpfLoaderUpgradeableId := by decide +kernel
    have hflag : u.1 = (s.1 || isUpgrade p.1) := by
      by_cases hp : p.1.programId = programId
      · obtain ⟨-, rfl⟩ := (Cluster.invoke_program hp).mp hu
        simp [isUpgrade, hp, hne]
      · rw [Cluster.invoke_other hp] at hu
        by_cases hup : p.1.programId = bpfLoaderUpgradeableId
        · have hyes : isUpgrade p.1 = true := decide_eq_true hup
          have hx : execute s p.1 = some u := hu
          unfold execute at hx
          rw [hyes, if_pos rfl, Option.some.injEq] at hx
          simp [← hx, hyes]
        · obtain ⟨v, -, rfl⟩ := execute_other hup hu
          simp [isUpgrade, hup]
    rw [ih h, hflag, List.map_cons, List.any_cons, Bool.or_assoc]

theorem actions_vaultOnly (s : Transfer.State) (top : List Instruction) :
    VaultOnlyUpgrades vaultKey (loader.actions s top) := by
  intro a ha
  by_cases hup : top.any isUpgrade
  · rw [actions_upgrade hup, List.mem_singleton] at ha
    rw [ha]
    exact nofun
  · rw [actions_none hup] at ha
    cases ha

theorem loading_loads : loading.Loads vaultKey loader where
  run {s t top} h := by
    have hflag := run_upgraded h
    rw [List.zipIdx_map_fst] at hflag
    have hbuffer : IsBuffer (ledger.info bufferKey) ∧ Records (ledger bufferKey).data.toList vaultKey := by
      decide +kernel
    have hprogram : (ledger.info bufferKey).program = paddedBuffer.program := by decide +kernel
    by_cases hup : top.any isUpgrade
    · refine ⟨⟨ledger, loader.deployed s⟩, ⟨ledger, paddedBuffer.program⟩, rfl, fun _ _ => rfl, ?_, ?_,
        fun _ _ _ _ => rfl⟩
      · rw [actions_upgrade hup]
        exact Trace.run_cons.mpr ⟨_, Chain.step_upgrade.mpr ⟨hbuffer, rfl⟩, by rw [hprogram, Trace.run_nil]⟩
      · show _ = if t.1 then _ else _
        rw [hflag, hup, Bool.or_true, if_pos rfl]
    · refine ⟨⟨ledger, loader.deployed s⟩, ⟨ledger, loader.deployed s⟩, rfl, fun _ _ => rfl, ?_, ?_,
        fun _ _ _ _ => rfl⟩
      · rw [actions_none hup, Trace.run_nil]
      · show _ = if t.1 then _ else _
        rw [hflag, Bool.eq_false_iff.mpr hup, Bool.or_false]
        rfl

def votes : List Vote := [⟨Transfer.proposalPda, Transfer.member, .approve⟩]

def idle : List Instruction := [sdk.setComputeUnitLimit 1]

def host : ProgramHash.Host :=
  { Deployment.host with createHash := fun _ b => (loading.rt.sha256 b).toList }

end Approve

/-- A vote on the upgrade, another transaction, and the upgrade. -/
theorem approve_deploys :
    ProgramHash.main Approve.host ["program"] = some (scriptHash Approve.loading.rt "none" [1]) := by
  have hsent : ApproveClearsign.instructions Approve.sha256 Approve.sdk Approve.coder (Approve.env "none")
      Approve.tx = some (Approve.sent "none") := by decide +kernel
  obtain ⟨hsends, -⟩ := ApproveClearsign.sends (Approve.sdk_lawful (Approve.sent "none")) Approve.coder_follows hsent
  have hsame : List.Forall₂ Instruction.CompilesTo (Approve.sent "none") (Approve.sent "none") :=
    List.forall₂_same.mpr fun ix _ => .refl ix
  obtain ⟨_, shown, budget, checks, verify, vote, htop, hbundle, -⟩ :=
    @Sends.compiled _ (Approve.cluster "none") (false, []) (Approve.env "none") Approve.tx (Approve.sent "none")
      (Approve.sent "none") (Approve.stored _) hsends hsame
  have hcalled : (⟨bufferKey, scriptHash Approve.loading.rt "none" [1]⟩ : VerifyBufferHashArgs) ∈
      (Approve.env "none").hashes (scriptHash (Approve.cluster "none").rt (Approve.env "none").tamper) := by
    unfold Environment.hashes
    exact List.mem_singleton_self _
  have hshown : Shown (Approve.sent "none") (announced (Approve.env "none") Approve.tx shown) := htop ▸ hbundle.shown
  have hbuild := htop ▸ hbundle.shownBuild hcalled
  have hl := Approve.loading_lists (Approve.cluster_lists "none" (by decide +kernel) (by decide +kernel))
  have hvoted : Approve.loading.transact (false, []) (Approve.sent "none") = some (false, Approve.votes) := by
    decide +kernel
  have hup : Approve.loading.transact (Approve.loading.history (false, Approve.votes) [Approve.idle])
      [Approve.upgrade] = some (true, Approve.votes) := by decide +kernel
  have hheld : (Approve.ledger bufferKey).HeldBy vaultKey := by
    intro authority hr
    have hv : Records (Approve.ledger bufferKey).data.toList vaultKey := by decide +kernel
    exact hr.unique hv
  have hspares : Approve.loading.Spares Approve.loader (false, Approve.votes) [Approve.idle] bufferKey := by
    intro pre top post hsplit
    cases pre with
    | nil =>
      cases hsplit
      refine ⟨?_, by decide +kernel⟩
      rw [Approve.actions_none (by decide +kernel)]
      exact List.not_mem_nil
    | cons _ pre => cases pre <;> cases (List.cons.inj hsplit).2
  obtain ⟨-, hdeploys⟩ := @Cluster.bundle_deploys _ Approve.loading vaultKey Approve.loader _ _ _
    Approve.loading_lawful Approve.loading_loads hl _ _ hshown hbuild hvoted
  refine hdeploys [Approve.idle] [Approve.upgrade] [] _ hheld (fun _ _ _ _ _ _ => Approve.actions_vaultOnly _ _)
    hspares hup ⟨[], [], Approve.actions_upgrade (by decide +kernel), List.forall_mem_nil _⟩ ?_ Approve.host deployer
    "program" rfl ?_ rfl ?_
  · intro pre top post hsplit
    cases pre <;> cases hsplit
  · exact ⟨by decide, by decide⟩
  · exact ⟨bufferKey, [], List.replicate 45 0, 2, by decide +kernel, rfl, by decide +kernel⟩

end ClearSigning
