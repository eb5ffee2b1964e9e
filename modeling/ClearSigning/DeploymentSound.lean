import ClearSigning.HashingSound

/-!
# The hash of a deployed program

`program-hash.cjs` follows a program account to its program data and hashes what
stands behind the metadata. Where every upgrade takes a buffer that a check
accepted while the vault held it, and the vault signs nothing but upgrades, the
hash printed at any later time is the one that was shown with the check before
the last upgrade.
-/

namespace ClearSigning

namespace ProgramHash

variable {host : Host} {program : Pubkey} {target : String} {bytes p : Bytes}

/-- A key or a file name, not an option. -/
def IsTarget (a : String) : Prop := a ≠ "" ∧ isFlag a = false

/-- The account of `program` names program data with `bytes` behind the metadata and zeros behind them. -/
def Deploys (host : Host) (program : Pubkey) (bytes : Bytes) : Prop :=
  ∃ (programData : Pubkey) (rest header : Bytes) (n : Nat),
    host.getAccountInfo program = some (leBytes 4 2 ++ programData.toList ++ rest) ∧
    header.length = programdataMetadataSize ∧
    host.getAccountInfo programData = some (header ++ bytes ++ List.replicate n 0)

theorem digest_eq (algo : Bytes → Bytes) (h : Trimmed bytes p) : digest algo bytes = hexString (algo p) := by
  unfold digest trim
  rw [trimmed_unique (trimScript_trimmed bytes) h]

theorem programDataKey_eq (programData : Pubkey) (rest : Bytes) :
    programDataKey (leBytes 4 2 ++ programData.toList ++ rest) = programData := by
  have hslice : ((leBytes 4 2 ++ programData.toList ++ rest).drop 4).take 32 = programData.toList := by
    rw [List.append_assoc, List.drop_left' (leBytes_length 4 2), List.take_left' programData.toList_length]
  apply Subtype.ext
  show List.replicate _ _ ++ _ = _
  rw [hslice, programData.toList_length]
  rfl

theorem main_program (ht : IsTarget target) (hkey : host.publicKey target = some program)
    (h : Deploys host program bytes) (hp : Trimmed bytes p) :
    main host [target] = some (hexString (host.createHash "sha256" p)) := by
  obtain ⟨programData, rest, header, n, hprogram, hheader, hdata⟩ := h
  have hfilter : [target].filter (!isFlag ·) = [target] := by simp [ht.2]
  have hno : ∀ flag, isFlag flag = true → flag ∉ [target] := by
    intro flag hf hmem
    rw [List.mem_singleton.mp hmem, ht.2] at hf
    cases hf
  have htag : leNat ((leBytes 4 2 ++ programData.toList ++ rest).take 4) = 2 := by
    rw [List.append_assoc, List.take_left' (leBytes_length 4 2)]
    decide
  have hsize : 4 ≤ (leBytes 4 2 ++ programData.toList ++ rest).length := by
    simp [leBytes_length]
  have hdrop : (header ++ bytes ++ List.replicate n 0).drop programdataMetadataSize = bytes ++ List.replicate n 0 := by
    rw [List.append_assoc, List.drop_left' hheader]
  unfold main
  simp only [hfilter, if_neg (hno "--sha512" (by decide)), if_neg (hno "--file" (by decide)),
    if_neg (hno "--buffer" (by decide)), List.head?_cons, Option.bind_eq_bind, Option.bind_some, if_neg ht.1, hkey,
    hprogram, if_pos (And.intro hsize htag), programDataKey_eq, hdata, hdrop]
  rw [digest_eq _ (hp.append_zeros n)]
  rfl

theorem main_file (ht : IsTarget target) {so : Bytes} (hso : host.readFileSync target = some so) :
    main host ["--file", target] = some (ApproveClearsign.expectedHash (host.createHash "sha256") "none" so) := by
  have hfilter : ["--file", target].filter (!isFlag ·) = [target] := by
    have hflag : isFlag "--file" = true := by decide
    simp [ht.2, hflag]
  have hfile : "--file" ∈ ["--file", target] := List.mem_cons_self
  have hno : "--sha512" ∉ ["--file", target] := by
    intro hmem
    simp only [List.mem_cons, List.not_mem_nil, or_false] at hmem
    rcases hmem with h | h
    · exact absurd h (by decide)
    · exact absurd ht.2 (by rw [← h]; decide)
  unfold main
  simp only [hfilter, if_neg hno, if_pos hfile, List.head?_cons, Option.bind_eq_bind, Option.bind_some, if_neg ht.1,
    hso]
  rfl

end ProgramHash

theorem Records.unique {d : Bytes} {a b : Pubkey} (h : Records d a) (h' : Records d b) : a = b := by
  have hkeys : encodeAuthority (some a) = encodeAuthority (some b) := h.symm.trans h'
  exact Subtype.ext (List.cons.inj hkeys).2

def Action.IsUpgrade (a : Action) : Prop := ∃ buffer, a = .upgrade buffer

def UpgradesChecked (rt : Runtime) (vault : Pubkey) (s : Chain) (l : List Action) : Prop :=
  ∀ before buffer post, l = before ++ .upgrade buffer :: post → ∃ pre args mid s₁,
    before = pre ++ .verify args :: mid ∧ args.buffer = buffer ∧ Trace.run (Chain.step vault) s pre = some s₁ ∧
      s₁.Verified rt args

section
variable {rt : Runtime} {vault : Pubkey} {s t u v : Chain} {l : List Action} {a : Action}

theorem Chain.step_deployed (ha : ¬a.IsUpgrade) (h : s.step vault a = some t) : t.deployed = s.deployed := by
  cases a with
  | write signer buffer offset bytes =>
    obtain ⟨_, _, _, rfl⟩ := Chain.step_write.mp h
    rfl
  | setAuthority signer buffer authority =>
    obtain ⟨_, _, _, rfl⟩ := Chain.step_setAuthority.mp h
    rfl
  | upgrade buffer => exact absurd ⟨buffer, rfl⟩ ha
  | verify args =>
    cases h; rfl

theorem upgrade_checked (hl : VaultOnlyUpgrades vault l) (hheld : HeldByVault rt vault s l)
    (hchecked : UpgradesChecked rt vault s l) {before post : List Action} {buffer : Pubkey}
    (hsplit : l = before ++ .upgrade buffer :: post) (hbefore : Trace.run (Chain.step vault) s before = some u)
    (hstep : u.step vault (.upgrade buffer) = some v) :
    ∃ pre args mid s₁, before = pre ++ .verify args :: mid ∧ args.buffer = buffer ∧
      Trace.run (Chain.step vault) s pre = some s₁ ∧ s₁.Verified rt args ∧
      ∀ p, Trimmed v.deployed p → args.expectedHash = hexString (rt.sha256 p).toList := by
  obtain ⟨pre, args, mid, s₁, rfl, rfl, hpre, hver⟩ := hchecked before buffer post hsplit
  obtain ⟨s₂, hpre', hmid⟩ := Trace.run_append.mp hbefore
  rw [hpre, Option.some.injEq] at hpre'
  subst hpre'
  rw [List.append_assoc, List.cons_append] at hsplit
  exact ⟨pre, args, mid, s₁, rfl, rfl, hpre, hver,
    held_pinned hl hheld pre args mid post s₁ u v hsplit hpre hver hmid hstep⟩

end

/-- The hash printed of a program after any run is that of the bytes deployed before the run where nothing was
upgraded, or the one shown with the check that was accepted for the last upgrade; a file with that hash prints the
same. -/
theorem deployed_hash_shown {rt : Runtime} {vault : Pubkey} {s t : Chain} {l : List Action}
    {host : ProgramHash.Host} {program : Pubkey} {target : String} (hl : VaultOnlyUpgrades vault l)
    (hheld : HeldByVault rt vault s l) (hchecked : UpgradesChecked rt vault s l)
    (hrun : Trace.run (Chain.step vault) s l = some t)
    (halgo : host.createHash "sha256" = fun b => (rt.sha256 b).toList) (ht : ProgramHash.IsTarget target)
    (hkey : host.publicKey target = some program) (hd : ProgramHash.Deploys host program t.deployed) :
    ∃ h, ProgramHash.main host [target] = some h ∧
      ((∀ a ∈ l, ¬a.IsUpgrade) ∧ t.deployed = s.deployed ∧
          (∀ p, Trimmed s.deployed p → h = hexString (rt.sha256 p).toList) ∨
        ∃ pre args mid post s₁, l = pre ++ .verify args :: (mid ++ .upgrade args.buffer :: post) ∧
          (∀ a ∈ post, ¬a.IsUpgrade) ∧ Trace.run (Chain.step vault) s pre = some s₁ ∧ s₁.Verified rt args ∧
          h = args.expectedHash ∧ ∀ file so, ProgramHash.IsTarget file → host.readFileSync file = some so →
            args.expectedHash = ApproveClearsign.expectedHash (host.createHash "sha256") "none" so →
            ProgramHash.main host ["--file", file] = some h) := by
  obtain ⟨p, hp⟩ := exists_trimmed t.deployed
  refine ⟨_, ProgramHash.main_program ht hkey hd hp, ?_⟩
  -- only the last upgrade decides what is deployed at the end
  rcases Trace.run_last (f := Chain.deployed) (fun ha hstep => Chain.step_deployed ha hstep) hrun with
    ⟨hno, hsame⟩ | ⟨before, _, post, u, v, hsplit, ⟨buffer, rfl⟩, hpost, hbefore, hstep, hlast⟩
  · refine .inl ⟨hno, hsame, fun p' hp' => ?_⟩
    rw [halgo, trimmed_unique hp (hsame ▸ hp')]
  · obtain ⟨pre, args, mid, s₁, rfl, rfl, hpre, hver, hhash⟩ :=
      upgrade_checked hl hheld hchecked hsplit hbefore hstep
    have hshown := hhash p (hlast ▸ hp)
    rw [List.append_assoc, List.cons_append] at hsplit
    refine .inr ⟨pre, args, mid, post, s₁, hsplit, hpost, hpre, hver, ?_, fun file so hf hso he => ?_⟩
    · rw [halgo, hshown]
    · rw [ProgramHash.main_file hf hso, ← he, hshown, halgo]

/-! ## A build checked, upgraded to and hashed -/

namespace Deployment

def accepted : Chain where
  ledger _ := { owner := paddedBuffer.owner, data := paddedBuffer.data }
  deployed := []

def upgraded : Chain := { accepted with deployed := [1, 0, 0, 0] }

def run : List Action := [.verify reviewedHash, .upgrade bufferKey]

def host : ProgramHash.Host where
  readFileSync _ := some [1]
  publicKey _ := some deployer
  getAccountInfo key :=
    if key = deployer then some (leBytes 4 2 ++ bufferKey.toList)
    else some (List.replicate 45 0 ++ [1, 0, 0, 0] ++ List.replicate 2 0)
  createHash _ b := (twoDigests b).toList

theorem holds : Holds twoDigestsRuntime (accepted.ledger.info bufferKey) reviewedHash.expectedHash :=
  ⟨⟨by decide +kernel, by decide +kernel, by decide +kernel⟩, [1], ⟨by decide, 3, by decide +kernel⟩, by decide +kernel⟩

theorem held : HeldByVault twoDigestsRuntime vaultKey accepted run := by
  intro pre args post s₁ hsplit hpre _ authority hr
  cases pre with
  | nil =>
    cases hpre
    have hv : Records paddedBuffer.data.toList vaultKey := by decide +kernel
    exact hr.unique hv
  | cons a pre =>
    obtain ⟨-, hrest⟩ := List.cons.inj hsplit
    cases pre with
    | nil => cases (List.cons.inj hrest).1
    | cons b pre => cases pre <;> cases (List.cons.inj hrest).2

theorem checked : UpgradesChecked twoDigestsRuntime vaultKey accepted run := by
  intro before buffer post hsplit
  cases before with
  | nil => cases (List.cons.inj hsplit).1
  | cons a before =>
    obtain ⟨rfl, hrest⟩ := List.cons.inj hsplit
    cases before with
    | nil =>
      cases (List.cons.inj hrest).1
      exact ⟨[], reviewedHash, [], accepted, rfl, rfl, rfl, Chain.verified_iff.mpr holds⟩
    | cons b before => cases before <;> cases (List.cons.inj hrest).2

end Deployment

theorem reviewedHash_printed : ∃ h, ProgramHash.main Deployment.host ["program"] = some h ∧
    ∃ args, Deployment.accepted.Verified twoDigestsRuntime args ∧ h = args.expectedHash := by
  have hrun : Trace.run (Chain.step vaultKey) Deployment.accepted Deployment.run = some Deployment.upgraded := by
    have hupgrade : Deployment.accepted.step vaultKey (.upgrade bufferKey) = some Deployment.upgraded :=
      Chain.step_upgrade.mpr ⟨⟨Deployment.holds.1, by decide +kernel⟩, rfl⟩
    exact Trace.run_cons.mpr ⟨_, rfl, Trace.run_cons.mpr ⟨_, hupgrade, rfl⟩⟩
  have hl : VaultOnlyUpgrades vaultKey Deployment.run := by
    unfold VaultOnlyUpgrades
    decide +kernel
  have hd : ProgramHash.Deploys Deployment.host deployer Deployment.upgraded.deployed :=
    ⟨bufferKey, [], List.replicate 45 0, 2, by decide +kernel, rfl, by decide +kernel⟩
  have htarget : ProgramHash.IsTarget "program" := ⟨by decide, by decide⟩
  obtain ⟨h, hmain, ⟨hno, -, -⟩ | ⟨pre, args, mid, post, s₁, hsplit, -, hpre, hver, hh, -⟩⟩ :=
    deployed_hash_shown hl Deployment.held Deployment.checked hrun rfl htarget rfl hd
  · exact absurd ⟨bufferKey, rfl⟩ (hno (.upgrade bufferKey) (List.mem_cons_of_mem _ (List.mem_singleton_self _)))
  · refine ⟨h, hmain, args, ?_, hh⟩
    cases pre with
    | nil =>
      cases hpre
      exact hver
    | cons a pre =>
      have hlen := congrArg List.length hsplit
      simp only [Deployment.run, List.length_cons, List.length_append, List.length_nil] at hlen
      omega

end ClearSigning
