import ClearSigning.TransactionSound

/-!
# Every vote was shown

Over any history of transactions, whoever sends them: a vote recorded for a
member whose device signs only what shows a check was shown by the transaction
that recorded it, with the content the ledger stored. That content is what the
stored transaction means for as long as it and its tables are there.
-/

namespace ClearSigning

open Exec

namespace Cluster

variable {σ : Type} {c : Cluster σ} {s t : σ} {top : List Instruction} {txs : List (List Instruction)}

theorem history_append {txs' : List (List Instruction)} :
    c.history s (txs ++ txs') = c.history (c.history s txs) txs' := List.foldl_append ..

theorem history_committed {txs' : List (List Instruction)} (h : c.transact (c.history s txs) top = some t) :
    c.history s (txs ++ top :: txs') = c.history t txs' := by
  have hcommit : c.commit (c.history s txs) top = t := by
    unfold commit
    rw [h, Option.getD_some]
  rw [history_append, ← hcommit]
  rfl

theorem commit_cases (c : Cluster σ) (s : σ) (top : List Instruction) :
    c.transact s top = some (c.commit s top) ∨ c.commit s top = s := by
  unfold commit
  cases c.transact s top with
  | none => exact Or.inr rfl
  | some t => exact Or.inl rfl

/-! ## What was voted on -/

section
variable {multisig : Pubkey} {index : UInt64} {tx : VaultTransaction}

/-- The transaction voted on and the tables it uses are there after each of the transactions `txs`. -/
def OpenThrough (c : Cluster σ) (s : σ) (txs : List (List Instruction)) (multisig : Pubkey) (index : UInt64)
    (tx : VaultTransaction) : Prop :=
  ∀ pre, pre <+: txs → (c.ledger (c.history s pre)).vaultTransaction c.rt multisig index ≠ none ∧
    ∀ l ∈ tx.message.addressTableLookups,
      (c.ledger (c.history s pre) l.accountKey).owner = addressLookupTableProgramId

variable {P : List (List Pubkey) → Prop} (hP : ∀ {a b}, List.Forall₂ (· <+: ·) a b → P a → P b)
  {tables : List (List Pubkey)}
include hP

theorem commit_tables (happ : c.AppendOnly) (htx : (c.ledger s).vaultTransaction c.rt multisig index = some tx)
    (ht : tx.message.addressTableLookups.mapM (fun l => (c.ledger s).table l.accountKey) = some tables)
    (hp : P tables) (hopen : c.OpenThrough s [top] multisig index tx) :
    (c.ledger (c.commit s top)).vaultTransaction c.rt multisig index = some tx ∧ ∃ tables',
      tx.message.addressTableLookups.mapM (fun l => (c.ledger (c.commit s top)).table l.accountKey) = some tables' ∧
        P tables' := by
  rcases commit_cases c s top with h | hsame
  · obtain ⟨-, howner⟩ := hopen [] List.nil_prefix
    obtain ⟨hsome, howner'⟩ := hopen [top] (List.prefix_refl _)
    obtain ⟨tx', htx'⟩ := Option.ne_none_iff_exists'.mp hsome
    have hext : ∀ l ∈ tx.message.addressTableLookups,
        (c.ledger (c.commit s top) l.accountKey).owner = (c.ledger s l.accountKey).owner ∧
          Extends (c.ledger s l.accountKey).data.toList (c.ledger (c.commit s top) l.accountKey).data.toList := by
      intro l hl
      exact ⟨(howner' l hl).trans (howner l hl).symm, happ.table h (howner l hl) (howner' l hl)⟩
    obtain ⟨tables', ht', hgrow⟩ := Ledger.tables_extends hext ht
    exact ⟨htx'.trans (congrArg some (happ.stored h htx htx')), tables', ht', hP hgrow hp⟩
  · rw [hsame]
    exact ⟨htx, tables, ht, hp⟩

/-- While a stored transaction and its tables are there, it stays the same and its tables only grow, whatever is
committed. -/
theorem history_tables (happ : c.AppendOnly) (htx : (c.ledger s).vaultTransaction c.rt multisig index = some tx)
    (ht : tx.message.addressTableLookups.mapM (fun l => (c.ledger s).table l.accountKey) = some tables)
    (hp : P tables) (hopen : c.OpenThrough s txs multisig index tx) :
    (c.ledger (c.history s txs)).vaultTransaction c.rt multisig index = some tx ∧ ∃ tables',
      tx.message.addressTableLookups.mapM (fun l => (c.ledger (c.history s txs)).table l.accountKey) = some tables' ∧
        P tables' := by
  induction txs generalizing s tables with
  | nil => exact ⟨htx, tables, ht, hp⟩
  | cons top txs ih =>
    have hfirst : c.OpenThrough s [top] multisig index tx := fun pre hpre =>
      hopen pre (hpre.trans (List.prefix_append [top] txs))
    obtain ⟨htx', tables', ht', hp'⟩ := commit_tables hP happ htx ht hp hfirst
    refine ih htx' ht' hp' fun pre hpre => ?_
    exact hopen (top :: pre) (List.cons_prefix_cons.mpr ⟨rfl, hpre⟩)

omit hP in
theorem history_content (happ : c.AppendOnly) {args : VerifyProposalArgs}
    (htx : (c.ledger s).vaultTransaction c.rt multisig index = some tx)
    (hc : (c.ledger s).content tx = some args.content) (hopen : c.OpenThrough s txs multisig index tx) :
    (c.ledger (c.history s txs)).vaultTransaction c.rt multisig index = some tx ∧
      (c.ledger (c.history s txs)).content tx = some args.content := by
  obtain ⟨hv, he, tables, ht, hx⟩ := Ledger.content_eq_some.mp hc
  have hP : ∀ {a b}, List.Forall₂ (· <+: ·) a b → expansion tx.message a = some args.instructions →
      expansion tx.message b = some args.instructions := fun hgrow h => (expansion_extends hgrow h).1
  obtain ⟨htx', tables', ht', hx'⟩ := history_tables hP happ htx ht hx hopen
  exact ⟨htx', Ledger.content_eq_some.mpr ⟨hv, he, tables', ht', hx'⟩⟩

end

/-! ## Who voted -/

section
variable {member : Pubkey} {v : Vote}

theorem transact_new_vote (hsigned : c.OnlySigned member) (hm : v.member = member) (h : c.transact s top = some t)
    (hold : ¬c.votes s v) (hnew : c.votes t v) : ∃ ix ∈ top, ix.SignedBy member ∧ ix.programId ≠ programId ∧
      ∃ u w, c.execute u ix = some w ∧ ¬c.votes u v ∧ c.votes w v := by
  obtain ⟨pre, ⟨ix, i⟩, post, u, w, hsplit, -, hu, hstep, hw, -⟩ :=
    Trace.run_first (P := fun s => c.votes s v) hold h hnew
  have hix : ix ∈ top := by
    have hmem : (ix, i) ∈ top.zipIdx := by rw [hsplit]; simp
    exact List.fst_mem_of_mem_zipIdx hmem
  have hp : ix.programId ≠ programId := by
    intro hp
    obtain ⟨-, rfl⟩ := (invoke_program hp).mp hstep
    exact hu hw
  rw [invoke_other hp] at hstep
  exact ⟨ix, hix, hsigned hstep hm hw hu, hp, u, w, hstep, hu, hw⟩

theorem new_vote_eq (hlaw : c.Lawful) {e : VoteExpectation} (he : e.selfProgram = programId) {ix : Instruction}
    (ha : Allowed e ix) (hp : ix.programId ≠ programId) (h : c.execute s ix = some t) (hold : ¬c.votes s v)
    (hnew : c.votes t v) : v = ⟨e.proposal, e.member, e.action⟩ := by
  have hinvoke : c.invoke [] s (ix, 0) = some t := (invoke_other hp).trans h
  rcases invoke_allowed hlaw he ha hinvoke with ⟨hsquads, hmatch, hx⟩ | ⟨-, rfl⟩
  · obtain ⟨multisig, m, p, rest, hacc, -, hmem, -, hprop⟩ := hmatch.2.accounts
    rw [← hprop, ← hmem]
    exact (hlaw.vote_recorded hsquads hmatch.2.isPrefix hacc hx hnew).resolve_left hold
  · exact absurd hnew hold

theorem transact_vote_shown (hlaw : c.Lawful) (hsigned : c.OnlySigned member) (hm : v.member = member)
    (hl : (∃ ix ∈ top, ix.programId = programId) → c.Lists top) (h : c.transact s top = some t)
    (hold : ¬c.votes s v) (hnew : c.votes t v) : AsksFor member top ∧ ∀ args, Shown top args →
      v = ⟨deriveProposalPda c.rt args.multisig args.transactionIndex, args.member, args.action⟩ ∧
      ∃ tx, (c.ledger s).vaultTransaction c.rt args.multisig args.transactionIndex = some tx ∧
        (c.ledger s).content tx = some args.content := by
  obtain ⟨ix, hix, hsign, hp, u, w, hx, hu, hw⟩ := transact_new_vote hsigned hm h hold hnew
  refine ⟨⟨ix, hix, hsign⟩, fun args hs => ?_⟩
  have hlist := hl (hs.imp fun _ hy => ⟨hy.1, hy.2.1⟩)
  obtain ⟨⟨tx, htx, hc, -⟩, hall, -⟩ := transact_content hlaw hlist hs h
  exact ⟨new_vote_eq (e := args.expectation c.rt) hlaw rfl (hall ix hix) hp hx hu hw, tx, htx, hc⟩

/-- Whatever else a history holds, a vote it records for a member whose device signs only what shows a check was
cast by a transaction whose checks all showed that vote and the content then stored for it; and where the stored
transaction and its tables last to the end of the history, that is its content there. -/
theorem history_votes_shown (hlaw : c.Lawful) (happ : c.AppendOnly) (hsigned : c.OnlySigned member)
    (hl : ∀ top ∈ txs, (∃ ix ∈ top, ix.programId = programId) → c.Lists top)
    (hpolicy : ∀ top ∈ txs, AsksFor member top → ∃ args, Shown top args) (hm : v.member = member)
    (hold : ¬c.votes s v) (hnew : c.votes (c.history s txs) v) :
    ∃ pre top post, txs = pre ++ top :: post ∧ AsksFor member top ∧ (∃ args, Shown top args) ∧
      ∀ args, Shown top args →
        v = ⟨deriveProposalPda c.rt args.multisig args.transactionIndex, args.member, args.action⟩ ∧
        ∃ tx, (c.ledger (c.history s pre)).vaultTransaction c.rt args.multisig args.transactionIndex = some tx ∧
          (c.ledger (c.history s pre)).content tx = some args.content ∧
          (c.OpenThrough (c.history s pre) (top :: post) args.multisig args.transactionIndex tx →
            (c.ledger (c.history s txs)).vaultTransaction c.rt args.multisig args.transactionIndex = some tx ∧
              (c.ledger (c.history s txs)).content tx = some args.content) := by
  have hrun : Trace.run (fun s top => some (c.commit s top)) s txs = some (c.history s txs) := Trace.run_total _
  -- the first transaction after which the vote is there
  obtain ⟨pre, top, post, u, w, rfl, hpre, hu, hstep, hw, -⟩ :=
    Trace.run_first (P := fun s => c.votes s v) hold hrun hnew
  have htop : top ∈ pre ++ top :: post := by simp
  have hu' : c.history s pre = u := Option.some.inj ((Trace.run_total _).symm.trans hpre)
  subst hu'
  obtain rfl := Option.some.inj hstep
  -- a refused one would have left the votes as they were
  have htx : c.transact (c.history s pre) top = some (c.commit (c.history s pre) top) := by
    refine (commit_cases c _ top).resolve_right fun hsame => ?_
    rw [hsame] at hw
    exact hu hw
  obtain ⟨hasks, hshown⟩ := transact_vote_shown hlaw hsigned hm (hl top htop) htx hu hw
  refine ⟨pre, top, post, rfl, hasks, hpolicy top htop hasks, fun args hs => ?_⟩
  obtain ⟨hv, tx, hstored, hc⟩ := hshown args hs
  refine ⟨hv, tx, hstored, hc, fun hopen => ?_⟩
  rw [history_append]
  exact history_content happ hstored hc hopen

end

end Cluster

/-! ## A vote and a table that grows -/

namespace Transfer

/-- Adds an address to the lookup table. -/
def extend : Instruction where
  programId := addressLookupTableProgramId
  accounts := [{ pubkey := lookupTable, isSigner := false, isWritable := true }]
  data := leBytes 4 2

theorem execute_cases {s t : State} {ix : Instruction} (h : execute s ix = some t) :
    (t.2 = s.2 ∧ (s.1 = true → t.1 = true)) ∨ ∃ multisig m p rest action,
      ix.accounts = multisig :: m :: p :: rest ∧ m.isSigner = true ∧
        t = (s.1, ⟨p.pubkey, m.pubkey, action⟩ :: s.2) := by
  unfold execute at h
  split at h
  · rw [← Option.some.inj h]
    exact Or.inl ⟨rfl, id⟩
  · split at h
    · rw [← Option.some.inj h]
      exact Or.inl ⟨rfl, fun _ => rfl⟩
    · split at h
      · split at h
        · rename_i action multisig m p rest _ hacc
          rw [Option.ite_none_right_eq_some, Option.some.injEq] at h
          exact Or.inr ⟨multisig, m, p, rest, action, hacc, h.1, h.2.symm⟩
        · cases h
      · cases h

theorem transact_grown {s t : State} {l : List Instruction} (h : cluster.transact s l = some t) (hs : s.1 = true) :
    t.1 = true := by
  have hkeep : ∀ {u p v}, u.1 = true → True → cluster.invoke l u p = some v → v.1 = true := by
    intro u p v hu _ hstep
    by_cases hp : p.1.programId = programId
    · obtain ⟨-, rfl⟩ := (Cluster.invoke_program hp).mp hstep
      exact hu
    · rw [Cluster.invoke_other hp] at hstep
      rcases execute_cases hstep with ⟨-, hgrown⟩ | ⟨_, _, _, _, _, -, -, rfl⟩
      · exact hgrown hu
      · exact hu
  exact Trace.run_invariant (P := fun s : State => s.1 = true) hkeep hs (fun _ _ => trivial) h

theorem ledger_other {key : Pubkey} (h : key ≠ lookupTable) (d d' : Slice UInt8) : ledger d key = ledger d' key := by
  unfold ledger
  rw [if_neg h, if_neg h]

theorem extends_refl (d : Bytes) : Extends d d := by
  refine ⟨(d.drop 4).take 52, [], rfl, Nat.dvd_zero 32, ?_⟩
  have h56 : lookupTableMetaSize = 4 + 52 := rfl
  rw [List.append_nil, ← List.take_add, h56, List.take_append_drop]

theorem cluster_appendOnly : cluster.AppendOnly where
  stored {s t _ multisig index tx tx'} _ htx htx' := by
    rw [Ledger.vaultTransaction_eq_some] at htx htx'
    have hkey : deriveTransactionPda (runtime top) multisig index ≠ lookupTable := by
      intro he
      have ho : (ledger (if s.1 then grownTable else table) (deriveTransactionPda (runtime top) multisig index)).owner =
        squadsProgramId := htx.2.1
      have hne : addressLookupTableProgramId ≠ squadsProgramId := by decide +kernel
      rw [he, ledger_lookupTable] at ho
      exact hne ho
    have hsame : cluster.ledger t (deriveTransactionPda cluster.rt multisig index) =
        cluster.ledger s (deriveTransactionPda cluster.rt multisig index) := ledger_other hkey _ _
    rw [hsame, htx.1] at htx'
    exact (Except.ok.inj htx'.1).symm
  table {s t _ key} h _ _ := by
    show Extends (ledger (if s.1 then grownTable else table) key).data.toList
      (ledger (if t.1 then grownTable else table) key).data.toList
    by_cases hkey : key = lookupTable
    · rw [hkey, ledger_lookupTable, ledger_lookupTable]
      cases hs : s.1 with
      | true =>
        rw [transact_grown h hs]
        exact extends_refl _
      | false =>
        cases t.1 with
        | true => exact grownTable_extends
        | false => exact extends_refl _
    · rw [ledger_other hkey (if t.1 then grownTable else table) (if s.1 then grownTable else table)]
      exact extends_refl _

theorem cluster_onlySigned (key : Pubkey) : cluster.OnlySigned key := by
  intro s t ix v h hm hnew hold
  rcases execute_cases h with ⟨hvotes, -⟩ | ⟨multisig, m, p, rest, action, hacc, hsigner, rfl⟩
  · have hmem : v ∈ t.2 := hnew
    rw [hvotes] at hmem
    exact absurd hmem hold
  · have hv : v = ⟨p.pubkey, m.pubkey, action⟩ := (List.mem_cons.mp hnew).resolve_right hold
    rw [hv] at hm
    exact ⟨m, by rw [hacc]; simp, hm, hsigner⟩

end Transfer

/-- The vote is cast, and then the table it was resolved through grows. -/
theorem transfer_vote_shown : ∃ tx,
    (Transfer.ledger Transfer.table).vaultTransaction (Transfer.runtime Transfer.top) Transfer.multisig 1 = some tx ∧
      (Transfer.ledger Transfer.table).content tx = some Transfer.args.content ∧
      (Transfer.ledger Transfer.grownTable).content tx = some Transfer.args.content := by
  have hnotAsked : ¬AsksFor Transfer.member [Transfer.extend] := by
    intro ⟨ix, hix, m, hm, _, hs⟩
    obtain rfl := List.mem_singleton.mp hix
    obtain rfl := List.mem_singleton.mp hm
    cases hs
  have hlists : ∀ top ∈ [Transfer.top, [Transfer.extend]], (∃ ix ∈ top, ix.programId = programId) →
      Transfer.cluster.Lists top := by
    intro top htop hp
    simp only [List.mem_cons, List.not_mem_nil, or_false] at htop
    rcases htop with rfl | rfl
    · exact Transfer.cluster_lists
    · obtain ⟨ix, hix, hp⟩ := hp
      have hne : Transfer.extend.programId ≠ programId := by decide +kernel
      rw [List.mem_singleton.mp hix] at hp
      exact absurd hp hne
  have hpolicy : ∀ top ∈ [Transfer.top, [Transfer.extend]], AsksFor Transfer.member top → ∃ args, Shown top args := by
    intro top htop hasks
    simp only [List.mem_cons, List.not_mem_nil, or_false] at htop
    rcases htop with rfl | rfl
    · exact ⟨_, Transfer.shown⟩
    · exact absurd hasks hnotAsked
  have hnew : (⟨Transfer.proposalPda, Transfer.member, .approve⟩ : Vote) ∈
      (Transfer.cluster.history (false, []) [Transfer.top, [Transfer.extend]]).2 := by decide +kernel
  obtain ⟨pre, top, post, htxs, hasks, -, hshown⟩ := @Cluster.history_votes_shown _ Transfer.cluster (false, [])
    [Transfer.top, [Transfer.extend]] Transfer.member ⟨Transfer.proposalPda, Transfer.member, .approve⟩
    Transfer.cluster_lawful Transfer.cluster_appendOnly (Transfer.cluster_onlySigned _) hlists hpolicy rfl
    List.not_mem_nil hnew
  -- only the first of the two transactions asks the member
  obtain ⟨rfl, rfl, rfl⟩ : pre = [] ∧ top = Transfer.top ∧ post = [[Transfer.extend]] := by
    match pre, htxs with
    | [], htxs =>
      cases htxs
      exact ⟨rfl, rfl, rfl⟩
    | [_], htxs =>
      cases htxs
      exact absurd hasks hnotAsked
    | _ :: _ :: pre, htxs =>
      have hlen := congrArg List.length htxs
      simp only [List.length_cons, List.length_nil, List.length_append] at hlen
      omega
  obtain ⟨-, tx, hstored, hc, hlast⟩ := hshown _ Transfer.shown
  have htx : (Transfer.ledger Transfer.table).vaultTransaction (Transfer.runtime Transfer.top) Transfer.multisig 1 =
      some Transfer.tx := by decide +kernel
  obtain rfl : Transfer.tx = tx := Option.some.inj (htx.symm.trans hstored)
  refine ⟨_, hstored, hc, (hlast fun pre hpre => ?_).2⟩
  rcases List.prefix_cons_iff.mp hpre with rfl | ⟨l, rfl, hl⟩
  · exact ⟨by decide +kernel, by decide +kernel⟩
  · rcases List.prefix_cons_iff.mp hl with rfl | ⟨_, rfl, hnil⟩
    · exact ⟨by decide +kernel, by decide +kernel⟩
    · obtain rfl := List.prefix_nil.mp hnil
      exact ⟨by decide +kernel, by decide +kernel⟩

end ClearSigning
