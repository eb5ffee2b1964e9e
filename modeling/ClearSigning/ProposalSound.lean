import ClearSigning.DiffSound
import ClearSigning.Handlers
import ClearSigning.ShapeSound

/-!
# When `verify_proposal` accepts

The handler's stages are put together: the stored transaction, the tables read
through the remaining accounts, the diff as equality with the expansion, and the
shape of the outer transaction. Against a ledger, the arguments accepted are
exactly those that show the ledger's content.
-/

namespace ClearSigning

open Exec

/-! ## Resolution and diff -/

theorem AccountKeys.expandAccount_resolved {message : VaultTransactionMessage} {tables : List (List Pubkey)}
    (h : ∀ k ∈ keyTable message tables, k.isSome) :
    (resolved message tables).expandAccount = ClearSigning.expandAccount message tables := by
  funext i
  unfold expandAccount ClearSigning.expandAccount
  rw [resolved_get h]
  simp only [resolved_writable]
  rfl

theorem AccountKeys.expandInstruction_resolved {message : VaultTransactionMessage} {tables : List (List Pubkey)}
    (h : ∀ k ∈ keyTable message tables, k.isSome) :
    (resolved message tables).expandInstruction = ClearSigning.expandInstruction message tables := by
  funext ix
  unfold expandInstruction ClearSigning.expandInstruction
  rw [resolved_get h, expandAccount_resolved h]

theorem expansion_eq_some {message : VaultTransactionMessage} {tables : List (List Pubkey)}
    {l : List ExpectedInstruction} :
    expansion message tables = some l ↔
      ∃ k, AccountKeys.resolve message tables = .ok k ∧ validateInstructions message k l = .ok () := by
  simp only [AccountKeys.resolve_eq_ok, validateInstructions_eq_ok, ← List.all_eq_true]
  unfold expansion
  by_cases h : tables.length = message.addressTableLookups.length ∧ (keyTable message tables).all Option.isSome
  · have hall := List.all_eq_true.mp h.2
    rw [if_pos h]
    refine ⟨fun hl => ⟨_, ⟨h, rfl⟩, ?_⟩, fun ⟨k, ⟨_, hk⟩, hl⟩ => ?_⟩
    · rw [AccountKeys.expandInstruction_resolved hall, hl]
    · rw [← hl, hk, AccountKeys.expandInstruction_resolved hall]
  · rw [if_neg h]
    exact ⟨nofun, fun ⟨_, ⟨h', _⟩, _⟩ => absurd h' h⟩

/-! ## Reading the remaining accounts and the sysvar -/

/-- The account passed for a lookup, and the addresses it holds. -/
structure TableAccount (account : AccountInfo) (lookup : MultisigMessageAddressTableLookup) (table : List Pubkey) :
    Prop where
  key : account.key = lookup.accountKey
  owner : account.owner = addressLookupTableProgramId
  addresses : parseLookupTableAddresses account.data.toList = .ok table

theorem readLookupTable_eq_ok {account : AccountInfo} {lookup : MultisigMessageAddressTableLookup}
    {table : List Pubkey} : readLookupTable account lookup = .ok table ↔ TableAccount account lookup table := by
  unfold readLookupTable
  rw [require_bind_eq_ok, require_bind_eq_ok]
  exact ⟨fun ⟨hk, ho, ha⟩ => ⟨hk, ho, ha⟩, fun ⟨hk, ho, ha⟩ => ⟨hk, ho, ha⟩⟩

theorem readTopLevel_eq {rt : Runtime} {sysvar : AccountInfo} {top : List Instruction}
    (h : Describes rt sysvar top) : readTopLevel rt sysvar = .ok top := by
  obtain ⟨two_le, count, load⟩ := h
  unfold readTopLevel
  generalize sysvar.data.toList = d at two_le count
  match d, two_le with
  | a :: b :: rest, hle =>
    have hn : leNat [a, b] = top.length := count
    simp only [require_pos hle, index, List.getElem?_cons_zero, List.getElem?_cons_succ, ok_bind, hn]
    rw [mapM_eq_ok, List.forall₂_iff_get]
    refine ⟨List.length_range, fun i h₁ h₂ => ?_⟩
    simp only [List.get_eq_getElem, List.getElem_range, okOr_eq_ok, load i h₂]

theorem Describes.length_le {rt : Runtime} {sysvar : AccountInfo} {top : List Instruction}
    (h : Describes rt sysvar top) : top.length ≤ usizeMax := by
  have hlt := leNat_lt (sysvar.data.toList.take 2)
  have h2 : (sysvar.data.toList.take 2).length = 2 := List.length_take_of_le h.two_le
  rw [h2, h.count] at hlt
  unfold usizeMax; omega

/-! ## Acceptance -/

def VerifyProposalArgs.expectation (rt : Runtime) (args : VerifyProposalArgs) : VoteExpectation where
  selfProgram := programId
  multisig := args.multisig
  proposal := deriveProposalPda rt args.multisig args.transactionIndex
  member := args.member
  action := args.action

theorem squads_not_exempt {e : VoteExpectation} (he : e.selfProgram = programId) {ix : Instruction}
    (hp : ix.programId = squadsProgramId) : ¬Exempt e ix := by
  unfold Exempt
  rw [he, hp]
  decide +kernel

/-- What is accepted: the stored transaction `tx`, and the addresses `tables` of the tables it uses. -/
structure Accepted (rt : Runtime) (ctx : Context VerifyProposal) (args : VerifyProposalArgs)
    (top : List Instruction) (tx : VaultTransaction) (tables : List (List Pubkey)) : Prop where
  key : ctx.accounts.transaction.key = deriveTransactionPda rt args.multisig args.transactionIndex
  owner : ctx.accounts.transaction.owner = squadsProgramId
  stored : VaultTransaction.deserializeChecked ctx.accounts.transaction.data.toList = .ok tx
  multisig : tx.multisig = args.multisig
  index : tx.index = args.transactionIndex
  vaultIndex : tx.vaultIndex = args.vaultIndex
  ephemeralSigners : tx.ephemeralSignerBumps.length = args.numEphemeralSigners.toNat
  remaining : ctx.remainingAccounts.length = tx.message.addressTableLookups.length
  tableAccounts : List.Forall₂ (fun p table => TableAccount p.1 p.2 table)
    (ctx.remainingAccounts.zip tx.message.addressTableLookups) tables
  instructions : expansion tx.message tables = some args.instructions
  allowed : ∀ ix ∈ top, Allowed (args.expectation rt) ix
  voted : ∃ ix ∈ top, Counts (args.expectation rt) ix

theorem verifyProposal_eq_ok {rt : Runtime} {ctx : Context VerifyProposal} {args : VerifyProposalArgs}
    {top : List Instruction} (hs : Describes rt ctx.accounts.instructionsSysvar top) :
    verifyProposal rt ctx args = .ok () ↔ ∃ tx tables, Accepted rt ctx args top tx tables := by
  unfold verifyProposal
  simp only [bind_eq_ok, require_eq_ok, exists_const, readTopLevel_eq hs, Except.ok.injEq]
  refine ⟨fun h => ?_, fun ⟨tx, tables, h⟩ => ?_⟩
  · obtain ⟨hk, ho, tx, htx, hm, hi, hv, he, hr, tables, ht, k, hres, _, hval, _, rfl, hshape⟩ := h
    obtain ⟨hall, hvote⟩ := (shape_eq_ok hs.length_le).mp hshape
    refine ⟨tx, tables, hk, ho, htx, hm, hi, hv, he, hr, ?_, expansion_eq_some.mpr ⟨k, hres, hval⟩, hall, hvote⟩
    exact (mapM_eq_ok.mp ht).imp fun _ _ h => readLookupTable_eq_ok.mp h
  · obtain ⟨k, hres, hval⟩ := expansion_eq_some.mp h.instructions
    have ht := mapM_eq_ok.mpr (h.tableAccounts.imp fun _ _ h => readLookupTable_eq_ok.mpr h)
    exact ⟨h.key, h.owner, tx, h.stored, h.multisig, h.index, h.vaultIndex, h.ephemeralSigners, h.remaining,
      tables, ht, k, hres, (), hval, top, rfl, (shape_eq_ok hs.length_le).mpr ⟨h.allowed, h.voted⟩⟩

/-- The conditions one by one: the account, the stored transaction, the tables, the whole instruction list
as the expansion of the stored message, and the outer transaction. -/
theorem verifyProposal_accepts {rt : Runtime} {ctx : Context VerifyProposal} {args : VerifyProposalArgs}
    {top : List Instruction} (hs : Describes rt ctx.accounts.instructionsSysvar top) :
    verifyProposal rt ctx args = .ok () ↔
      (ctx.accounts.transaction.key = deriveTransactionPda rt args.multisig args.transactionIndex ∧
        ctx.accounts.transaction.owner = squadsProgramId) ∧
      ∃ tx, (VaultTransaction.deserializeChecked ctx.accounts.transaction.data.toList = .ok tx ∧
          tx.multisig = args.multisig ∧ tx.index = args.transactionIndex ∧ tx.vaultIndex = args.vaultIndex ∧
          tx.ephemeralSignerBumps.length = args.numEphemeralSigners.toNat) ∧
        ∃ tables, (ctx.remainingAccounts.length = tx.message.addressTableLookups.length ∧
            List.Forall₂ (fun p table => TableAccount p.1 p.2 table)
              (ctx.remainingAccounts.zip tx.message.addressTableLookups) tables) ∧
          expansion tx.message tables = some args.instructions ∧
          (∀ ix ∈ top, Allowed (args.expectation rt) ix) ∧ ∃ ix ∈ top, Counts (args.expectation rt) ix := by
  rw [verifyProposal_eq_ok hs]
  refine ⟨fun ⟨tx, tables, h⟩ => ?_, fun ⟨⟨hk, ho⟩, tx, ⟨htx, hm, hi, hv, he⟩, tables, ⟨hr, ht⟩, hl, ha, hc⟩ =>
    ⟨tx, tables, hk, ho, htx, hm, hi, hv, he, hr, ht, hl, ha, hc⟩⟩
  exact ⟨⟨h.key, h.owner⟩, tx, ⟨h.stored, h.multisig, h.index, h.vaultIndex, h.ephemeralSigners⟩, tables,
    ⟨h.remaining, h.tableAccounts⟩, h.instructions, h.allowed, h.voted⟩

/-! ## The transfer, voted on -/

namespace Transfer

def transactionPda : Pubkey := pubkey "Eqw3LYqqEsJynMhyc5pdGbhv5eu5CeE96w5SLTJPL8kZ"

def proposalPda : Pubkey := pubkey "9x9hVru8aNpoo3DU6hC1gCuW63XMjFJbwHVBY8Ye6cJH"

def indexKey (index : Bytes) : Pubkey := ⟨leBytes 32 (leNat index), leBytes_length ..⟩

/-- The addresses derived for this multisig and index; any other seeds give back their index. -/
def findProgramAddress (seeds : List Bytes) (_ : Pubkey) : Pubkey × UInt8 :=
  if seeds = [seedPrefix, multisig.toList, seedTransaction, leBytes 8 1] then (transactionPda, 254)
  else if seeds = [seedPrefix, multisig.toList, seedTransaction, leBytes 8 1, seedProposal] then (proposalPda, 255)
  else (indexKey (seeds.getD 3 []), 255)

def vote : Instruction where
  programId := squadsProgramId
  accounts := [
    { pubkey := multisig, isSigner := false, isWritable := false },
    { pubkey := member, isSigner := true, isWritable := true },
    { pubkey := proposalPda, isSigner := false, isWritable := true }]
  data := ixProposalApprove

def verify : Instruction where
  programId := programId
  accounts := [
    { pubkey := transactionPda, isSigner := false, isWritable := false },
    { pubkey := instructionsSysvarId, isSigner := false, isWritable := false },
    { pubkey := lookupTable, isSigner := false, isWritable := false }]
  data := verifyProposalDiscriminator ++ (VerifyProposalArgs.borsh.enc args).getD []

def top : List Instruction := [verify, vote]

def accountBytes (m : AccountMeta) : Bytes :=
  UInt8.ofNat ((if m.isSigner then 1 else 0) + (if m.isWritable then 2 else 0)) :: m.pubkey.toList

def instructionBytes (ix : Instruction) : Bytes :=
  leBytes 2 ix.accounts.length ++ ix.accounts.flatMap accountBytes ++ ix.programId.toList ++
    leBytes 2 ix.data.length ++ ix.data

/-- The instructions of a transaction as the sysvar lists them: count, offsets, instructions. -/
def listing (l : List Instruction) : Bytes :=
  leBytes 2 l.length ++
    (List.range l.length).flatMap (fun i =>
      leBytes 2 (2 + 2 * l.length + ((l.take i).flatMap instructionBytes).length)) ++
    l.flatMap instructionBytes

/-- The sysvar lists `top`. -/
def runtime (top : List Instruction) : Runtime where
  findProgramAddress
  loadInstructionAtChecked i account :=
    if account.data.toList.take (listing top).length = listing top then top[i]? else none
  sha256 _ := List.Vector.replicate 32 0

theorem nil_fits : ([] : Bytes).length ≤ 2 ^ 63 - 1 := by decide

/-- The sysvar's data while the instruction at `current` runs. -/
def sysvarData (top : List Instruction) (current : Nat) : Slice UInt8 :=
  if h : (listing top ++ leBytes 2 current).length ≤ 2 ^ 63 - 1 then ⟨_, h⟩ else ⟨[], nil_fits⟩

theorem sysvarData_toList {top : List Instruction} (h : (listing top).length ≤ 2 ^ 62) (current : Nat) :
    (sysvarData top current).toList = listing top ++ leBytes 2 current := by
  have hfits : (listing top ++ leBytes 2 current).length ≤ 2 ^ 63 - 1 := by
    rw [List.length_append, leBytes_length]
    omega
  exact congrArg Slice.toList (dif_pos hfits)

def table : Slice UInt8 := ⟨tableData (List.replicate 52 0) [recipient], by decide⟩

def ledger (table : Slice UInt8) : Ledger := fun key =>
  if key = transactionPda then
    { owner := squadsProgramId
      data := ⟨vaultTransactionDiscriminator ++ tx.serialize.getD [] ++ [0, 0], by decide +kernel⟩ }
  else if key = lookupTable then { owner := addressLookupTableProgramId, data := table }
  else { owner := systemProgram, data := ⟨[], by decide⟩ }

theorem ledger_lookupTable (table : Slice UInt8) :
    ledger table lookupTable = { owner := addressLookupTableProgramId, data := table } := by
  unfold ledger
  rw [if_neg (by decide +kernel), if_pos rfl]

def sysvar : AccountInfo where
  key := instructionsSysvarId
  owner := pubkey "Sysvar1111111111111111111111111111111111111"
  data := sysvarData top 0

theorem describes {top : List Instruction} (htop : top.length < 2 ^ 16) {account : AccountInfo}
    (h : account.data.toList.take (listing top).length = listing top) : Describes (runtime top) account top := by
  have hhead : (listing top).take 2 = leBytes 2 top.length := by
    unfold listing
    rw [List.append_assoc]
    exact List.take_left' (leBytes_length ..)
  have h2 : 2 ≤ (listing top).length := by
    have hlen := congrArg List.length hhead
    rw [leBytes_length, List.length_take] at hlen
    omega
  refine ⟨?_, ?_, fun i hi => ?_⟩
  · have hlen := congrArg List.length h
    rw [List.length_take] at hlen
    omega
  · have ht : account.data.toList.take 2 = (listing top).take 2 := by
      rw [← h, List.take_take, Nat.min_eq_left h2]
    rw [ht, hhead, leNat_leBytes 2 _ htop]
  · have hload : (runtime top).loadInstructionAtChecked i account = top[i]? := by simp only [runtime, h, if_true]
    rw [hload, List.getElem?_eq_getElem hi]

theorem describes_sysvar {top : List Instruction} (htop : top.length < 2 ^ 16) (h : (listing top).length ≤ 2 ^ 62)
    {account : AccountInfo} (current : Nat) (hdata : account.data = sysvarData top current) :
    Describes (runtime top) account top := by
  refine describes htop ?_
  rw [hdata, sysvarData_toList h]
  exact List.take_left' rfl

theorem listing_fits : (listing top).length ≤ 2 ^ 62 := by decide +kernel

theorem top_short : top.length < 2 ^ 16 := by decide

theorem sysvar_data : sysvar.data = sysvarData top 0 := by simp only [sysvar]

theorem sysvar_describes : Describes (runtime top) sysvar top := by
  exact describes_sysvar top_short listing_fits 0 sysvar_data

def context : Context VerifyProposal where
  accounts := {
    transaction := (ledger table).info transactionPda
    instructionsSysvar := sysvar
    address := rfl }
  remainingAccounts := [(ledger table).info lookupTable]

end Transfer

theorem transfer_accepted : ∃ tx, VaultTransaction.deserializeChecked
    Transfer.context.accounts.transaction.data.toList = .ok tx ∧
      ∃ tables, expansion tx.message tables = some Transfer.args.instructions := by
  have hs : Describes (Transfer.runtime Transfer.top) Transfer.context.accounts.instructionsSysvar Transfer.top :=
    Transfer.sysvar_describes
  have h : verifyProposal (Transfer.runtime Transfer.top) Transfer.context Transfer.args = .ok () := by decide +kernel
  obtain ⟨-, tx, ⟨htx, -⟩, tables, -, hl, -⟩ := (verifyProposal_accepts hs).mp h
  exact ⟨tx, htx, tables, hl⟩

end ClearSigning
