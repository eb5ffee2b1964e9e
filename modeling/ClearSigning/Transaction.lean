import ClearSigning.Lib.Trace
import ClearSigning.EntrySound
import ClearSigning.ExtensionSound
import Mathlib.Logic.Function.Basic

/-!
# Transactions around the program

A transaction runs its top-level instructions in order and has no effect where
one of them fails. The program's own instructions are run by `entry`, over the
accounts they name and the sysvar that lists the transaction. What the other
programs do is a parameter; `Lawful` and `AppendOnly` are what is assumed of it.
-/

namespace ClearSigning

open Exec

def sysvarProgramId : Pubkey := pubkey "Sysvar1111111111111111111111111111111111111"

structure Vote where
  proposal : Pubkey
  member : Pubkey
  action : ProposalAction
  deriving DecidableEq

/-- A cluster's states `σ`, seen from their accounts and from the votes recorded in them. -/
structure Cluster (σ : Type) where
  rt : Runtime
  ledger : σ → Ledger
  votes : σ → Vote → Prop
  /-- The data of the instructions sysvar, for the instruction of a transaction at a position. -/
  sysvar : List Instruction → Nat → Slice UInt8
  /-- An instruction of another program, `none` where it fails. -/
  execute : σ → Instruction → Option σ

namespace Cluster

variable {σ : Type} (c : Cluster σ)

def sysvarAccount (top : List Instruction) (i : Nat) : AccountState where
  owner := sysvarProgramId
  data := c.sysvar top i

def view (top : List Instruction) (i : Nat) (s : σ) : Ledger :=
  Function.update (c.ledger s) instructionsSysvarId (c.sysvarAccount top i)

def invoke (top : List Instruction) (s : σ) (p : Instruction × Nat) : Option σ :=
  if p.1.programId = programId then
    -- the program only aborts
    if entry c.rt (p.1.accounts.map fun m => (c.view top p.2 s).info m.pubkey) p.1.data = .ok () then some s else none
  else c.execute s p.1

def transact (s : σ) (top : List Instruction) : Option σ := Trace.run (c.invoke top) s top.zipIdx

def commit (s : σ) (top : List Instruction) : σ := (c.transact s top).getD s

def history (s : σ) (txs : List (List Instruction)) : σ := txs.foldl c.commit s

/-- The sysvar lists the transaction, whichever of its instructions reads it. -/
def Lists (top : List Instruction) : Prop := ∀ i < top.length,
  Describes c.rt { key := instructionsSysvarId, owner := sysvarProgramId, data := c.sysvar top i } top

end Cluster

/-! ## The other programs -/

/-- The accounts that content is read from: lookup tables, stored transactions and the loader's. -/
def AccountState.Carries (a : AccountState) : Prop :=
  a.owner = addressLookupTableProgramId ∨
    a.owner = squadsProgramId ∧ vaultTransactionDiscriminator <+: a.data.toList ∨ a.owner = bpfLoaderUpgradeableId

def Instruction.SignedBy (ix : Instruction) (member : Pubkey) : Prop :=
  ∃ m ∈ ix.accounts, m.pubkey = member ∧ m.isSigner = true

def Ledger.Preserves (L L' : Ledger) : Prop := ∀ key, (L key).Carries → L' key = L key

namespace Cluster

variable {σ : Type} (c : Cluster σ)

/-- Compute-budget instructions have no effect, and a Squads vote records itself and touches no account that carries
content before or after. -/
structure Lawful : Prop where
  computeBudget : ∀ {s t ix}, ix.programId = computeBudgetProgramId → c.execute s ix = some t → t = s
  vote_ledger : ∀ {s t ix} {action : ProposalAction}, ix.programId = squadsProgramId →
    action.discriminator <+: ix.data → c.execute s ix = some t →
      (c.ledger s).Preserves (c.ledger t) ∧ (c.ledger t).Preserves (c.ledger s)
  vote_recorded : ∀ {s t ix} {action : ProposalAction} {multisig member proposal : AccountMeta}
    {rest : List AccountMeta} {v : Vote}, ix.programId = squadsProgramId → action.discriminator <+: ix.data →
      ix.accounts = multisig :: member :: proposal :: rest → c.execute s ix = some t → c.votes t v →
        c.votes s v ∨ v = ⟨proposal.pubkey, member.pubkey, action⟩

/-- An instruction records votes of `member` only where `member` signs it. -/
def OnlySigned (member : Pubkey) : Prop := ∀ {s t ix v}, c.execute s ix = some t → v.member = member →
  c.votes t v → ¬c.votes s v → ix.SignedBy member

/-- A stored transaction that is still there is the same one, and a lookup table that is still there has grown. -/
structure AppendOnly : Prop where
  stored : ∀ {s t top multisig index tx tx'}, c.transact s top = some t →
    (c.ledger s).vaultTransaction c.rt multisig index = some tx →
    (c.ledger t).vaultTransaction c.rt multisig index = some tx' → tx' = tx
  table : ∀ {s t top key}, c.transact s top = some t → (c.ledger s key).owner = addressLookupTableProgramId →
    (c.ledger t key).owner = addressLookupTableProgramId →
      Extends (c.ledger s key).data.toList (c.ledger t key).data.toList

end Cluster

/-! ## What the device sees -/

def AsksFor (member : Pubkey) (top : List Instruction) : Prop := ∃ ix ∈ top, ix.SignedBy member

/-- The transaction shows `args`, in the bytes of a `verify_proposal` instruction. -/
def Shown (top : List Instruction) (args : VerifyProposalArgs) : Prop :=
  ∃ ix ∈ top, ix.programId = programId ∧ ShowsProposal ix.data args

end ClearSigning
