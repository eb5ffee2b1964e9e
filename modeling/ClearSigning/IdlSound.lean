import ClearSigning.Idl
import ClearSigning.EntrySound
import ClearSigning.EncoderSound
import Mathlib.Algebra.Order.BigOperators.Group.List

/-!
# What a device shows is what the program reads

The published interface represents the program's own argument formats, so a
client that has only that file reads out of any data the arguments the handlers
read, under their names, and two different calls are never shown alike.
-/

namespace ClearSigning

open Schema Exec

/-! ## The types of the file -/

section
variable (n : Nat)

theorem ProposalAction.name_injective : Function.Injective ProposalAction.name := by
  intro a b h
  revert h
  cases a <;> cases b <;> decide

theorem ProposalAction.represents :
    Codec.Represents (Ty.codec idlTypes (n + 1) (.defined "ProposalAction")) ProposalAction.borsh fun a =>
      .variant a.name := by
  have hname : idlTypes.lookup "ProposalAction" =
      some (.enum ([ProposalAction.approve, .reject, .cancel, .cancelV2].map ProposalAction.name)) := rfl
  refine Represents.enum hname (Represents.variants ProposalAction.name_injective (by decide) fun d => ?_)
  simp only [ProposalAction.borsh, Codec.pmap]
  cases Codec.u8.dec d with
  | none => rfl
  | some p =>
    simp only [Option.bind_eq_bind, Option.bind_some]
    cases [approve, reject, cancel, cancelV2][p.1.toNat]? <;> rfl

theorem ExpectedAccountMeta.represents :
    Codec.Represents (Ty.codec idlTypes (n + 2) (.defined "ExpectedAccountMeta")) ExpectedAccountMeta.borsh
      fun x => x.toJs.display :=
  Represents.struct rfl ((Represents.cons Represents.raw (Represents.cons Represents.bool
    (Represents.last Represents.bool))).map _)

theorem ExpectedInstruction.represents :
    Codec.Represents (Ty.codec idlTypes (n + 4) (.defined "ExpectedInstruction")) ExpectedInstruction.borsh
      fun x => x.toJs.display := by
  refine (Represents.struct rfl ((Represents.cons Represents.raw (Represents.cons
    (Represents.vec (ExpectedAccountMeta.represents n)) (Represents.last Represents.bytes))).map _)).congr fun x => ?_
  simp [ExpectedInstruction.toJs, Js.ExpectedInstruction.display, Js.key]

theorem VerifyBufferHashArgs.represents :
    Codec.Represents (Ty.codec idlTypes (n + 2) (.defined "VerifyBufferHashArgs")) VerifyBufferHashArgs.borsh display :=
  Represents.struct rfl ((Represents.cons Represents.raw (Represents.last Represents.string)).map _)

theorem VerifyProposalArgs.represents :
    Codec.Represents (Ty.codec idlTypes (n + 6) (.defined "VerifyProposalArgs")) VerifyProposalArgs.borsh display := by
  refine (Represents.struct rfl ((Represents.cons Represents.raw (Represents.cons Represents.u64 (Represents.cons
    Represents.u8 (Represents.cons Represents.u8 (Represents.cons Represents.raw (Represents.cons
      (ProposalAction.represents (n + 4)) (Represents.last (Represents.vec
        (ExpectedInstruction.represents n))))))))).map _)).congr fun x => ?_
  simp [VerifyProposalArgs.display, VerifyProposalArgs.toJs, Js.VerifyProposalArgs.display]

end

theorem idl_address : idl.address = programId := rfl

theorem VerifyProposalArgs.display_injective : Function.Injective VerifyProposalArgs.display :=
  (VerifyProposalArgs.represents 0).inj

theorem VerifyBufferHashArgs.display_injective : Function.Injective VerifyBufferHashArgs.display :=
  (VerifyBufferHashArgs.represents 0).inj

/-! ## The arguments of the two calls -/

section
variable {fields : List (String × Value)} {e : Bytes}

theorem idl_proposal_enc : (idl.argsCodec idlVerifyProposal).enc fields = some e ↔
    ∃ args, fields = [("args", VerifyProposalArgs.display args)] ∧ VerifyProposalArgs.borsh.enc args = some e :=
  (Represents.last (VerifyProposalArgs.represents 0)).enc_eq_some

theorem idl_buffer_enc : (idl.argsCodec idlVerifyBufferHash).enc fields = some e ↔
    ∃ args, fields = [("args", VerifyBufferHashArgs.display args)] ∧ VerifyBufferHashArgs.borsh.enc args = some e :=
  (Represents.last (VerifyBufferHashArgs.represents 4)).enc_eq_some

theorem idl_cases {ix : IdlInstruction} (h : ix ∈ idl.instructions) :
    ix = idlVerifyProposal ∨ ix = idlVerifyBufferHash := by
  simpa [idl] using h

theorem idl_proposal_mem : idlVerifyProposal ∈ idl.instructions := List.mem_cons_self

theorem idl_buffer_mem : idlVerifyBufferHash ∈ idl.instructions := List.mem_cons_of_mem _ (List.mem_singleton_self _)

end

/-! ## Reading an instruction's data -/

section
variable {rt : Runtime} {accounts : List AccountInfo} {data : Bytes}

theorem ShowsProposal.entry_eq {args : VerifyProposalArgs} (h : ShowsProposal data args) : entry rt accounts data =
    VerifyProposal.tryAccounts accounts >>= fun ctx => report (verifyProposal rt ctx args) := by
  rw [entry_of_proposal h.isPrefix, (decodeArgs_eq_ok_proposal h.isPrefix).mpr h]
  rfl

theorem ShowsBuffer.entry_eq {args : VerifyBufferHashArgs} (h : ShowsBuffer data args) : entry rt accounts data =
    VerifyBufferHash.tryAccounts accounts >>= fun ctx => report (verifyBufferHash rt ctx args) := by
  rw [entry_of_buffer h.isPrefix, (decodeArgs_eq_ok_buffer h.isPrefix).mpr h]
  rfl

theorem report_read {α : Type} {x : Result α} {e : Error} (h : report x = fail e) : ¬Unread e := by
  cases x with
  | ok a => cases h
  | error s =>
    cases s with
    | err c =>
      cases h
      simp [Unread]
    | panic => cases h

theorem VerifyProposal.tryAccounts_read {e : Error} (h : VerifyProposal.tryAccounts accounts = fail e) :
    ¬Unread e := by
  unfold VerifyProposal.tryAccounts at h
  split at h
  · split at h
    · cases h
    · cases h
      simp [Unread]
  · cases h
    simp [Unread]

theorem VerifyBufferHash.tryAccounts_read {e : Error} (h : VerifyBufferHash.tryAccounts accounts = fail e) :
    ¬Unread e := by
  cases accounts with
  | nil =>
    cases h
    simp [Unread]
  | cons b rest => cases h

/-- The program reads `fields` for the handler `name` out of the data. -/
def Reads (data : Bytes) (name : String) (fields : List (String × Value)) : Prop :=
  (∃ args, ShowsProposal data args ∧ name = "verify_proposal" ∧ fields = [("args", args.display)]) ∨
    ∃ args, ShowsBuffer data args ∧ name = "verify_buffer_hash" ∧ fields = [("args", args.display)]

section
variable {name : String} {fields : List (String × Value)}

theorem Decoder.Follows.reads_of_shown {device : Decoder} (hdev : device.Follows idl)
    (h : device data = some (name, fields)) : Reads data name fields := by
  obtain ⟨ix, hix, rfl, e, rest, he, rfl⟩ := hdev.reads data name fields h
  rcases idl_cases hix with rfl | rfl
  · obtain ⟨args, hfields, henc⟩ := idl_proposal_enc.mp he
    exact .inl ⟨args, ⟨e, rest, henc, rfl⟩, rfl, hfields⟩
  · obtain ⟨args, hfields, henc⟩ := idl_buffer_enc.mp he
    exact .inr ⟨args, ⟨e, rest, henc, rfl⟩, rfl, hfields⟩

theorem Reads.read (h : Reads data name fields) {e : Error} (he : entry rt accounts data = fail e) : ¬Unread e := by
  obtain ⟨args, hs, -, -⟩ | ⟨args, hs, -, -⟩ := h
  · rw [hs.entry_eq, bind_eq_fail] at he
    obtain hacc | ⟨ctx, -, hrep⟩ := he
    · exact VerifyProposal.tryAccounts_read hacc
    · exact report_read hrep
  · rw [hs.entry_eq, bind_eq_fail] at he
    obtain hacc | ⟨ctx, -, hrep⟩ := he
    · exact VerifyBufferHash.tryAccounts_read hacc
    · exact report_read hrep

theorem entry_unread (h : ∀ name fields, ¬Reads data name fields) :
    ∃ e, Unread e ∧ entry rt accounts data = fail e := by
  by_cases hp : verifyProposalDiscriminator <+: data
  · rcases @decodeArgs_cases _ VerifyProposalArgs.borsh data with ⟨args, hargs⟩ | hfail
    · exact absurd (.inl ⟨args, (decodeArgs_eq_ok_proposal hp).mp hargs, rfl, rfl⟩) (h _ _)
    · rw [entry_of_proposal hp, hfail]
      exact ⟨_, .inr (.inr rfl), rfl⟩
  · by_cases hb : verifyBufferHashDiscriminator <+: data
    · rcases @decodeArgs_cases _ VerifyBufferHashArgs.borsh data with ⟨args, hargs⟩ | hfail
      · exact absurd (.inr ⟨args, (decodeArgs_eq_ok_buffer hb).mp hargs, rfl, rfl⟩) (h _ _)
      · rw [entry_of_buffer hb, hfail]
        exact ⟨_, .inr (.inr rfl), rfl⟩
    · exact entry_fallback hp hb

theorem Reads.entry_eq {data' : Bytes} (h : Reads data name fields) (h' : Reads data' name fields) :
    entry rt accounts data = entry rt accounts data' := by
  obtain ⟨args, hs, rfl, rfl⟩ | ⟨args, hs, rfl, rfl⟩ := h
  · obtain ⟨args', hs', -, hf⟩ | ⟨_, -, hn, -⟩ := h'
    · have hargs : args = args' := VerifyProposalArgs.display_injective (by simpa using hf)
      rw [hs.entry_eq, hs'.entry_eq, hargs]
    · exact absurd hn (by decide)
  · obtain ⟨_, -, hn, -⟩ | ⟨args', hs', -, hf⟩ := h'
    · exact absurd hn (by decide)
    · have hargs : args = args' := VerifyBufferHashArgs.display_injective (by simpa using hf)
      rw [hs.entry_eq, hs'.entry_eq, hargs]

end

end

/-- Whatever a device shows that goes by the published file, the program reads: the handler's name, and the arguments
under their names. It shows every call encoded as declared, and nothing where the program reads nothing; and
instructions shown alike do the same over any accounts. -/
theorem idl_shows_what_is_read {device : Decoder} (hdev : device.Follows idl) (rt : Runtime)
    (accounts : List AccountInfo) :
    (∀ data name fields, device data = some (name, fields) → Reads data name fields) ∧
    ((∀ args e, VerifyProposalArgs.borsh.enc args = some e →
        device (verifyProposalDiscriminator ++ e) = some ("verify_proposal", [("args", args.display)])) ∧
      ∀ args e, VerifyBufferHashArgs.borsh.enc args = some e →
        device (verifyBufferHashDiscriminator ++ e) = some ("verify_buffer_hash", [("args", args.display)])) ∧
    (∀ data, ((∃ e, Unread e ∧ entry rt accounts data = fail e) ↔ ∀ name fields, ¬Reads data name fields) ∧
      ((∃ e, Unread e ∧ entry rt accounts data = fail e) → device data = none)) ∧
    ∀ data data' shown, device data = some shown → device data' = some shown →
      entry rt accounts data = entry rt accounts data' := by
  have hread : ∀ {data name fields}, device data = some (name, fields) → Reads data name fields :=
    fun h => hdev.reads_of_shown h
  have hunread : ∀ data, (∃ e, Unread e ∧ entry rt accounts data = fail e) ↔ ∀ name fields, ¬Reads data name fields :=
    fun data => ⟨fun ⟨e, he, h⟩ name fields hr => hr.read h he, entry_unread⟩
  refine ⟨fun data name fields => hread, ⟨fun args e he => ?_, fun args e he => ?_⟩, fun data => ⟨hunread data, ?_⟩, ?_⟩
  · exact hdev.shows _ idl_proposal_mem _ e (idl_proposal_enc.mpr ⟨args, rfl, he⟩)
  · exact hdev.shows _ idl_buffer_mem _ e (idl_buffer_enc.mpr ⟨args, rfl, he⟩)
  · intro h
    refine Option.eq_none_iff_forall_ne_some.mpr fun ⟨name, fields⟩ hs => ?_
    exact (hunread data).mp h name fields (hread hs)
  · intro data data' ⟨name, fields⟩ h h'
    exact (hread h).entry_eq (hread h')

/-! ## A device and a coder that follow a file -/

namespace Idl

section
variable (idl : Idl)

def reader : Decoder := fun data => do
  let ix ← idl.instructions.find? fun ix => ix.discriminator.isPrefixOf data
  let (fields, _) ← (idl.argsCodec ix).dec (data.drop ix.discriminator.length)
  return (ix.name, fields)

def writer (capacity : Nat) : Coder where
  capacity
  instruction name fields accounts remaining := do
    let ix ← idl.instructions.find? fun ix => ix.name = name
    let e ← (idl.argsCodec ix).enc fields
    if e.length ≤ capacity then
      return {
        programId := idl.address
        accounts := List.zipWith (fun a pubkey =>
          { pubkey, isSigner := a.signer, isWritable := a.writable }) ix.accounts accounts ++ remaining
        data := ix.discriminator ++ e }
    else none

end

theorem find?_eq_of_unique {α : Type} {p : α → Bool} {l : List α} {x : α} (hx : x ∈ l) (hp : p x = true)
    (hu : ∀ y ∈ l, p y = true → y = x) : l.find? p = some x := by
  obtain ⟨y, hy⟩ := Option.isSome_iff_exists.mp (List.find?_isSome.mpr ⟨x, hx, hp⟩)
  rw [hy, hu y (List.mem_of_find?_eq_some hy) (List.find?_some hy)]

section
variable {i : Idl}

theorem reader_follows (hd : ∀ ix ∈ i.instructions, ∀ ix' ∈ i.instructions, ∀ data,
    ix.discriminator <+: data → ix'.discriminator <+: data → ix' = ix) : i.reader.Follows i where
  shows ix hix fields e he := by
    have hpre : ix.discriminator <+: ix.discriminator ++ e := List.prefix_append ..
    have hfind := find?_eq_of_unique (p := fun ix' => ix'.discriminator.isPrefixOf (ix.discriminator ++ e)) hix
      (List.isPrefixOf_iff_prefix.mpr hpre)
      fun ix' hix' h => hd ix hix ix' hix' _ hpre (List.isPrefixOf_iff_prefix.mp h)
    have hdec := (i.argsCodec ix).dec_enc he []
    rw [List.append_nil] at hdec
    simp only [reader, hfind, Option.bind_eq_bind, Option.bind_some, List.drop_left, hdec, Option.pure_def]
  reads data name fields h := by
    simp only [reader, Option.bind_eq_bind, Option.bind_eq_some_iff, Option.pure_def, Option.some.injEq,
      Prod.mk.injEq] at h
    obtain ⟨ix, hfind, ⟨shown, rest⟩, hdec, hname, rfl⟩ := h
    have hpre : ix.discriminator.isPrefixOf data = true :=
      List.find?_some (p := fun ix : IdlInstruction => ix.discriminator.isPrefixOf data) hfind
    obtain ⟨tail, rfl⟩ := List.isPrefixOf_iff_prefix.mp hpre
    rw [List.drop_left] at hdec
    obtain ⟨e, he, rfl⟩ := (i.argsCodec ix).enc_dec hdec
    exact ⟨ix, List.mem_of_find?_eq_some hfind, hname, e, rest, he, (List.append_assoc ..).symm⟩

theorem writer_follows (hn : (i.instructions.map (·.name)).Nodup) {capacity : Nat} (hc : capacity < 2 ^ 32) :
    (i.writer capacity).Follows i := by
  have hfind : ∀ ix ∈ i.instructions, i.instructions.find? (fun ix' => ix'.name = ix.name) = some ix := by
    intro ix hix
    refine find?_eq_of_unique hix (decide_eq_true rfl) fun ix' hix' h => ?_
    exact List.inj_on_of_nodup_map hn hix' hix (of_decide_eq_true h)
  refine ⟨hc, ?_, ?_, ?_⟩
  · intro ix hix fields e accounts remaining he hlen _
    have hlen : e.length ≤ capacity := hlen
    simp only [writer, hfind ix hix, Option.bind_eq_bind, Option.bind_some, he, if_pos hlen, Option.pure_def]
  · intro ix hix fields e accounts remaining he hlen
    have hlen : ¬e.length ≤ capacity := Nat.not_le.mpr hlen
    simp only [writer, hfind ix hix, Option.bind_eq_bind, Option.bind_some, he, if_neg hlen]
  · intro ix hix fields accounts remaining he
    simp only [writer, hfind ix hix, Option.bind_eq_bind, Option.bind_some, he, Option.bind_none]

end

end Idl

theorem idl_reader_follows : idl.reader.Follows idl := by
  refine Idl.reader_follows fun ix hix ix' hix' data h h' => ?_
  rcases idl_cases hix with rfl | rfl
  · rcases idl_cases hix' with rfl | rfl
    · rfl
    · exact absurd h (not_verifyProposal_of_verifyBufferHash h')
  · rcases idl_cases hix' with rfl | rfl
    · exact absurd h' (not_verifyProposal_of_verifyBufferHash h)
    · rfl

theorem idl_writer_follows : (idl.writer 1000).Follows idl := Idl.writer_follows (by decide) (by decide)

theorem transfer_args_shown : idl.reader (verifyProposalDiscriminator ++ Transfer.args.layout) =
    some ("verify_proposal", [("args", Transfer.args.display)]) :=
  (idl_shows_what_is_read idl_reader_follows (Transfer.runtime Transfer.top) []).2.1.1 Transfer.args _
    (by decide +kernel)

/-! ## What the coder writes -/

def VerifyProposalArgs.size (args : VerifyProposalArgs) : Nat :=
  79 + (args.instructions.map fun ix => 40 + 34 * ix.accounts.length + ix.data.length).sum

theorem ExpectedAccountMeta.layout_length (x : ExpectedAccountMeta) : x.layout.length = 34 := by
  simp [layout]

theorem ExpectedInstruction.layout_length (x : ExpectedInstruction) :
    x.layout.length = 40 + 34 * x.accounts.length + x.data.length := by
  have hacc : (x.accounts.flatMap ExpectedAccountMeta.layout).length = 34 * x.accounts.length := by
    rw [List.length_flatMap, funext ExpectedAccountMeta.layout_length]
    simp [Nat.mul_comm]
  simp only [layout, List.length_append, List.Vector.toList_length, leBytes_length, hacc]
  omega

theorem VerifyProposalArgs.layout_length (args : VerifyProposalArgs) : args.layout.length = args.size := by
  have hix : (args.instructions.flatMap ExpectedInstruction.layout).length =
      (args.instructions.map fun ix => 40 + 34 * ix.accounts.length + ix.data.length).sum := by
    rw [List.length_flatMap, funext ExpectedInstruction.layout_length]
  simp only [layout, size, List.length_append, List.Vector.toList_length, leBytes_length, hix, List.length_cons,
    List.length_nil]
  omega

theorem VerifyProposalArgs.sized_of_size {args : VerifyProposalArgs} (h : args.size < 2 ^ 32) : args.Sized := by
  have hle : ∀ ix ∈ args.instructions, 40 + 34 * ix.accounts.length + ix.data.length ≤ args.size := by
    intro ix hix
    have hsum := List.le_sum_of_mem (List.mem_map.mpr ⟨ix, hix, rfl⟩ :
      40 + 34 * ix.accounts.length + ix.data.length ∈
        args.instructions.map fun ix => 40 + 34 * ix.accounts.length + ix.data.length)
    exact hsum.trans (Nat.le_add_left _ 79)
  refine ⟨?_, fun ix hix => ?_⟩
  · have hlen := List.length_le_sum_of_one_le (args.instructions.map fun ix =>
      40 + 34 * ix.accounts.length + ix.data.length) (by
        intro k hk
        obtain ⟨ix, -, rfl⟩ := List.mem_map.mp hk
        omega)
    rw [List.length_map] at hlen
    unfold size at h
    omega
  · have hsize := hle ix hix
    constructor <;> omega

namespace Js

theorem key_injective : Function.Injective key := by
  intro a b h
  cases a with
  | none => cases b with
    | none => rfl
    | some _ => cases h
  | some a => cases b with
    | none => cases h
    | some b => exact congrArg some (Subtype.ext (Value.raw.inj h))

theorem ExpectedAccountMeta.display_injective : Function.Injective ExpectedAccountMeta.display := by
  intro x y h
  obtain ⟨p, s, w⟩ := x
  obtain ⟨q, s', w'⟩ := y
  simp only [display, Value.record.injEq, List.cons.injEq, Prod.mk.injEq, true_and, and_true, key_injective.eq_iff,
    Value.bool.injEq] at h
  obtain ⟨rfl, rfl, rfl⟩ := h
  rfl

theorem ExpectedInstruction.display_injective : Function.Injective ExpectedInstruction.display := by
  intro x y h
  obtain ⟨p, a, d⟩ := x
  obtain ⟨q, b, e⟩ := y
  simp only [display, Value.record.injEq, List.cons.injEq, Prod.mk.injEq, true_and, and_true, key_injective.eq_iff,
    Value.list.injEq, (List.map_injective_iff.mpr ExpectedAccountMeta.display_injective).eq_iff,
    Value.bytes.injEq] at h
  obtain ⟨rfl, rfl, rfl⟩ := h
  rfl

theorem VerifyProposalArgs.display_injective : Function.Injective VerifyProposalArgs.display := by
  intro x y h
  obtain ⟨m, i, v, n, k, a, l⟩ := x
  obtain ⟨m', i', v', n', k', a', l'⟩ := y
  simp only [display, Value.record.injEq, List.cons.injEq, Prod.mk.injEq, true_and, and_true, Value.raw.injEq,
    Value.number.injEq, Value.variant.injEq, ProposalAction.name_injective.eq_iff, Value.list.injEq,
    (List.map_injective_iff.mpr ExpectedInstruction.display_injective).eq_iff] at h
  obtain ⟨hm, rfl, rfl, rfl, hk, rfl, rfl⟩ := h
  rw [show m = m' from Subtype.ext hm, show k = k' from Subtype.ext hk]

end Js

/-- A coder that follows a file writes exactly the arguments of the declared types that fit its buffer. -/
theorem Coder.Follows.instruction_eq_some {coder : Coder} {i : Idl} (h : coder.Follows i) {ix : IdlInstruction}
    (hix : ix ∈ i.instructions) {fields : List (String × Value)} {accounts : List Pubkey}
    (hlen : accounts.length = ix.accounts.length) {remaining : List AccountMeta} {out : Instruction} :
    coder.instruction ix.name fields accounts remaining = some out ↔
      ∃ e, (i.argsCodec ix).enc fields = some e ∧ e.length ≤ coder.capacity ∧ out = {
        programId := i.address
        accounts := List.zipWith (fun a pubkey =>
          { pubkey, isSigner := a.signer, isWritable := a.writable }) ix.accounts accounts ++ remaining
        data := ix.discriminator ++ e } := by
  cases he : (i.argsCodec ix).enc fields with
  | none =>
    rw [h.undeclared ix hix fields accounts remaining he]
    simp
  | some e =>
    by_cases hfits : e.length ≤ coder.capacity
    · rw [h.writes ix hix fields e accounts remaining he hfits hlen]
      simp [hfits, eq_comm]
    · rw [h.overruns ix hix fields e accounts remaining he (Nat.not_le.mp hfits)]
      simp [hfits]

theorem idl_proposal_display {v : Js.VerifyProposalArgs} {e : Bytes} :
    (idl.argsCodec idlVerifyProposal).enc [("args", v.display)] = some e ↔
      ∃ args : VerifyProposalArgs, v = args.toJs ∧ args.Sized ∧ args.layout = e := by
  rw [idl_proposal_enc]
  refine exists_congr fun args => and_congr ⟨fun h => ?_, fun h => h ▸ rfl⟩ (VerifyProposalArgs.writes args e)
  exact Js.VerifyProposalArgs.display_injective (Prod.mk.inj (List.cons.inj h).1).2

section
variable {coder : Coder} (hcoder : coder.Follows idl)
include hcoder

/-- The coder writes the arguments that have all their keys, whose numbers fit their types and which fit its buffer. -/
theorem Coder.Follows.proposal {v : Js.VerifyProposalArgs} {transaction sysvar : Pubkey} {remaining : List AccountMeta}
    {ix : Instruction} :
    coder.instruction "verify_proposal" [("args", v.display)] [transaction, sysvar] remaining = some ix ↔
      ∃ args : VerifyProposalArgs, v = args.toJs ∧ args.size ≤ coder.capacity ∧ ix = {
        programId
        accounts := { pubkey := transaction, isSigner := false, isWritable := false } ::
          { pubkey := sysvar, isSigner := false, isWritable := false } :: remaining
        data := verifyProposalDiscriminator ++ args.layout } := by
  refine (hcoder.instruction_eq_some idl_proposal_mem rfl).trans ?_
  constructor
  · intro h
    obtain ⟨e, he, hfits, hix⟩ := h
    obtain ⟨args, hv, -, rfl⟩ := idl_proposal_display.mp he
    exact ⟨args, hv, args.layout_length ▸ hfits, hix⟩
  · intro h
    obtain ⟨args, hv, hfits, hix⟩ := h
    -- what fits the buffer is short enough for its length prefixes
    have hsized := VerifyProposalArgs.sized_of_size (Nat.lt_of_le_of_lt hfits hcoder.capacity)
    exact ⟨args.layout, idl_proposal_display.mpr ⟨args, hv, hsized, rfl⟩, args.layout_length.symm ▸ hfits, hix⟩

theorem Coder.Follows.buffer {args : VerifyBufferHashArgs} {ix : Instruction}
    (h : coder.instruction "verify_buffer_hash" [("args", args.display)] [args.buffer] [] = some ix) :
    ix.programId = programId ∧ ix.accounts.map (·.pubkey) = [args.buffer] ∧ ShowsBuffer ix.data args := by
  obtain ⟨e, he, -, rfl⟩ := (hcoder.instruction_eq_some idl_buffer_mem rfl).mp h
  obtain ⟨args', hfields, henc⟩ := idl_buffer_enc.mp he
  have hargs : args = args' := VerifyBufferHashArgs.display_injective (Prod.mk.inj (List.cons.inj hfields).1).2
  exact ⟨rfl, rfl, e, [], hargs ▸ henc, (List.append_nil _).symm⟩

end

end ClearSigning
