import ClearSigning.Scripts

/-!
# The hand-written encoder against the on-chain decoder

The script's bytes are the Borsh layout field by field (`encodeVerifyProposalIx_eq`),
so decoding inverts them wherever every vector fits its count.
-/

namespace ClearSigning

open Exec

/-! ## The argument layout -/

def ExpectedAccountMeta.layout (x : ExpectedAccountMeta) : Bytes :=
  x.pubkey.toList ++ ([if x.isSigner then 1 else 0] ++ [if x.isWritable then 1 else 0])

def ExpectedInstruction.Sized (x : ExpectedInstruction) : Prop :=
  x.accounts.length < 2 ^ 32 ∧ x.data.length < 2 ^ 32

def ExpectedInstruction.layout (x : ExpectedInstruction) : Bytes :=
  x.programId.toList ++ ((leBytes 4 x.accounts.length ++ x.accounts.flatMap ExpectedAccountMeta.layout) ++
    (leBytes 4 x.data.length ++ x.data))

/-- Every vector is shorter than `2 ^ 32`. -/
def VerifyProposalArgs.Sized (x : VerifyProposalArgs) : Prop :=
  x.instructions.length < 2 ^ 32 ∧ ∀ ix ∈ x.instructions, ix.Sized

def VerifyProposalArgs.layout (x : VerifyProposalArgs) : Bytes :=
  x.multisig.toList ++ (leBytes 8 x.transactionIndex.toNat ++ ([x.vaultIndex] ++ ([x.numEphemeralSigners] ++
    (x.member.toList ++ ([UInt8.ofNat x.action.ctorIdx] ++
      (leBytes 4 x.instructions.length ++ x.instructions.flatMap ExpectedInstruction.layout))))))

theorem ProposalAction.writes :
    ProposalAction.borsh.Writes (fun _ => True) fun a => [UInt8.ofNat a.ctorIdx] :=
  fun _ e => Codec.u8_writes _ e

theorem ExpectedAccountMeta.writes : ExpectedAccountMeta.borsh.Writes (fun _ => True) layout :=
  (((Codec.raw_writes 32).seq (Codec.bool_writes.seq Codec.bool_writes)).map _).congr
    (fun _ => ⟨fun _ => ⟨trivial, trivial, trivial⟩, fun _ => trivial⟩) fun _ => rfl

theorem ExpectedInstruction.writes : ExpectedInstruction.borsh.Writes Sized layout := by
  refine (((Codec.raw_writes 32).seq (ExpectedAccountMeta.writes.vec.seq Codec.u8Vec_writes)).map _).congr
    (fun x => ⟨fun h => ?_, fun h => ?_⟩) fun _ => rfl
  · exact ⟨trivial, ⟨h.1, fun _ _ => trivial⟩, h.2⟩
  · obtain ⟨-, ⟨ha, -⟩, hd⟩ := h
    exact ⟨ha, hd⟩

theorem VerifyProposalArgs.writes : VerifyProposalArgs.borsh.Writes Sized layout := by
  refine (((Codec.raw_writes 32).seq (Codec.u64_writes.seq (Codec.u8_writes.seq (Codec.u8_writes.seq
    ((Codec.raw_writes 32).seq (ProposalAction.writes.seq ExpectedInstruction.writes.vec)))))).map _).congr
    (fun x => ⟨fun h => ?_, fun h => ?_⟩) fun _ => rfl
  · exact ⟨trivial, trivial, trivial, trivial, trivial, trivial, h⟩
  · obtain ⟨-, -, -, -, -, -, hi⟩ := h
    exact hi

/-! ## The script's bytes -/

theorem leBytes_mod (k n : Nat) : leBytes k (n % 256 ^ k) = leBytes k n := by
  induction k generalizing n with
  | zero => rfl
  | succ k ih =>
    have hb : UInt8.ofNat (n % 256 ^ (k + 1)) = UInt8.ofNat n := by
      apply UInt8.toNat_inj.mp
      rw [UInt8.toNat_ofNat', UInt8.toNat_ofNat', Nat.pow_succ']
      exact Nat.mod_mul_right_mod n 256 (256 ^ k)
    have hq : n % 256 ^ (k + 1) / 256 = n / 256 % 256 ^ k := by
      rw [Nat.pow_succ', Nat.mod_mul_right_div_self]
    rw [leBytes, leBytes, hb, hq, ih]

namespace EncoderArgs

theorem u32_eq (n : Nat) : u32 n = leBytes 4 n := leBytes_mod 4 n

theorem account_eq_some (a : Js.ExpectedAccountMeta) (e : Bytes) :
    account a = some e ↔ ∃ x : ExpectedAccountMeta, a = x.toJs ∧ e = x.layout := by
  have hlayout : ∀ x : ExpectedAccountMeta, account x.toJs = some x.layout := by
    intro x
    obtain ⟨pubkey, isSigner, isWritable⟩ := x
    cases isSigner <;> cases isWritable <;> simp [account, pk, u8, ExpectedAccountMeta.toJs, ExpectedAccountMeta.layout]
  refine ⟨fun h => ?_, fun ⟨x, ha, he⟩ => by rw [ha, he, hlayout]⟩
  obtain ⟨key, isSigner, isWritable⟩ := a
  cases key with
  | none => cases h
  | some pubkey =>
    have hx := hlayout ⟨pubkey, isSigner, isWritable⟩
    exact ⟨_, rfl, (Option.some.inj (hx.symm.trans h)).symm⟩

theorem instruction_eq_some (ix : Js.ExpectedInstruction) (e : Bytes) :
    instruction ix = some e ↔ ∃ x : ExpectedInstruction, ix = x.toJs ∧ e = x.layout := by
  have hlayout : ∀ x : ExpectedInstruction, instruction x.toJs = some x.layout := by
    intro x
    have haccts := (mapM_eq_some_map account_eq_some).mpr ⟨x.accounts, rfl, rfl⟩
    simp only [instruction, pk, ExpectedInstruction.toJs, haccts, Option.map_some, Option.bind_eq_bind,
      Option.bind_some, Option.pure_def, List.length_map, u32_eq, vecU8, ExpectedInstruction.layout, List.append_assoc,
      List.flatMap_def]
  refine ⟨fun h => ?_, fun ⟨x, hix, he⟩ => by rw [hix, he, hlayout]⟩
  obtain ⟨key, accounts, data⟩ := ix
  have hread := h
  simp only [instruction, Option.bind_eq_bind, Option.bind_eq_some_iff, mapM_eq_some_map account_eq_some] at hread
  obtain ⟨_, ⟨l, rfl, -⟩, _, hkey, -⟩ := hread
  obtain ⟨programId, rfl, -⟩ := Option.map_eq_some_iff.mp hkey
  have hx := hlayout ⟨programId, l, data⟩
  exact ⟨_, rfl, (Option.some.inj (hx.symm.trans h)).symm⟩

end EncoderArgs

theorem encodeVerifyProposalIx_eq (programId : Pubkey) (args : VerifyProposalArgs) (keys : List AccountMeta) :
    encodeVerifyProposalIx programId args.toEncoder keys =
      some { programId, accounts := keys, data := verifyProposalDisc ++ args.layout } := by
  have h64 : EncoderArgs.u64 args.transactionIndex.toNat = some (leBytes 8 args.transactionIndex.toNat) := by
    have := args.transactionIndex.toNat_lt
    unfold EncoderArgs.u64
    rw [if_pos ⟨by omega, by omega⟩]; rfl
  have hix := (mapM_eq_some_map EncoderArgs.instruction_eq_some).mpr ⟨args.instructions, rfl, rfl⟩
  have hact : EncoderArgs.u8 (actionIndex args.action) = [UInt8.ofNat args.action.ctorIdx] := by
    cases args.action <;> rfl
  simp only [encodeVerifyProposalIx, VerifyProposalArgs.toEncoder, h64, hix, hact, EncoderArgs.u32_eq,
    Option.bind_eq_bind, Option.bind_some, List.length_map, VerifyProposalArgs.layout, List.append_assoc,
    List.flatMap_def]
  simp [EncoderArgs.u8]

section
variable {programId : Pubkey} {enc : EncoderArgs} {keys : List AccountMeta}

theorem encodeVerifyProposalIx_defined {ix : Instruction} (h : encodeVerifyProposalIx programId enc keys = some ix) :
    ∃ l : List ExpectedInstruction, enc.instructions = l.map ExpectedInstruction.toJs := by
  simp only [encodeVerifyProposalIx, Option.bind_eq_bind, Option.bind_eq_some_iff,
    mapM_eq_some_map EncoderArgs.instruction_eq_some] at h
  obtain ⟨_, -, _, ⟨l, hl, -⟩, -⟩ := h
  exact ⟨l, hl⟩

/-- A count is written modulo 256. -/
theorem encodeVerifyProposalIx_wraps (n : Nat) :
    encodeVerifyProposalIx programId { enc with numEphemeralSigners := (UInt8.ofNat n).toNat } keys =
      encodeVerifyProposalIx programId { enc with numEphemeralSigners := n } keys := by
  have hu8 : EncoderArgs.u8 (UInt8.ofNat n).toNat = EncoderArgs.u8 n := by
    unfold EncoderArgs.u8
    rw [UInt8.ofNat_toNat]
  unfold encodeVerifyProposalIx
  rw [hu8]

end

/-- Encoder and decoder are inverse on the arguments whose vectors fit their counts, and on the byte
strings that decode completely; so neither side has two values for one of the other. -/
theorem encodeVerifyProposalIx_inverse (programId : Pubkey) (keys : List AccountMeta) :
    verifyProposalDisc.length = 8 ∧
    (∀ args : VerifyProposalArgs, args.Sized → ∃ payload,
      encodeVerifyProposalIx programId args.toEncoder keys =
        some { programId, accounts := keys, data := verifyProposalDisc ++ payload } ∧
      VerifyProposalArgs.borsh.dec payload = some (args, [])) ∧
    (∀ (payload : Bytes) (args : VerifyProposalArgs), VerifyProposalArgs.borsh.dec payload = some (args, []) →
      encodeVerifyProposalIx programId args.toEncoder keys =
        some { programId, accounts := keys, data := verifyProposalDisc ++ payload }) ∧
    (∀ args args' : VerifyProposalArgs, args.Sized → args'.Sized →
      encodeVerifyProposalIx programId args.toEncoder keys =
        encodeVerifyProposalIx programId args'.toEncoder keys → args = args') ∧
    (∀ (payload payload' : Bytes) (args : VerifyProposalArgs),
      VerifyProposalArgs.borsh.dec payload = some (args, []) →
      VerifyProposalArgs.borsh.dec payload' = some (args, []) → payload = payload') := by
  have hdec : ∀ args : VerifyProposalArgs, args.Sized →
      VerifyProposalArgs.borsh.dec args.layout = some (args, []) := by
    intro args h
    have := VerifyProposalArgs.borsh.dec_enc (VerifyProposalArgs.writes.enc h) []
    rwa [List.append_nil] at this
  have henc : ∀ (payload : Bytes) (args : VerifyProposalArgs),
      VerifyProposalArgs.borsh.dec payload = some (args, []) → payload = args.layout := by
    intro payload args h
    obtain ⟨e, he, rfl⟩ := VerifyProposalArgs.borsh.enc_dec h
    rw [List.append_nil, ((VerifyProposalArgs.writes args e).mp he).2]
  refine ⟨rfl, fun args h => ⟨args.layout, encodeVerifyProposalIx_eq .., hdec args h⟩, fun payload args h => ?_,
    fun args args' h h' heq => ?_, fun payload payload' args h h' => ?_⟩
  · rw [encodeVerifyProposalIx_eq, henc payload args h]
  · rw [encodeVerifyProposalIx_eq, encodeVerifyProposalIx_eq] at heq
    simp only [Option.some.injEq, Instruction.mk.injEq, true_and] at heq
    have hl := List.append_cancel_left heq
    exact VerifyProposalArgs.borsh.enc_inj (VerifyProposalArgs.writes.enc h) (hl ▸ VerifyProposalArgs.writes.enc h')
  · rw [henc payload args h, henc payload' args h']

end ClearSigning
