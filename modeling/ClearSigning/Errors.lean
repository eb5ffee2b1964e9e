import ClearSigning.Lib.Exec

/-! # Errors and results -/

namespace ClearSigning

/-- `#[error_code]`, in declaration order. -/
inductive ClearSigningError where
  | invalidTransactionOwner
  | transactionPdaMismatch
  | notAVaultTransaction
  | transactionDeserializationError
  | multisigMismatch
  | transactionIndexMismatch
  | vaultIndexMismatch
  | ephemeralSignersMismatch
  | lookupTableCountMismatch
  | lookupTableAddressMismatch
  | invalidLookupTableOwner
  | invalidLookupTableData
  | lookupTableIndexOutOfBounds
  | accountIndexOutOfBounds
  | instructionCountMismatch
  | programIdMismatch
  | accountCountMismatch
  | accountKeyMismatch
  | accountWritableMismatch
  | accountSignerMismatch
  | dataMismatch
  | instructionsSysvarError
  | forbiddenInstruction
  | unexpectedSquadsInstruction
  | malformedVoteInstruction
  | voteMultisigMismatch
  | voteProposalMismatch
  | voteMemberMismatch
  | voteMemberNotSigner
  | missingVoteInstruction
  | bufferKeyMismatch
  | invalidBufferOwner
  | notABuffer
  | bufferHashMismatch
  deriving DecidableEq, Repr

abbrev Result (α : Type) := Exec ClearSigningError α

/-- What dispatch can report: a handler's code, or a failure of the framework around it. -/
inductive Error where
  | clearSigning (e : ClearSigningError)
  | instructionFallbackNotFound
  | instructionDidNotDeserialize
  | eventInstructionStub
  | accountNotEnoughKeys
  deriving DecidableEq, Repr

end ClearSigning
