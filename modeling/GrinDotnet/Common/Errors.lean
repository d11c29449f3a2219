/-!
# Exceptions

The exceptions the modelled code raises. The two application exceptions keep their error code and
the data attached to them; the other constructors are the runtime's own exception types.
-/

namespace GrinDotnet

/-- `WalletError`: the error codes of the wallet. -/
inductive WalletError
  | notEnoughFunds
  | feeDispute
  | keychain
  | transaction
  | secp
  | walletData
  | format
  | ioError
  | node
  | hyper
  | uri
deriving DecidableEq, Repr

/-- `BlockError`: the error codes of block validation. -/
inductive BlockError
  | kernelSumMismatch
  | coinbaseSumMismatch
  | oddKernelFee
  | weightExceeded
  | kernelLockHeight
  | lockHeight
  | transaction
  | secp
  | keychain
deriving DecidableEq, Repr

/-- An exception in flight. -/
inductive Exn
  /-- `WalletErrorException` with its message and the values attached by `Data`. -/
  | wallet (error : WalletError) (message : Option String) (data : List (String × UInt64))
  /-- `BlockErrorException` with the values attached by `Data`. -/
  | block (error : BlockError) (data : List (String × UInt64))
  | oddFee
  | toManyInputs
  /-- A plain `Exception` with its message. -/
  | exception (message : String)
  | argument
  | argumentOutOfRange
  | divideByZero
  | format
  | indexOutOfRange
  /-- `InvalidOperationException`, as `Aggregate` raises on an empty sequence. -/
  | invalidOperation
  | io
  | keyNotFound
  | nullReference
  | outOfMemory
  | overflow
  | unauthorizedAccess
deriving DecidableEq, Repr

end GrinDotnet
