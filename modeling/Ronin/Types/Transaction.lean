import Ronin.Trie.Codec
import Mathlib.Algebra.Group.Nat.Basic

/-!
# Transactions

The transaction data the marshalling code and the state transition read. The type
definitions themselves (`transaction.go`, `tx_*.go`, `access_list.go`,
`tx_setcode.go`) are not in `src/`: each record below has the fields that
`MarshalJSON`, `UnmarshalJSON`, `IntrinsicGas` and `TransitionDb` read or write,
under the Go names. `*big.Int` fields are `Option Nat` (nil or a non-negative
value; `hexutil.Big` never decodes a negative number), `uint256.Int` fields are
`U256`. The Go field `To` is `toAddress`, as `to` is a Lean keyword.
-/

namespace Ronin

/-- `common.Address`: 20 bytes. -/
structure Address where
  bytes : Bytes
  length_eq : bytes.length = 20
  deriving DecidableEq

/-- The zero address `common.Address{}`. -/
def Address.zero : Address := ⟨List.replicate 20 0, rfl⟩

/-- `uint256.Int`. -/
abbrev U256 := Fin (2 ^ 256)

/-- `types.AccessTuple`. `StorageKeys` is a slice: `none` is a nil one, which the
tuple's JSON codec writes as `null`. -/
structure AccessTuple where
  address : Address
  storageKeys : Option (List Hash)
  deriving DecidableEq

/-- `types.AccessList`. -/
abbrev AccessList := List AccessTuple

/-- `AccessList.StorageKeys`: the number of storage keys over all tuples; a nil slice
has none. -/
def AccessList.storageKeys (al : AccessList) : Nat :=
  al.foldl (fun sum tuple => sum + (tuple.storageKeys.getD []).length) 0

/-- `types.Authorization`, with the fields `validateAuthorization` reads. -/
structure Authorization where
  chainID : UInt64
  address : Address
  nonce : UInt64
  v : UInt8
  r : U256
  s : U256
  deriving DecidableEq

/-- `kzg4844` sidecar data of a blob transaction; never compared below. -/
structure BlobTxSidecar where
  blobs : List Bytes
  commitments : List Bytes
  proofs : List Bytes
  deriving DecidableEq

structure LegacyTx where
  nonce : UInt64
  gasPrice : Option Nat
  gas : UInt64
  toAddress : Option Address
  value : Option Nat
  data : Bytes
  v : Option Nat
  r : Option Nat
  s : Option Nat
  deriving DecidableEq

structure AccessListTx where
  chainID : Option Nat
  nonce : UInt64
  gasPrice : Option Nat
  gas : UInt64
  toAddress : Option Address
  value : Option Nat
  data : Bytes
  accessList : AccessList
  v : Option Nat
  r : Option Nat
  s : Option Nat
  deriving DecidableEq

structure DynamicFeeTx where
  chainID : Option Nat
  nonce : UInt64
  gasTipCap : Option Nat
  gasFeeCap : Option Nat
  gas : UInt64
  toAddress : Option Address
  value : Option Nat
  data : Bytes
  accessList : AccessList
  v : Option Nat
  r : Option Nat
  s : Option Nat
  deriving DecidableEq

/-- Ronin's sponsored transaction: a payer signs for the gas. -/
structure SponsoredTx where
  chainID : Option Nat
  nonce : UInt64
  gasTipCap : Option Nat
  gasFeeCap : Option Nat
  gas : UInt64
  toAddress : Option Address
  value : Option Nat
  data : Bytes
  expiredTime : UInt64
  payerV : Option Nat
  payerR : Option Nat
  payerS : Option Nat
  v : Option Nat
  r : Option Nat
  s : Option Nat
  deriving DecidableEq

structure BlobTx where
  chainID : U256
  nonce : UInt64
  gasTipCap : U256
  gasFeeCap : U256
  gas : UInt64
  toAddress : Address
  value : U256
  data : Bytes
  accessList : AccessList
  blobFeeCap : U256
  blobHashes : List Hash
  sidecar : Option BlobTxSidecar
  v : U256
  r : U256
  s : U256
  deriving DecidableEq

structure SetCodeTx where
  chainID : UInt64
  nonce : UInt64
  gasTipCap : U256
  gasFeeCap : U256
  gas : UInt64
  toAddress : Address
  value : U256
  data : Bytes
  accessList : AccessList
  authList : List Authorization
  v : U256
  r : U256
  s : U256
  deriving DecidableEq

/-- `TxData`, the inner data of a `Transaction`. -/
inductive TxData where
  | legacy (tx : LegacyTx)
  | accessList (tx : AccessListTx)
  | dynamicFee (tx : DynamicFeeTx)
  | sponsored (tx : SponsoredTx)
  | blob (tx : BlobTx)
  | setCode (tx : SetCodeTx)
  deriving DecidableEq

/-- The transaction type numbers (`transaction.go`). -/
def legacyTxType : UInt64 := 0
def accessListTxType : UInt64 := 1
def dynamicFeeTxType : UInt64 := 2
def blobTxType : UInt64 := 3
def setCodeTxType : UInt64 := 4
def sponsoredTxType : UInt64 := 100

/-- `Transaction.Type`. -/
def TxData.txType : TxData → UInt64
  | .legacy _ => legacyTxType
  | .accessList _ => accessListTxType
  | .dynamicFee _ => dynamicFeeTxType
  | .sponsored _ => sponsoredTxType
  | .blob _ => blobTxType
  | .setCode _ => setCodeTxType

end Ronin
