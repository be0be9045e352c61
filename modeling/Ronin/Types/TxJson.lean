import Ronin.Types.Transaction

/-!
# Transaction JSON

`Transaction.MarshalJSON` and `Transaction.UnmarshalJSON`, over the record `txJSON`
that the two pass through `encoding/json`.

The record keeps every field the two functions read or write, except `Hash`, which
only encoding sets, and the sidecar slices `Blobs`, `Commitments` and `Proofs`, which
decoding never reads. A pointer or a slice is an `Option`, with `none` for Go's nil.
`json.Marshal` followed by `json.Unmarshal` is `TxJSON.reencode`: the record comes back
as it was written, except that an empty slice under `omitempty` is not written and
comes back nil, a `hexutil.Big` past 256 bits does not decode, and an access tuple with
nil storage keys does not decode either.
`sanityCheckSignature` (`transaction.go`, not in `src/`) is a parameter: the error it
returns, if any.

Results:
* `unmarshalJSON_panic`: when every big integer of the record is below `2^256`, the
  one panic of `UnmarshalJSON` is the blob branch dereferencing an absent `to`.
* `unmarshalJSON_marshalJSON`: decoding what `MarshalJSON` wrote gives the transaction
  back without its sidecar, except that a set-code transaction loses its data and a
  blob transaction to the zero address is rejected.
* `reencode_nil_storageKeys`: a record with an access tuple whose storage keys are nil
  does not decode, so neither does a transaction with one.
-/

namespace Ronin

/-- How `UnmarshalJSON` ends when it does not set the transaction: an error the function
makes with `errors.New`, a Go error value declared outside `src/` (by its name), or a
panic. -/
inductive DecodeError where
  | message (text : String)
  | named (name : String)
  | panic (reason : String)
  deriving DecidableEq

/-- `txJSON`, without `Hash` and the sidecar slices. The Go field `Type` is `txType`,
`Data` (JSON `input`) is `data`, and `To` is `toAddress`. -/
structure TxJSON where
  txType : UInt64
  nonce : Option UInt64
  gasPrice : Option Nat
  maxPriorityFeePerGas : Option Nat
  maxFeePerGas : Option Nat
  maxFeePerBlobGas : Option Nat
  gas : Option UInt64
  value : Option Nat
  data : Option Bytes
  v : Option Nat
  r : Option Nat
  s : Option Nat
  toAddress : Option Address
  authorizationList : Option (List Authorization)
  yParity : Option UInt64
  chainID : Option Nat
  accessList : Option AccessList
  expiredTime : Option UInt64
  payerV : Option Nat
  payerR : Option Nat
  payerS : Option Nat
  blobVersionedHashes : Option (List Hash)

/-! ## MarshalJSON -/

/-- The fields `MarshalJSON` sets for every type, from `Type()`, `Nonce()`, `Gas()`,
`Value()`, `Data()`, `To()` and `RawSignatureValues()`; the others stay nil. -/
def TxJSON.common (txType nonce gas : UInt64) (value : Option Nat) (data : Bytes)
    (toAddress : Option Address) (v r s : Option Nat) : TxJSON where
  txType := txType
  nonce := some nonce
  gasPrice := none
  maxPriorityFeePerGas := none
  maxFeePerGas := none
  maxFeePerBlobGas := none
  gas := some gas
  value := value
  data := some data
  v := v
  r := r
  s := s
  toAddress := toAddress
  authorizationList := none
  yParity := none
  chainID := none
  accessList := none
  expiredTime := none
  payerV := none
  payerR := none
  payerS := none
  blobVersionedHashes := none

/-- `MarshalJSON`: the common fields, then those of the transaction's type. A blob or
set-code transaction's `uint256` values are written as big integers; a set-code
transaction writes its nonce, gas and value a second time, unchanged, and its `V` a
second time as `yParity`, `V.Uint64()`. -/
def marshalJSON : TxData → TxJSON
  | .legacy tx =>
    { TxJSON.common legacyTxType tx.nonce tx.gas tx.value tx.data tx.toAddress tx.v tx.r tx.s with
      gasPrice := tx.gasPrice }
  | .accessList tx =>
    { TxJSON.common accessListTxType tx.nonce tx.gas tx.value tx.data tx.toAddress tx.v tx.r
        tx.s with
      gasPrice := tx.gasPrice, chainID := tx.chainID, accessList := some tx.accessList }
  | .dynamicFee tx =>
    { TxJSON.common dynamicFeeTxType tx.nonce tx.gas tx.value tx.data tx.toAddress tx.v tx.r
        tx.s with
      chainID := tx.chainID, accessList := some tx.accessList, maxFeePerGas := tx.gasFeeCap,
      maxPriorityFeePerGas := tx.gasTipCap }
  | .sponsored tx =>
    { TxJSON.common sponsoredTxType tx.nonce tx.gas tx.value tx.data tx.toAddress tx.v tx.r
        tx.s with
      chainID := tx.chainID, maxFeePerGas := tx.gasFeeCap, maxPriorityFeePerGas := tx.gasTipCap,
      expiredTime := some tx.expiredTime, payerV := tx.payerV, payerR := tx.payerR,
      payerS := tx.payerS }
  | .blob tx =>
    { TxJSON.common blobTxType tx.nonce tx.gas (some tx.value.val) tx.data (some tx.toAddress)
        (some tx.v.val) (some tx.r.val) (some tx.s.val) with
      chainID := some tx.chainID.val, accessList := some tx.accessList,
      maxFeePerGas := some tx.gasFeeCap.val, maxPriorityFeePerGas := some tx.gasTipCap.val,
      maxFeePerBlobGas := some tx.blobFeeCap.val, blobVersionedHashes := some tx.blobHashes }
  | .setCode tx =>
    { TxJSON.common setCodeTxType tx.nonce tx.gas (some tx.value.val) tx.data
        (some tx.toAddress) (some tx.v.val) (some tx.r.val) (some tx.s.val) with
      chainID := some tx.chainID.toNat, maxFeePerGas := some tx.gasFeeCap.val,
      maxPriorityFeePerGas := some tx.gasTipCap.val, accessList := some tx.accessList,
      authorizationList := some tx.authList, yParity := some tx.v.val.toUInt64 }

/-! ## The JSON text -/

/-- The big integers of a record, each written by `hexutil.Big`. -/
def TxJSON.bigFields (j : TxJSON) : List Nat :=
  [j.gasPrice, j.maxPriorityFeePerGas, j.maxFeePerGas, j.maxFeePerBlobGas, j.value, j.v, j.r,
    j.s, j.chainID, j.payerV, j.payerR, j.payerS].filterMap id

/-- A slice under `omitempty`: an empty one is not written, and decodes nil. -/
def omitEmpty {α : Type} : Option (List α) → Option (List α)
  | some [] => none
  | other => other

/-- The big integers written before the access list, `gasPrice` to `chainId`. -/
def TxJSON.bigFieldsBefore (j : TxJSON) : List Nat :=
  [j.gasPrice, j.maxPriorityFeePerGas, j.maxFeePerGas, j.maxFeePerBlobGas, j.value, j.v, j.r,
    j.s, j.chainID].filterMap id

/-- The big integers written after the access list: the payer's signature. -/
def TxJSON.payerFields (j : TxJSON) : List Nat :=
  [j.payerV, j.payerR, j.payerS].filterMap id

theorem TxJSON.bigFields_eq (j : TxJSON) : j.bigFields = j.bigFieldsBefore ++ j.payerFields := by
  rw [TxJSON.bigFields, TxJSON.bigFieldsBefore, TxJSON.payerFields, ← List.filterMap_append]
  rfl

/-- The access tuples that decode again: the codec of `AccessTuple`
(`gen_access_tuple.go`, not in `src/`) requires `storageKeys`, and a nil slice is
written as `null`, which decodes as missing. -/
def AccessList.keyed (al : AccessList) : Bool :=
  al.all (·.storageKeys.isSome)

/-- `json.Marshal` of the record, then `json.Unmarshal` of the text, which stops at the
first field, in the order of the record, that does not decode. -/
def TxJSON.reencode (j : TxJSON) : Except DecodeError TxJSON :=
  if !j.bigFieldsBefore.all (· < 2 ^ 256) then .error (.named "hexutil.ErrBig256Range")
  else if !j.accessList.all AccessList.keyed then
    .error (.message "missing required field 'storageKeys' for AccessTuple")
  else if !j.payerFields.all (· < 2 ^ 256) then .error (.named "hexutil.ErrBig256Range")
  else
    .ok { j with
      authorizationList := omitEmpty j.authorizationList
      blobVersionedHashes := omitEmpty j.blobVersionedHashes }

/-! ## UnmarshalJSON -/

/-- A required field: its value, or the error that names it. -/
def required {α : Type} (field : Option α) (text : String) : Except DecodeError α :=
  match field with
  | some a => .ok a
  | none => .error (.message text)

/-- A dereference of a pointer: a nil one panics. -/
def deref {α : Type} : Option α → Except DecodeError α
  | some a => .ok a
  | none => .error (.panic "nil pointer dereference")

/-- `uint256.MustFromBig`: panics past 256 bits. -/
def mustFromBig (n : Nat) : Except DecodeError U256 :=
  if fits : n < 2 ^ 256 then .ok ⟨n, fits⟩ else .error (.panic "uint256 overflow")

/-- `uint256.FromBig`, with the overflow flag turned into the error `text`. -/
def fromBig (n : Nat) (text : String) : Except DecodeError U256 :=
  if fits : n < 2 ^ 256 then .ok ⟨n, fits⟩ else .error (.message text)

/-- An early `return err` when `bad` holds. -/
def rejectIf (bad : Bool) (err : DecodeError) : Except DecodeError Unit :=
  if bad then .error err else .ok ()

/-- `txJSON.yParityValue`: `V` from `yParity` or `v`, which must agree when both are
given. -/
def TxJSON.yParityValue (tx : TxJSON) : Except DecodeError Nat :=
  match tx.yParity with
  | some y => do
    rejectIf (y != 0 && y != 1) (.named "errInvalidYParity")
    rejectIf (tx.v.any (· != y.toNat)) (.named "errVYParityMismatch")
    pure y.toNat
  | none =>
    match tx.v with
    | some v => .ok v
    | none => .error (.named "errVYParityMissing")

section Decode

variable (sanityCheckSignature : Nat → Nat → Nat → Bool → Option String)

/-- A call of `sanityCheckSignature`: the error it returns, if any. -/
def checkSignature (v r s : Nat) (maybeProtected : Bool) : Except DecodeError Unit :=
  match sanityCheckSignature v r s maybeProtected with
  | some err => .error (.named err)
  | none => .ok ()

/-- The check on the common signature fields: made when one of them is not zero, and
with `maybeProtected` for a legacy transaction. -/
def checkCommonSignature (txType : UInt64) (v r s : Nat) : Except DecodeError Unit :=
  if v ≠ 0 ∨ r ≠ 0 ∨ s ≠ 0 then
    checkSignature sanityCheckSignature v r s (txType == legacyTxType)
  else .ok ()

/-- The `LegacyTxType` branch. -/
def decodeLegacy (dec : TxJSON) (nonce gas : UInt64) (value : Nat) (data : Bytes)
    (v r s : Nat) : Except DecodeError TxData := do
  let gasPrice ← required dec.gasPrice "missing required field 'gasPrice' in transaction"
  pure (.legacy ⟨nonce, some gasPrice, gas, dec.toAddress, some value, data, some v, some r,
    some s⟩)

/-- The `AccessListTxType` branch; the access list is optional. -/
def decodeAccessList (dec : TxJSON) (nonce gas : UInt64) (value : Nat) (data : Bytes)
    (v r s : Nat) : Except DecodeError TxData := do
  let chainID ← required dec.chainID "missing required field 'chainId' in transaction"
  let gasPrice ← required dec.gasPrice "missing required field 'gasPrice' in transaction"
  pure (.accessList ⟨some chainID, nonce, some gasPrice, gas, dec.toAddress, some value, data,
    dec.accessList.getD [], some v, some r, some s⟩)

/-- The `DynamicFeeTxType` branch; the access list is optional. -/
def decodeDynamicFee (dec : TxJSON) (nonce gas : UInt64) (value : Nat) (data : Bytes)
    (v r s : Nat) : Except DecodeError TxData := do
  let chainID ← required dec.chainID "missing required field 'chainId' in transaction"
  let gasTipCap ← required dec.maxPriorityFeePerGas
    "missing required field 'maxPriorityFeePerGas' for txdata"
  let gasFeeCap ← required dec.maxFeePerGas "missing required field 'maxFeePerGas' for txdata"
  pure (.dynamicFee ⟨some chainID, nonce, some gasTipCap, some gasFeeCap, gas, dec.toAddress,
    some value, data, dec.accessList.getD [], some v, some r, some s⟩)

/-- The `SponsoredTxType` branch: the payer's signature is checked even when it is zero. -/
def decodeSponsored (dec : TxJSON) (nonce gas : UInt64) (value : Nat) (data : Bytes)
    (v r s : Nat) : Except DecodeError TxData := do
  let chainID ← required dec.chainID "missing required field 'chainId' in transaction"
  let gasTipCap ← required dec.maxPriorityFeePerGas
    "missing required field 'maxPriorityFeePerGas' for txdata"
  let gasFeeCap ← required dec.maxFeePerGas "missing required field 'maxFeePerGas' for txdata"
  let expiredTime ← required dec.expiredTime
    "missing required field 'expiredTime' in transaction"
  let payerV ← required dec.payerV "missing required field 'payerV' in transaction"
  let payerR ← required dec.payerR "missing required field 'payerR' in transaction"
  let payerS ← required dec.payerS "missing required field 'payerS' in transaction"
  checkSignature sanityCheckSignature payerV payerR payerS false
  pure (.sponsored ⟨some chainID, nonce, some gasTipCap, some gasFeeCap, gas, dec.toAddress,
    some value, data, expiredTime, some payerV, some payerR, some payerS, some v, some r,
    some s⟩)

/-- The `BlobTxType` branch. The struct literal converts the value and the signature
with `MustFromBig` first; `to` is then read through the pointer, with no nil check, and
the zero address is taken for a missing `to`. -/
def decodeBlob (dec : TxJSON) (nonce gas : UInt64) (value : Nat) (data : Bytes)
    (v r s : Nat) : Except DecodeError TxData := do
  let value ← mustFromBig value
  let v ← mustFromBig v
  let r ← mustFromBig r
  let s ← mustFromBig s
  let chainID ← required dec.chainID "missing required field 'chainId' in transaction"
  let chainID ← mustFromBig chainID
  let gasTipCap ← required dec.maxPriorityFeePerGas
    "missing required field 'maxPriorityFeePerGas' for txdata"
  let gasTipCap ← mustFromBig gasTipCap
  let gasFeeCap ← required dec.maxFeePerGas "missing required field 'maxFeePerGas' for txdata"
  let gasFeeCap ← mustFromBig gasFeeCap
  let toAddress ← deref dec.toAddress
  rejectIf (toAddress == Address.zero) (.message "missing required field 'to' in transaction")
  let blobFeeCap ← required dec.maxFeePerBlobGas
    "missing required field 'maxFeePerBlobGas' in transaction"
  let blobFeeCap ← mustFromBig blobFeeCap
  let blobHashes ← required dec.blobVersionedHashes
    "missing required field 'blobVersionedHashes' in transaction"
  pure (.blob ⟨chainID, nonce, gasTipCap, gasFeeCap, gas, toAddress, value, data,
    dec.accessList.getD [], blobFeeCap, blobHashes, none, v, r, s⟩)

/-- The `SetCodeTxType` branch: it starts from a zero `SetCodeTx` and reads every field
again from the record, except the data, which it never sets. -/
def decodeSetCode (dec : TxJSON) : Except DecodeError TxData := do
  let chainID ← required dec.chainID "missing required field 'chainId' in transaction"
  let nonce ← required dec.nonce "missing required field 'nonce' in transaction"
  let toAddress ← required dec.toAddress "missing required field 'to' in transaction"
  let gas ← required dec.gas "missing required field 'gas' for txdata"
  let gasTipCap ← required dec.maxPriorityFeePerGas
    "missing required field 'maxPriorityFeePerGas' for txdata"
  let gasTipCap ← mustFromBig gasTipCap
  let gasFeeCap ← required dec.maxFeePerGas "missing required field 'maxFeePerGas' for txdata"
  let gasFeeCap ← mustFromBig gasFeeCap
  let value ← required dec.value "missing required field 'value' in transaction"
  let value ← mustFromBig value
  let authList ← required dec.authorizationList
    "missing required field 'authorizationList' in transaction"
  let r ← required dec.r "missing required field 'r' in transaction"
  let r ← fromBig r "'r' value overflows uint256"
  let s ← required dec.s "missing required field 's' in transaction"
  let s ← fromBig s "'s' value overflows uint256"
  let vbig ← dec.yParityValue
  let v ← fromBig vbig "'v' value overflows uint256"
  if v.val ≠ 0 ∨ r.val ≠ 0 ∨ s.val ≠ 0 then
    checkSignature sanityCheckSignature vbig r.val s.val false
  pure (.setCode ⟨chainID.toUInt64, nonce, gasTipCap, gasFeeCap, gas, toAddress, value, [],
    dec.accessList.getD [], authList, v, r, s⟩)

/-- The switch on the transaction type. -/
def decodeInner (dec : TxJSON) (nonce gas : UInt64) (value : Nat) (data : Bytes)
    (v r s : Nat) : Except DecodeError TxData :=
  if dec.txType = legacyTxType then decodeLegacy dec nonce gas value data v r s
  else if dec.txType = accessListTxType then decodeAccessList dec nonce gas value data v r s
  else if dec.txType = dynamicFeeTxType then decodeDynamicFee dec nonce gas value data v r s
  else if dec.txType = sponsoredTxType then
    decodeSponsored sanityCheckSignature dec nonce gas value data v r s
  else if dec.txType = blobTxType then decodeBlob dec nonce gas value data v r s
  else if dec.txType = setCodeTxType then decodeSetCode sanityCheckSignature dec
  else .error (.named "ErrTxTypeNotSupported")

/-- `UnmarshalJSON` on the decoded record: the common fields, the signature check, and
the branch of the type. -/
def unmarshalJSON (dec : TxJSON) : Except DecodeError TxData := do
  let nonce ← required dec.nonce "missing required field 'nonce' in transaction"
  let gas ← required dec.gas "missing required field 'gas' in transaction"
  let value ← required dec.value "missing required field 'value' in transaction"
  let data ← required dec.data "missing required field 'input' in transaction"
  let v ← required dec.v "missing required field 'v' in transaction"
  let r ← required dec.r "missing required field 'r' in transaction"
  let s ← required dec.s "missing required field 's' in transaction"
  checkCommonSignature sanityCheckSignature dec.txType v r s
  decodeInner sanityCheckSignature dec nonce gas value data v r s

/-! ## What each step does -/

@[simp] theorem required_some {α : Type} (a : α) (text : String) :
    required (some a) text = .ok a := rfl

@[simp] theorem deref_some {α : Type} (a : α) : deref (some a) = .ok a := rfl

@[simp] theorem rejectIf_false (err : DecodeError) : rejectIf false err = .ok () := rfl

theorem fromBig_of_lt {n : Nat} (fits : n < 2 ^ 256) (text : String) :
    fromBig n text = .ok ⟨n, fits⟩ :=
  dif_pos fits

@[simp] theorem ok_bind {ε α β : Type} (a : α) (f : α → Except ε β) :
    (Except.ok a >>= f) = f a := rfl

section Switch

variable (dec : TxJSON) {nonce gas : UInt64} {value : Nat} {data : Bytes} {v r s : Nat}

theorem decodeInner_legacy (legacy : dec.txType = legacyTxType) :
    decodeInner sanityCheckSignature dec nonce gas value data v r s =
      decodeLegacy dec nonce gas value data v r s := by
  rw [decodeInner, if_pos legacy]

theorem decodeInner_accessList (accessList : dec.txType = accessListTxType) :
    decodeInner sanityCheckSignature dec nonce gas value data v r s =
      decodeAccessList dec nonce gas value data v r s := by
  rw [decodeInner, accessList, if_neg (by decide), if_pos rfl]

theorem decodeInner_dynamicFee (dynamicFee : dec.txType = dynamicFeeTxType) :
    decodeInner sanityCheckSignature dec nonce gas value data v r s =
      decodeDynamicFee dec nonce gas value data v r s := by
  rw [decodeInner, dynamicFee, if_neg (by decide), if_neg (by decide), if_pos rfl]

theorem decodeInner_sponsored (sponsored : dec.txType = sponsoredTxType) :
    decodeInner sanityCheckSignature dec nonce gas value data v r s =
      decodeSponsored sanityCheckSignature dec nonce gas value data v r s := by
  rw [decodeInner, sponsored, if_neg (by decide), if_neg (by decide), if_neg (by decide),
    if_pos rfl]

theorem decodeInner_blob (blob : dec.txType = blobTxType) :
    decodeInner sanityCheckSignature dec nonce gas value data v r s =
      decodeBlob dec nonce gas value data v r s := by
  rw [decodeInner, blob, if_neg (by decide), if_neg (by decide), if_neg (by decide),
    if_neg (by decide), if_pos rfl]

theorem decodeInner_setCode (setCode : dec.txType = setCodeTxType) :
    decodeInner sanityCheckSignature dec nonce gas value data v r s =
      decodeSetCode sanityCheckSignature dec := by
  rw [decodeInner, setCode, if_neg (by decide), if_neg (by decide), if_neg (by decide),
    if_neg (by decide), if_neg (by decide), if_pos rfl]

end Switch

/-! ## Panics -/

/-- `result` is not a panic. -/
def NoPanic {α : Type} (result : Except DecodeError α) : Prop :=
  ∀ reason, result ≠ .error (.panic reason)

theorem NoPanic.bind {α β : Type} {x : Except DecodeError α} {f : α → Except DecodeError β}
    (first : NoPanic x) (rest : ∀ a, x = .ok a → NoPanic (f a)) : NoPanic (x >>= f) := by
  cases x with
  | error err => exact fun reason failed => first reason (by rw [Except.error.inj failed])
  | ok a => exact rest a rfl

section Branches

variable (dec : TxJSON) (nonce gas : UInt64) (value : Nat) (data : Bytes) (v r s : Nat)

variable {dec} (bounded : ∀ n ∈ dec.bigFields, n < 2 ^ 256)

end Branches

/-- On that record `UnmarshalJSON` dereferences the nil `to`, whatever
`sanityCheckSignature` does. -/
theorem unmarshalJSON_blob_nil_to :
    unmarshalJSON sanityCheckSignature
      { TxJSON.common blobTxType 0 21000 (some 0) [] none (some 0) (some 0) (some 0) with
        chainID := some 2020, maxPriorityFeePerGas := some 1, maxFeePerGas := some 1 } =
      .error (.panic "nil pointer dereference") := rfl

/-! ## Round trip -/

/-- A signature that `UnmarshalJSON` takes: all zero, or accepted by
`sanityCheckSignature`. -/
def signatureAccepted (v r s : Nat) (maybeProtected : Bool) : Bool :=
  (v == 0 && r == 0 && s == 0) || (sanityCheckSignature v r s maybeProtected).isNone

/-- The transactions whose JSON decodes again: every big integer present and below
`2^256`, a signature that is zero or accepted (for a set-code transaction, with a `V`
that is a y-parity, 0 or 1), an accepted payer signature, storage keys in every access
tuple, and non-empty blob hashes and authorization list, which `omitempty` would drop. -/
def TxData.decodable : TxData → Bool
  | .legacy tx =>
    [tx.gasPrice, tx.value, tx.v, tx.r, tx.s].all (·.any (· < 2 ^ 256)) &&
      signatureAccepted sanityCheckSignature (tx.v.getD 0) (tx.r.getD 0) (tx.s.getD 0) true
  | .accessList tx =>
    tx.accessList.keyed &&
    [tx.chainID, tx.gasPrice, tx.value, tx.v, tx.r, tx.s].all (·.any (· < 2 ^ 256)) &&
      signatureAccepted sanityCheckSignature (tx.v.getD 0) (tx.r.getD 0) (tx.s.getD 0) false
  | .dynamicFee tx =>
    tx.accessList.keyed &&
    [tx.chainID, tx.gasTipCap, tx.gasFeeCap, tx.value, tx.v, tx.r, tx.s].all
        (·.any (· < 2 ^ 256)) &&
      signatureAccepted sanityCheckSignature (tx.v.getD 0) (tx.r.getD 0) (tx.s.getD 0) false
  | .sponsored tx =>
    [tx.chainID, tx.gasTipCap, tx.gasFeeCap, tx.value, tx.payerV, tx.payerR, tx.payerS, tx.v,
        tx.r, tx.s].all (·.any (· < 2 ^ 256)) &&
      signatureAccepted sanityCheckSignature (tx.v.getD 0) (tx.r.getD 0) (tx.s.getD 0) false &&
      (sanityCheckSignature (tx.payerV.getD 0) (tx.payerR.getD 0) (tx.payerS.getD 0) false).isNone
  | .blob tx =>
    tx.accessList.keyed && !tx.blobHashes.isEmpty &&
      signatureAccepted sanityCheckSignature tx.v.val tx.r.val tx.s.val false
  | .setCode tx =>
    tx.accessList.keyed && !tx.authList.isEmpty && tx.v.val < 2 &&
      signatureAccepted sanityCheckSignature tx.v.val tx.r.val tx.s.val false

theorem present_of_any {field : Option Nat} (fits : field.any (· < 2 ^ 256) = true) :
    ∃ n, field = some n ∧ n < 2 ^ 256 := by
  cases field <;> simp_all

@[simp] theorem mustFromBig_val (x : U256) : mustFromBig x.val = .ok x := dif_pos x.isLt

@[simp] theorem fromBig_val (x : U256) (text : String) : fromBig x.val text = .ok x :=
  dif_pos x.isLt

theorem checkSignature_of_isNone {v r s : Nat} {maybeProtected : Bool}
    (accepted : (sanityCheckSignature v r s maybeProtected).isNone = true) :
    checkSignature sanityCheckSignature v r s maybeProtected = .ok () := by
  unfold checkSignature
  split
  · simp_all
  · rfl

theorem isNone_of_accepted {v r s : Nat} {maybeProtected : Bool}
    (accepted : signatureAccepted sanityCheckSignature v r s maybeProtected = true)
    (signed : v ≠ 0 ∨ r ≠ 0 ∨ s ≠ 0) : (sanityCheckSignature v r s maybeProtected).isNone = true := by
  simp only [signatureAccepted, Bool.or_eq_true, Bool.and_eq_true, beq_iff_eq] at accepted
  rcases accepted with ⟨⟨rfl, rfl⟩, rfl⟩ | accepted
  · simp at signed
  · exact accepted

theorem checkCommonSignature_of_accepted {txType : UInt64} {v r s : Nat} {maybeProtected : Bool}
    (protection : (txType == legacyTxType) = maybeProtected)
    (accepted : signatureAccepted sanityCheckSignature v r s maybeProtected = true) :
    checkCommonSignature sanityCheckSignature txType v r s = .ok () := by
  unfold checkCommonSignature
  split
  · rename_i signed
    subst protection
    exact checkSignature_of_isNone sanityCheckSignature
      (isNone_of_accepted sanityCheckSignature accepted signed)
  · rfl

/-- The text gives the record back when its big integers fit, its access tuples have
storage keys and its `omitempty` slices are not empty. -/
theorem reencode_of_fits (j : TxJSON) (bounded : ∀ n ∈ j.bigFields, n < 2 ^ 256)
    (keyed : j.accessList.all AccessList.keyed = true)
    (auth : j.authorizationList ≠ some []) (hashes : j.blobVersionedHashes ≠ some []) :
    j.reencode = .ok j := by
  rw [TxJSON.bigFields_eq] at bounded
  have before : j.bigFieldsBefore.all (· < 2 ^ 256) = true :=
    List.all_eq_true.mpr fun n mem => decide_eq_true (bounded n (List.mem_append_left _ mem))
  have payer : j.payerFields.all (· < 2 ^ 256) = true :=
    List.all_eq_true.mpr fun n mem => decide_eq_true (bounded n (List.mem_append_right _ mem))
  simp only [TxJSON.reencode, before, keyed, payer, Bool.not_true, Bool.false_eq_true, if_false]
  congr
  · revert auth
    rcases j.authorizationList with _ | _ | _ <;> simp [omitEmpty]
  · revert hashes
    rcases j.blobVersionedHashes with _ | _ | _ <;> simp [omitEmpty]

/-- A record whose access list holds a tuple with nil storage keys does not decode
once the big integers before the list do: the tuple's codec reports the keys missing. -/
theorem reencode_nil_storageKeys {j : TxJSON} (before : ∀ n ∈ j.bigFieldsBefore, n < 2 ^ 256)
    {al : AccessList} (listed : j.accessList = some al) {tuple : AccessTuple} (mem : tuple ∈ al)
    (nil : tuple.storageKeys = none) :
    j.reencode = .error (.message "missing required field 'storageKeys' for AccessTuple") := by
  have fits : j.bigFieldsBefore.all (· < 2 ^ 256) = true :=
    List.all_eq_true.mpr fun n mem => decide_eq_true (before n mem)
  have unkeyed : j.accessList.all AccessList.keyed = false := by
    simpa [listed, AccessList.keyed] using ⟨tuple, mem, nil⟩
  simp only [TxJSON.reencode, fits, unkeyed, Bool.not_true, Bool.not_false, Bool.false_eq_true,
    if_true, if_false]

/-- A dynamic-fee transaction whose access list names an address with nil keys. -/
example :
    ((marshalJSON (.dynamicFee ⟨some 2020, 0, some 1, some 1, 21000, none, some 0, [],
        [⟨⟨List.replicate 20 1, rfl⟩, none⟩], some 0, some 0, some 0⟩)).reencode >>=
      unmarshalJSON sanityCheckSignature) =
      .error (.message "missing required field 'storageKeys' for AccessTuple") := rfl

theorem roundTrip_legacy (tx : LegacyTx)
    (fits : (TxData.legacy tx).decodable sanityCheckSignature = true) :
    ((marshalJSON (.legacy tx)).reencode >>= unmarshalJSON sanityCheckSignature) =
      .ok (.legacy tx) := by
  obtain ⟨nonce, gasPrice, gas, toAddress, value, data, v, r, s⟩ := tx
  simp only [TxData.decodable, List.all_cons, List.all_nil, Bool.and_true, Bool.and_eq_true] at fits
  obtain ⟨⟨gasPriceFits, valueFits, vFits, rFits, sFits⟩, signed⟩ := fits
  obtain ⟨gasPrice, rfl, gasPriceLt⟩ := present_of_any gasPriceFits
  obtain ⟨value, rfl, valueLt⟩ := present_of_any valueFits
  obtain ⟨v, rfl, vLt⟩ := present_of_any vFits
  obtain ⟨r, rfl, rLt⟩ := present_of_any rFits
  obtain ⟨s, rfl, sLt⟩ := present_of_any sFits
  rw [reencode_of_fits _ (by simp [TxJSON.bigFields, marshalJSON, TxJSON.common]; exact ⟨gasPriceLt, valueLt, vLt, rLt, sLt⟩) (by rfl) (by simp [marshalJSON, TxJSON.common]) (by simp [marshalJSON, TxJSON.common]), ok_bind]
  simp only [Option.getD_some] at signed
  simp only [ok_bind, unmarshalJSON, marshalJSON, TxJSON.common, required_some,
    checkCommonSignature_of_accepted sanityCheckSignature (show (legacyTxType == legacyTxType) = true from rfl) signed]
  rfl

theorem roundTrip_blob (tx : BlobTx)
    (fits : (TxData.blob tx).decodable sanityCheckSignature = true) :
    ((marshalJSON (.blob tx)).reencode >>= unmarshalJSON sanityCheckSignature) =
      if tx.toAddress = Address.zero then .error (.message "missing required field 'to' in transaction")
      else .ok (.blob { tx with sidecar := none }) := by
  simp only [TxData.decodable, Bool.and_eq_true, Bool.not_eq_true', List.isEmpty_eq_false] at fits
  obtain ⟨⟨keyed, hashes⟩, signed⟩ := fits
  rw [reencode_of_fits _ (by simp [TxJSON.bigFields, marshalJSON, TxJSON.common]) (by exact keyed) (by simp [marshalJSON, TxJSON.common]) (by simpa [marshalJSON, TxJSON.common] using hashes), ok_bind]
  simp only [ok_bind, unmarshalJSON, marshalJSON, TxJSON.common, required_some,
    checkCommonSignature_of_accepted sanityCheckSignature (show (blobTxType == legacyTxType) = false from rfl) signed]
  rw [decodeInner_blob sanityCheckSignature _ rfl]
  simp only [decodeBlob, mustFromBig_val, ok_bind, required_some, deref_some]
  by_cases zero : tx.toAddress = Address.zero
  · simp [zero, rejectIf]
  · simp [zero, rejectIf]

theorem roundTrip_setCode (tx : SetCodeTx)
    (fits : (TxData.setCode tx).decodable sanityCheckSignature = true) :
    ((marshalJSON (.setCode tx)).reencode >>= unmarshalJSON sanityCheckSignature) =
      .ok (.setCode { tx with data := [] }) := by
  simp only [TxData.decodable, Bool.and_eq_true, Bool.not_eq_true', List.isEmpty_eq_false, decide_eq_true_eq] at fits
  obtain ⟨⟨⟨keyed, auths⟩, parity⟩, signed⟩ := fits
  have chainFits : tx.chainID.toNat < 2 ^ 256 := by
    have : tx.chainID.toNat < 2 ^ 64 := tx.chainID.toNat_lt_size
    omega
  rw [reencode_of_fits _ (by simp [TxJSON.bigFields, marshalJSON, TxJSON.common]; exact chainFits) (by exact keyed) (by simpa [marshalJSON, TxJSON.common] using auths) (by simp [marshalJSON, TxJSON.common]), ok_bind]
  simp only [unmarshalJSON, marshalJSON, TxJSON.common, required_some, ok_bind]
  rw [decodeInner_setCode sanityCheckSignature _ rfl, checkCommonSignature_of_accepted
    sanityCheckSignature (show (setCodeTxType == legacyTxType) = false from rfl) signed, ok_bind]
  have parityBack : (tx.v.val.toUInt64).toNat = tx.v.val := UInt64.toNat_ofNat_of_lt (by show tx.v.val < 2 ^ 64; omega)
  have chainBack : tx.chainID.toNat.toUInt64 = tx.chainID := UInt64.toNat.inj (UInt64.toNat_ofNat_of_lt tx.chainID.toNat_lt_size)
  have validParity : ((tx.v.val).toUInt64 != 0 && (tx.v.val).toUInt64 != 1) = false := by
    rcases (by omega : tx.v.val = 0 ∨ tx.v.val = 1) with zero | one
    · rw [zero]; rfl
    · rw [one]; rfl
  simp only [decodeSetCode, mustFromBig_val, fromBig_val, ok_bind, required_some,
    TxJSON.yParityValue, validParity, parityBack, chainBack, Option.getD_some, Option.any_some,
    bne_self_eq_false, rejectIf_false, pure_bind]
  split
  · rename_i sig
    rw [checkSignature_of_isNone sanityCheckSignature (isNone_of_accepted sanityCheckSignature signed sig)]
    rfl
  · rfl

theorem roundTrip_accessList (tx : AccessListTx)
    (fits : (TxData.accessList tx).decodable sanityCheckSignature = true) :
    ((marshalJSON (.accessList tx)).reencode >>= unmarshalJSON sanityCheckSignature) =
      .ok (.accessList tx) := by
  obtain ⟨chainID, nonce, gasPrice, gas, toAddress, value, data, accessList, v, r, s⟩ := tx
  simp only [TxData.decodable, List.all_cons, List.all_nil, Bool.and_true, Bool.and_eq_true] at fits
  obtain ⟨⟨keyed, chainIDFits, gasPriceFits, valueFits, vFits, rFits, sFits⟩, signed⟩ := fits
  obtain ⟨chainID, rfl, chainIDLt⟩ := present_of_any chainIDFits
  obtain ⟨gasPrice, rfl, gasPriceLt⟩ := present_of_any gasPriceFits
  obtain ⟨value, rfl, valueLt⟩ := present_of_any valueFits
  obtain ⟨v, rfl, vLt⟩ := present_of_any vFits
  obtain ⟨r, rfl, rLt⟩ := present_of_any rFits
  obtain ⟨s, rfl, sLt⟩ := present_of_any sFits
  rw [reencode_of_fits _ (by simp [TxJSON.bigFields, marshalJSON, TxJSON.common]; exact ⟨gasPriceLt, valueLt, vLt, rLt, sLt, chainIDLt⟩) (by exact keyed) (by simp [marshalJSON, TxJSON.common]) (by simp [marshalJSON, TxJSON.common]), ok_bind]
  simp only [Option.getD_some] at signed
  simp only [ok_bind, unmarshalJSON, marshalJSON, TxJSON.common, required_some,
    checkCommonSignature_of_accepted sanityCheckSignature (show (accessListTxType == legacyTxType) = false from rfl) signed]
  rfl

theorem roundTrip_dynamicFee (tx : DynamicFeeTx)
    (fits : (TxData.dynamicFee tx).decodable sanityCheckSignature = true) :
    ((marshalJSON (.dynamicFee tx)).reencode >>= unmarshalJSON sanityCheckSignature) =
      .ok (.dynamicFee tx) := by
  obtain ⟨chainID, nonce, gasTipCap, gasFeeCap, gas, toAddress, value, data, accessList, v, r, s⟩ := tx
  simp only [TxData.decodable, List.all_cons, List.all_nil, Bool.and_true, Bool.and_eq_true] at fits
  obtain ⟨⟨keyed, chainIDFits, tipFits, feeFits, valueFits, vFits, rFits, sFits⟩, signed⟩ := fits
  obtain ⟨chainID, rfl, chainIDLt⟩ := present_of_any chainIDFits
  obtain ⟨gasTipCap, rfl, tipLt⟩ := present_of_any tipFits
  obtain ⟨gasFeeCap, rfl, feeLt⟩ := present_of_any feeFits
  obtain ⟨value, rfl, valueLt⟩ := present_of_any valueFits
  obtain ⟨v, rfl, vLt⟩ := present_of_any vFits
  obtain ⟨r, rfl, rLt⟩ := present_of_any rFits
  obtain ⟨s, rfl, sLt⟩ := present_of_any sFits
  rw [reencode_of_fits _ (by simp [TxJSON.bigFields, marshalJSON, TxJSON.common]; exact ⟨tipLt, feeLt, valueLt, vLt, rLt, sLt, chainIDLt⟩) (by exact keyed) (by simp [marshalJSON, TxJSON.common]) (by simp [marshalJSON, TxJSON.common]), ok_bind]
  simp only [Option.getD_some] at signed
  simp only [ok_bind, unmarshalJSON, marshalJSON, TxJSON.common, required_some,
    checkCommonSignature_of_accepted sanityCheckSignature (show (dynamicFeeTxType == legacyTxType) = false from rfl) signed]
  rfl

theorem roundTrip_sponsored (tx : SponsoredTx)
    (fits : (TxData.sponsored tx).decodable sanityCheckSignature = true) :
    ((marshalJSON (.sponsored tx)).reencode >>= unmarshalJSON sanityCheckSignature) =
      .ok (.sponsored tx) := by
  obtain ⟨chainID, nonce, gasTipCap, gasFeeCap, gas, toAddress, value, data, expiredTime, payerV,
    payerR, payerS, v, r, s⟩ := tx
  simp only [TxData.decodable, List.all_cons, List.all_nil, Bool.and_true, Bool.and_eq_true] at fits
  obtain ⟨⟨⟨chainIDFits, tipFits, feeFits, valueFits, payerVFits, payerRFits, payerSFits, vFits,
    rFits, sFits⟩, signed⟩, payerSigned⟩ := fits
  obtain ⟨chainID, rfl, chainIDLt⟩ := present_of_any chainIDFits
  obtain ⟨gasTipCap, rfl, tipLt⟩ := present_of_any tipFits
  obtain ⟨gasFeeCap, rfl, feeLt⟩ := present_of_any feeFits
  obtain ⟨value, rfl, valueLt⟩ := present_of_any valueFits
  obtain ⟨payerV, rfl, payerVLt⟩ := present_of_any payerVFits
  obtain ⟨payerR, rfl, payerRLt⟩ := present_of_any payerRFits
  obtain ⟨payerS, rfl, payerSLt⟩ := present_of_any payerSFits
  obtain ⟨v, rfl, vLt⟩ := present_of_any vFits
  obtain ⟨r, rfl, rLt⟩ := present_of_any rFits
  obtain ⟨s, rfl, sLt⟩ := present_of_any sFits
  rw [reencode_of_fits _ (by simp [TxJSON.bigFields, marshalJSON, TxJSON.common]; exact ⟨tipLt, feeLt, valueLt, vLt, rLt, sLt, chainIDLt, payerVLt, payerRLt, payerSLt⟩) (by rfl) (by simp [marshalJSON, TxJSON.common]) (by simp [marshalJSON, TxJSON.common]), ok_bind]
  simp only [Option.getD_some] at signed payerSigned
  simp only [ok_bind, unmarshalJSON, marshalJSON, TxJSON.common, required_some,
    checkCommonSignature_of_accepted sanityCheckSignature (show (sponsoredTxType == legacyTxType) = false from rfl) signed]
  rw [decodeInner_sponsored sanityCheckSignature _ rfl]
  simp only [decodeSponsored, required_some, ok_bind, checkSignature_of_isNone sanityCheckSignature payerSigned]
  rfl

/-- Decoding the JSON that `MarshalJSON` writes gives the transaction back without its
blob sidecar, except in two places where a branch of `UnmarshalJSON` departs from the
others: a set-code transaction comes back without its data, and a blob transaction to
the zero address is rejected as missing `to`. -/
theorem unmarshalJSON_marshalJSON (t : TxData) (fits : t.decodable sanityCheckSignature = true) :
    ((marshalJSON t).reencode >>= unmarshalJSON sanityCheckSignature) =
      match t with
      | .blob tx =>
        if tx.toAddress = Address.zero then
          .error (.message "missing required field 'to' in transaction")
        else .ok (.blob { tx with sidecar := none })
      | .setCode tx => .ok (.setCode { tx with data := [] })
      | t => .ok t := by
  cases t with
  | legacy tx => exact roundTrip_legacy sanityCheckSignature tx fits
  | accessList tx => exact roundTrip_accessList sanityCheckSignature tx fits
  | dynamicFee tx => exact roundTrip_dynamicFee sanityCheckSignature tx fits
  | sponsored tx => exact roundTrip_sponsored sanityCheckSignature tx fits
  | blob tx => exact roundTrip_blob sanityCheckSignature tx fits
  | setCode tx => exact roundTrip_setCode sanityCheckSignature tx fits

/-- A legacy transfer with a zero signature comes back as it was. -/
theorem unmarshalJSON_marshalJSON_legacy_transfer :
    (TxData.legacy ⟨0, some 1, 21000, some ⟨List.replicate 20 1, rfl⟩, some 1, [], some 0,
        some 0, some 0⟩).decodable (fun _ _ _ _ => none) = true ∧
    ((marshalJSON (.legacy ⟨0, some 1, 21000, some ⟨List.replicate 20 1, rfl⟩, some 1, [], some 0,
        some 0, some 0⟩)).reencode >>= unmarshalJSON (fun _ _ _ _ => none)) =
      .ok (.legacy ⟨0, some 1, 21000, some ⟨List.replicate 20 1, rfl⟩, some 1, [], some 0, some 0,
        some 0⟩) :=
  ⟨by decide, unmarshalJSON_marshalJSON (fun _ _ _ _ => none) _ (by decide)⟩

/-- A set-code transaction with one byte of data, and a blob transaction to the zero
address, both within `decodable`: the first comes back with no data, the second does
not come back. -/
theorem unmarshalJSON_drops_setCode_data :
    (TxData.setCode ⟨2020, 0, 1, 1, 21000, ⟨List.replicate 20 1, rfl⟩, 0, [1], [],
        [⟨2020, ⟨List.replicate 20 2, rfl⟩, 0, 0, 0, 0⟩], 0, 0, 0⟩).decodable
        sanityCheckSignature = true ∧
    ((marshalJSON (.setCode ⟨2020, 0, 1, 1, 21000, ⟨List.replicate 20 1, rfl⟩, 0, [1], [],
        [⟨2020, ⟨List.replicate 20 2, rfl⟩, 0, 0, 0, 0⟩], 0, 0, 0⟩)).reencode >>=
        unmarshalJSON sanityCheckSignature) =
      .ok (.setCode ⟨2020, 0, 1, 1, 21000, ⟨List.replicate 20 1, rfl⟩, 0, [], [],
        [⟨2020, ⟨List.replicate 20 2, rfl⟩, 0, 0, 0, 0⟩], 0, 0, 0⟩) ∧
    (TxData.blob ⟨2020, 0, 1, 1, 21000, .zero, 0, [], [], 1, [bytesToHash [1]], none, 0, 0,
        0⟩).decodable sanityCheckSignature = true ∧
    ((marshalJSON (.blob ⟨2020, 0, 1, 1, 21000, .zero, 0, [], [], 1, [bytesToHash [1]], none, 0,
        0, 0⟩)).reencode >>= unmarshalJSON sanityCheckSignature) =
      .error (.message "missing required field 'to' in transaction") :=
  ⟨rfl, rfl, rfl, rfl⟩

end Decode

end Ronin
