import Ronin.Core.Authorization

/-!
# The consensus checks of `preCheck`

Before it buys gas, `preCheck` checks a message against the state and the block. A
message that is not fake must carry the sender's nonce, which must still be raisable,
and the sender must be an externally owned account: its code hash is that of empty
code, or the zero hash of an account that does not exist. After London the fee caps
must fit 256 bits, the fee cap must cover the tip cap and the base fee (skipped for
`eth_call` with `NoBaseFee` and both caps zero). A sponsored message must not be
expired and, before Venoki, has equal caps. Blob hashes need a recipient, at least one
hash and version 1 hashes; after Cancun the blob fee cap must cover the blob base fee.
An authorization list needs a recipient and at least one authorization.

The checks are modelled in the order of the source, one helper per block of it, and
`preCheck` is their sequence; `buyGas`, which the source calls last, is the first
step of `transitionDb`. `kzg4844.IsValidVersionedHash` (outside `src/`) follows
go-ethereum; Keccak-256 is a parameter.

Results:
* `preCheck_ok`: `preCheck` accepts exactly when each of its blocks does.
* `preCheck_replay`: a call that `preCheck` accepted is refused as `ErrNonceTooLow`
  when it is checked again on any state its execution leads to, whatever its
  authorizations and its EVM run do, as long as the EVM never lowers a nonce.
-/

namespace Ronin.Core

/-- The `Message` fields `preCheck` reads beyond those `transitionDb` reads. -/
structure TxMessage extends Message where
  isFake : Bool
  nonce : UInt64
  expiredTime : UInt64

/-- The block context and EVM configuration `preCheck` reads beyond `Env`. -/
structure BlockEnv extends Env where
  noBaseFee : Bool
  time : UInt64
  isCancun : Bool

/-- The errors `preCheck` returns before it buys gas, each with what its message
prints. -/
inductive PreCheckError where
  | nonceTooHigh (sender : Address) (msgNonce stNonce : UInt64)
  | nonceTooLow (sender : Address) (msgNonce stNonce : UInt64)
  | nonceMax (sender : Address) (stNonce : UInt64)
  | senderNoEOA (sender : Address) (codeHash : Hash)
  | feeCapVeryHigh (sender : Address) (bitLen : Nat)
  | tipVeryHigh (sender : Address) (bitLen : Nat)
  | tipAboveFeeCap (sender : Address) (tipCap feeCap : Int)
  | feeCapTooLow (sender : Address) (feeCap baseFee : Int)
  | expiredSponsoredTx (expiredTime time : UInt64)
  | differentFeeCapTipCap
  | blobTxCreate
  | missingBlobHashes
  | invalidBlobHashVersion (index : Nat)
  | blobFeeCapTooLow (sender : Address) (blobFeeCap blobBaseFee : Int)
  | setCodeTxCreate (sender : Address)
  | emptyAuthList (sender : Address)
  deriving DecidableEq

/-- `common.Hash{}`. -/
def Hash.zero : Hash := ⟨List.replicate 32 0, rfl⟩

/-- `StateDB.GetCodeHash` (`core/state`, not in `src/`): the hash of an existing
account's code, the zero hash for an account that does not exist. -/
def Accounts.codeHash (keccak : Bytes → Hash) (acc : Accounts) (a : Address) : Hash :=
  if acc.exist a then keccak (acc.code a) else Hash.zero

/-- `big.Int.BitLen`: the bit length of the absolute value. -/
def bitLen (x : Int) : Nat := if x = 0 then 0 else x.natAbs.log2 + 1

theorem bitLen_pos_iff (x : Int) : 0 < bitLen x ↔ x ≠ 0 := by
  unfold bitLen
  split_ifs with zero <;> simp [zero]

/-- `kzg4844.IsValidVersionedHash` (`crypto/kzg4844`, not in `src/`): the first byte is
the version `0x01`. -/
def isValidVersionedHash (h : Hash) : Bool := h.bytes.head? == some 0x01

variable (keccak : Bytes → Hash) (p : GasParams) (env : BlockEnv) (msg : TxMessage)
  (acc : Accounts)

/-! ## The blocks of `preCheck` -/

/-- The nonce and sender checks, for a message that is not fake. -/
def checkSender : Except PreCheckError Unit :=
  if msg.isFake then .ok ()
  else
    let stNonce := acc.nonce msg.sender
    if stNonce < msg.nonce then .error (.nonceTooHigh msg.sender msg.nonce stNonce)
    else if stNonce > msg.nonce then .error (.nonceTooLow msg.sender msg.nonce stNonce)
    else if stNonce + 1 < stNonce then .error (.nonceMax msg.sender stNonce)
    else
      let codeHash := acc.codeHash keccak msg.sender
      if codeHash ≠ keccak [] ∧ codeHash ≠ Hash.zero then .error (.senderNoEOA msg.sender codeHash)
      else .ok ()

/-- The fee cap checks after London, skipped for a system transaction and for
`NoBaseFee` with both caps zero. -/
def checkFees : Except PreCheckError Unit :=
  if !env.isSystemTransaction && env.isLondon then
    if !env.noBaseFee || bitLen msg.gasFeeCap > 0 || bitLen msg.gasTipCap > 0 then
      if bitLen msg.gasFeeCap > 256 then .error (.feeCapVeryHigh msg.sender (bitLen msg.gasFeeCap))
      else if bitLen msg.gasTipCap > 256 then .error (.tipVeryHigh msg.sender (bitLen msg.gasTipCap))
      else if msg.gasFeeCap < msg.gasTipCap then
        .error (.tipAboveFeeCap msg.sender msg.gasTipCap msg.gasFeeCap)
      else if msg.gasFeeCap < env.baseFee then
        .error (.feeCapTooLow msg.sender msg.gasFeeCap env.baseFee)
      else .ok ()
    else .ok ()
  else .ok ()

/-- The checks of a sponsored message: expiry, and equal caps before Venoki. -/
def checkSponsored : Except PreCheckError Unit :=
  if msg.payer ≠ msg.sender then
    if msg.expiredTime ≠ 0 ∧ msg.expiredTime ≤ env.time then
      .error (.expiredSponsoredTx msg.expiredTime env.time)
    else if !env.isVenoki ∧ msg.gasTipCap ≠ msg.gasFeeCap then .error .differentFeeCapTipCap
    else .ok ()
  else .ok ()

/-- The loop over the blob hashes: the index of the first one of another version. -/
def checkVersions : List Hash → Nat → Except PreCheckError Unit
  | [], _ => .ok ()
  | hash :: rest, i =>
    if isValidVersionedHash hash then checkVersions rest (i + 1) else .error (.invalidBlobHashVersion i)

/-- The blob hash checks of a message that has blob hashes. -/
def checkBlobHashes : Except PreCheckError Unit :=
  match msg.blobHashes with
  | some hashes =>
    if msg.toAddress.isNone then .error .blobTxCreate
    else if hashes.length = 0 then .error .missingBlobHashes
    else checkVersions hashes 0
  | none => .ok ()

/-- The blob fee cap check after Cancun, skipped for `NoBaseFee` with a zero cap. -/
def checkBlobFee : Except PreCheckError Unit :=
  if env.isCancun ∧ blobGasUsed p msg.toMessage > 0 then
    let skipCheck := env.noBaseFee && bitLen msg.blobGasFeeCap == 0
    if !skipCheck ∧ msg.blobGasFeeCap < env.blobBaseFee then
      .error (.blobFeeCapTooLow msg.sender msg.blobGasFeeCap env.blobBaseFee)
    else .ok ()
  else .ok ()

/-- The checks of a message that has an authorization list. -/
def checkAuthList : Except PreCheckError Unit :=
  match msg.authList with
  | some auths =>
    if msg.toAddress.isNone then .error (.setCodeTxCreate msg.sender)
    else if auths.length = 0 then .error (.emptyAuthList msg.sender)
    else .ok ()
  | none => .ok ()

/-- `preCheck`, up to the `buyGas` it ends with. -/
def preCheck : Except PreCheckError Unit := do
  checkSender keccak msg acc
  checkFees env msg
  checkSponsored env msg
  checkBlobHashes msg
  checkBlobFee p env msg
  checkAuthList msg

theorem preCheck_ok :
    preCheck keccak p env msg acc = .ok () ↔
      checkSender keccak msg acc = .ok () ∧ checkFees env msg = .ok () ∧
        checkSponsored env msg = .ok () ∧ checkBlobHashes msg = .ok () ∧
        checkBlobFee p env msg = .ok () ∧ checkAuthList msg = .ok () := by
  simp only [preCheck, bind_eq_ok]
  constructor
  · rintro ⟨⟨⟩, sender, ⟨⟩, fees, ⟨⟩, sponsored, ⟨⟩, hashes, ⟨⟩, blobFee, auths⟩
    exact ⟨sender, fees, sponsored, hashes, blobFee, auths⟩
  · rintro ⟨sender, fees, sponsored, hashes, blobFee, auths⟩
    exact ⟨(), sender, (), fees, (), sponsored, (), hashes, (), blobFee, auths⟩

/-! ## The sender -/

variable {keccak p env msg acc}

/-- A message that is not fake and passes the sender checks carries the sender's nonce,
which can still be raised. -/
theorem checkSender_nonce (real : msg.isFake = false) (ok : checkSender keccak msg acc = .ok ()) :
    acc.nonce msg.sender = msg.nonce ∧ (acc.nonce msg.sender).toNat + 1 < 2 ^ 64 := by
  unfold checkSender at ok
  simp only [real, Bool.false_eq_true, ↓reduceIte] at ok
  split_ifs at ok with high low wrap
  refine ⟨UInt64.toNat.inj (by
    have : ¬ (acc.nonce msg.sender).toNat < msg.nonce.toNat := high
    have : ¬ msg.nonce.toNat < (acc.nonce msg.sender).toNat := low
    omega), ?_⟩
  have := toNat_succ_of_not_lt wrap
  have size : (acc.nonce msg.sender + 1).toNat < 2 ^ 64 := (acc.nonce msg.sender + 1).toNat_lt_size
  omega

/-- A message that is not fake, from an account whose nonce has passed its own, is
refused as too low before anything else is checked. -/
theorem preCheck_nonceTooLow (real : msg.isFake = false)
    (passed : msg.nonce.toNat < (acc.nonce msg.sender).toNat) :
    preCheck keccak p env msg acc = .error (.nonceTooLow msg.sender msg.nonce (acc.nonce msg.sender)) := by
  have high : ¬ acc.nonce msg.sender < msg.nonce := fun lt => by
    have : (acc.nonce msg.sender).toNat < msg.nonce.toNat := lt
    omega
  simp [preCheck, checkSender, real, high, show msg.nonce < acc.nonce msg.sender from passed, bind,
    Except.bind]

/-- Checked again on any state its execution leads to, a call that `preCheck`
accepted is refused as too low: `prepareCall` raises the sender's nonce, the
authorizations never lower one, and neither does the EVM. -/
theorem preCheck_replay (ctx : AuthContext) (toAddress : Address) (evm : Accounts → Accounts)
    (real : msg.isFake = false)
    (monotone : ∀ acc', ((acc'.nonce msg.sender).toNat ≤ ((evm acc').nonce msg.sender).toNat))
    (accepted : preCheck keccak p env msg acc = .ok ()) :
    preCheck keccak p env msg (evm (prepareCall p ctx msg.toMessage toAddress acc)) =
      .error (.nonceTooLow msg.sender msg.nonce
        ((evm (prepareCall p ctx msg.toMessage toAddress acc)).nonce msg.sender)) := by
  obtain ⟨nonce, noWrap⟩ := checkSender_nonce real ((preCheck_ok keccak p env msg acc).mp accepted).1
  have raised := @prepareCall_sender_nonce p ctx msg.toMessage toAddress acc noWrap
  have ran := monotone (prepareCall p ctx msg.toMessage toAddress acc)
  apply preCheck_nonceTooLow real
  rw [← nonce]
  exact lt_of_lt_of_le (Nat.lt_succ_self _) (raised.trans ran)

/-- A first transfer before London, accepted on a fresh state, is refused as too low
once the call ran, with an EVM that changes no account. -/
theorem preCheck_replay_transfer :
    let sender : Address := ⟨List.replicate 20 1, rfl⟩
    let recipient : Address := ⟨List.replicate 20 2, rfl⟩
    let msg : TxMessage :=
      { sender := sender, toAddress := some recipient, gasPrice := 1, gasFeeCap := 1, gasTipCap := 1,
        gas := 21000, value := 0, data := [], accessList := none, payer := sender,
        blobGasFeeCap := 0, blobHashes := none, authList := none, isFake := false, nonce := 0,
        expiredTime := 0 }
    let env : BlockEnv :=
      { isSystemTransaction := false, isHomestead := true, isIstanbul := true, isShanghai := true,
        isLondon := false, isVenoki := false, isConsortiumV2 := true, baseFee := 0,
        blobBaseFee := 0, coinbase := recipient, systemAddress := recipient, treasury := none,
        noBaseFee := false, time := 0, isCancun := false }
    let keccak : Bytes → Hash := fun _ => Hash.zero
    let ctx : AuthContext := ⟨2020, fun _ => none, 12500⟩
    let fresh : Accounts := ⟨fun _ => 0, fun _ => [], fun _ => false, 0, []⟩
    preCheck keccak protocolParams env msg fresh = .ok () ∧
      preCheck keccak protocolParams env msg (id (prepareCall protocolParams ctx msg.toMessage recipient fresh)) =
        .error (.nonceTooLow msg.sender msg.nonce
          ((id (prepareCall protocolParams ctx msg.toMessage recipient fresh)).nonce msg.sender)) := by
  intro sender recipient msg env keccak ctx fresh
  have accepted : preCheck keccak protocolParams env msg fresh = .ok () := rfl
  exact ⟨accepted, preCheck_replay ctx recipient id rfl (fun _ => le_refl _) accepted⟩

end Ronin.Core
