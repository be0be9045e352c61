import Ronin.Core.IntrinsicGas
import Mathlib.Tactic.Ring

/-!
# Gas accounting of a state transition

`TransitionDb` buys the message's gas limit from the payer and from the block's gas
pool (`buyGas`), charges the intrinsic gas, lets the EVM run, then refunds the
leftover gas and part of the used gas to the payer and the pool (`refundGas`).

The model keeps what the gas accounting reads and writes: the `StateTransition`
fields `gas` and `initialGas`, the gas pool, the balances `buyGas` checks, the
refund counter, and the balance calls, each with the place that makes it. The EVM
is its outcome for the gas it is given: the gas left and the refund counter after
it ran. `preCheck`'s other consensus checks (nonce, sender code, fee caps, expiry,
blob hashes, authorization list) read state the model does not carry and change
nothing; they enter as their verdict. `applyMessage` (module `ApplyMessage`) runs
them, the account steps before a call and an EVM over the whole state database
together, and is shown to be a run of `transitionDb`.

Results:
* `buyGas_ok`, `refundGas_ok`: what each step does when it succeeds.
* `transitionDb_gas`: for a message that is not a system transaction and an EVM that
  returns at most the gas it was given, a successful `TransitionDb` refunds
  `min((g - l) / q, R)`, uses `g - l - refund` without a uint64 wrap, takes exactly
  that from the gas pool, and debits the payer `UsedGas * gasPrice + blobFee`.
-/

namespace Ronin.Core

/-- The `Message` fields `TransitionDb` reads. `GasFeeCap()` is never nil for a
message built from a transaction, so the model has no nil case for it, and leaves out
what `buyGas` and the fee payment do with a nil one. -/
structure Message where
  sender : Address
  toAddress : Option Address
  gasPrice : Int
  gasFeeCap : Int
  gasTipCap : Int
  gas : UInt64
  value : Int
  data : Bytes
  accessList : Option AccessList
  payer : Address
  blobGasFeeCap : Int
  blobHashes : Option (List Hash)
  authList : Option (List Authorization)

/-- The chain rules and block context `TransitionDb` reads. -/
structure Env where
  isSystemTransaction : Bool
  isHomestead : Bool
  isIstanbul : Bool
  isShanghai : Bool
  isLondon : Bool
  isVenoki : Bool
  isConsortiumV2 : Bool
  baseFee : Int
  blobBaseFee : Int
  coinbase : Address
  systemAddress : Address
  treasury : Option Address

/-- What the EVM's `Call` or `Create` leaves: the gas not spent, and the state's
refund counter after execution. -/
structure EvmOutcome where
  leftover : UInt64
  refund : UInt64

/-- The place a balance call is made. -/
inductive Site where
  | buyGasTreasury
  | buyGas
  | refundGas
  | tip
  | treasuryFee
  deriving DecidableEq

/-- One `AddBalance` (positive `delta`) or `SubBalance` (negative `delta`). -/
structure BalanceCall where
  site : Site
  addr : Address
  delta : Int

/-- A failed transition: a returned error, or a panic. -/
inductive Failure where
  | error (e : TxError)
  | panic (message : String)

/-- The state transition and the state it touches. -/
structure St where
  gas : UInt64
  initialGas : UInt64
  gp : UInt64
  balance : Address → Int
  refund : UInt64
  calls : List BalanceCall

/-- `NewStateTransition`: no gas bought yet. -/
def newSt (gp : UInt64) (balance : Address → Int) (refund : UInt64) : St :=
  ⟨0, 0, gp, balance, refund, []⟩

/-- A balance call, applied and logged. -/
def St.call (st : St) (site : Site) (addr : Address) (delta : Int) : St :=
  { st with
    balance := Function.update st.balance addr (st.balance addr + delta)
    calls := st.calls ++ [⟨site, addr, delta⟩] }

@[simp] theorem St.call_gas (st : St) (site : Site) (addr : Address) (delta : Int) :
    (st.call site addr delta).gas = st.gas := rfl
@[simp] theorem St.call_initialGas (st : St) (site : Site) (addr : Address) (delta : Int) :
    (st.call site addr delta).initialGas = st.initialGas := rfl
@[simp] theorem St.call_gp (st : St) (site : Site) (addr : Address) (delta : Int) :
    (st.call site addr delta).gp = st.gp := rfl
@[simp] theorem St.call_refund (st : St) (site : Site) (addr : Address) (delta : Int) :
    (st.call site addr delta).refund = st.refund := rfl
@[simp] theorem St.call_calls (st : St) (site : Site) (addr : Address) (delta : Int) :
    (st.call site addr delta).calls = st.calls ++ [⟨site, addr, delta⟩] := rfl

/-! ## The gas pool (`core/gaspool.go`, not in `src/`) -/

/-- `GasPool.SubGas` (not in `src/`): `ErrGasLimitReached` when the pool is short. -/
def subGas (gp amount : UInt64) : Except Failure UInt64 :=
  if gp < amount then .error (.error .gasLimitReached) else .ok (gp - amount)

/-- `GasPool.AddGas` (not in `src/`): panics past `MaxUint64`. -/
def addGas (gp amount : UInt64) : Except Failure UInt64 :=
  if gp > maxUint64 - amount then .error (.panic "gas pool pushed above uint64")
  else .ok (gp + amount)

/-! ## The steps -/

/-- `blobGasUsed`: `len(BlobHashes) * BlobTxBlobGasPerBlob`, in uint64. -/
def blobGasUsed (p : GasParams) (msg : Message) : UInt64 :=
  ((msg.blobHashes.getD []).length * p.blobTxBlobGasPerBlob).toUInt64

/-- Whether `buyGas` charges a blob fee: a blob transaction whose sender pays. -/
def paysBlobFee (p : GasParams) (msg : Message) : Bool :=
  msg.payer == msg.sender && msg.blobHashes.isSome && 0 < blobGasUsed p msg

/-- `blobFee` of `buyGas`: `blobGasUsed * BlobBaseFee` when it is charged, nil (0)
otherwise. -/
def blobFee (p : GasParams) (env : Env) (msg : Message) : Int :=
  if paysBlobFee p msg then (blobGasUsed p msg).toNat * env.blobBaseFee else 0

/-- The balance checks of `buyGas`: a sponsored transaction checks the payer for the
gas and the sender for the value; otherwise the sender covers gas, blob gas and value.
The gas is priced at the fee cap, which the model always has (see `Message`): the
source's fallback to `gasPrice` for a nil `gasFeeCap` is not modelled. -/
def checkFunds (p : GasParams) (msg : Message) (st : St) : Except Failure Unit :=
  let balanceCheck : Int := msg.gas.toNat * msg.gasFeeCap
  if msg.payer ≠ msg.sender then
    if st.balance msg.payer < balanceCheck then .error (.error .insufficientPayerFunds)
    else if st.balance msg.sender < msg.value then .error (.error .insufficientSenderFunds)
    else .ok ()
  else
    let blobCheck : Int :=
      if paysBlobFee p msg then (blobGasUsed p msg).toNat * msg.blobGasFeeCap else 0
    if st.balance msg.sender < balanceCheck + blobCheck + msg.value then
      .error (.error .insufficientFunds)
    else .ok ()

/-- The treasury step of `buyGas`: a positive blob fee goes to the Ronin treasury,
when one is set. -/
def payTreasury (env : Env) (fee : Int) (st : St) : St :=
  match env.treasury with
  | some treasury => if fee > 0 then st.call .buyGasTreasury treasury fee else st
  | none => st

/-- `buyGas`. -/
def buyGas (p : GasParams) (env : Env) (msg : Message) (st : St) : Except Failure St := do
  checkFunds p msg st
  let gp ← subGas st.gp msg.gas
  let st := { st with gp, gas := st.gas + msg.gas, initialGas := msg.gas }
  let st := payTreasury env (blobFee p env msg) st
  let effectiveGasFee : Int := msg.gas.toNat * msg.gasPrice + blobFee p env msg
  pure (st.call .buyGas msg.payer (-effectiveGasFee))

/-- `gasUsed`. -/
def gasUsed (st : St) : UInt64 := st.initialGas - st.gas

/-- `refundGas`: refund at most `gasUsed / refundQuotient` from the refund counter,
pay the leftover gas back to the payer and return it to the pool. -/
def refundGas (msg : Message) (refundQuotient : UInt64) (st : St) : Except Failure (St × UInt64) := do
  let refund := min (gasUsed st / refundQuotient) st.refund
  let st := { st with gas := st.gas + refund }
  let remaining : Int := st.gas.toNat * msg.gasPrice
  let st := st.call .refundGas msg.payer remaining
  let gp ← addGas st.gp st.gas
  pure ({ st with gp }, refund)

/-- `big.NewInt(int64(x))`. -/
def int64Of (x : UInt64) : Int := if x.toNat < 2 ^ 63 then x.toNat else x.toNat - 2 ^ 64

/-- `ExecutionResult`, without the return data and the EVM error. -/
structure ExecutionResult where
  usedGas : UInt64
  refundedGas : UInt64

/-- The intrinsic gas step of `TransitionDb`. -/
def chargeIntrinsic (p : GasParams) (env : Env) (msg : Message) (st : St) : Except Failure St := do
  let gas ← (intrinsicGas p msg.data msg.accessList msg.authList msg.toAddress.isNone
    env.isHomestead env.isIstanbul env.isShanghai).mapError .error
  if st.gas < gas then throw (.error .intrinsicGas)
  pure { st with gas := st.gas - gas }

/-- The payments after a non-system execution: the tip to the coinbase (the system
address from ConsortiumV2), and after Venoki the base fee to the treasury. -/
def payFees (env : Env) (msg : Message) (st : St) : St :=
  let effectiveTip := if env.isLondon then min msg.gasTipCap (msg.gasFeeCap - env.baseFee)
    else msg.gasPrice
  let tipTo := if env.isConsortiumV2 then env.systemAddress else env.coinbase
  let st := st.call .tip tipTo ((gasUsed st).toNat * effectiveTip)
  match env.isVenoki, env.treasury with
  | true, some treasury => st.call .treasuryFee treasury (int64Of (gasUsed st) * env.baseFee)
  | _, _ => st

/-- The checks of `TransitionDb` between the intrinsic gas and the execution: the
value transfer (`CanTransfer`, `core/evm.go`: the balance covers the value) and the
init code size. -/
def checkTransfer (p : GasParams) (env : Env) (msg : Message) (st : St) : Except Failure Unit :=
  if msg.value > 0 ∧ st.balance msg.sender < msg.value then
    .error (.error .insufficientFundsForTransfer)
  else if env.isShanghai ∧ msg.toAddress.isNone ∧ p.maxInitCodeSize < msg.data.length then
    .error (.error .maxInitCodeSizeExceeded)
  else .ok ()

/-- `Call` or `Create` on the gas left: the state keeps the gas and the refund counter
the EVM leaves. The EVM's balance changes, its value transfer from the sender to the
recipient among them, are not modelled here: the balance calls of `St` are those of
the gas accounting. -/
def execute (evm : UInt64 → EvmOutcome) (st : St) : St :=
  { st with gas := (evm st.gas).leftover, refund := (evm st.gas).refund }

@[simp] theorem execute_gas (evm : UInt64 → EvmOutcome) (st : St) :
    (execute evm st).gas = (evm st.gas).leftover := rfl
@[simp] theorem execute_initialGas (evm : UInt64 → EvmOutcome) (st : St) :
    (execute evm st).initialGas = st.initialGas := rfl
@[simp] theorem execute_gp (evm : UInt64 → EvmOutcome) (st : St) :
    (execute evm st).gp = st.gp := rfl
@[simp] theorem execute_refund (evm : UInt64 → EvmOutcome) (st : St) :
    (execute evm st).refund = (evm st.gas).refund := rfl
@[simp] theorem execute_calls (evm : UInt64 → EvmOutcome) (st : St) :
    (execute evm st).calls = st.calls := rfl

/-- The end of `TransitionDb` for a message that is not a system transaction:
refund, then pay the fees out. -/
def settle (p : GasParams) (env : Env) (msg : Message) (st : St) :
    Except Failure (ExecutionResult × St) := do
  let refunded ← refundGas msg
    (if env.isLondon then p.refundQuotientEIP3529 else p.refundQuotient) st
  let st := payFees env msg refunded.1
  pure (⟨gasUsed st, refunded.2⟩, st)

/-- `TransitionDb`, after `preCheck`'s other checks gave `checks`. -/
def transitionDb (p : GasParams) (env : Env) (msg : Message) (checks : Except TxError Unit)
    (evm : UInt64 → EvmOutcome) (st : St) : Except Failure (ExecutionResult × St) := do
  checks.mapError .error
  let st ← buyGas p env msg st
  let st ← if env.isSystemTransaction then pure st else chargeIntrinsic p env msg st
  checkTransfer p env msg st
  let st := execute evm st
  if env.isSystemTransaction then pure (⟨gasUsed st, 0⟩, st) else settle p env msg st

/-! ## What each step does -/

theorem bind_eq_ok {ε α β : Type} {x : Except ε α} {f : α → Except ε β} {b : β} :
    x >>= f = .ok b ↔ ∃ a, x = .ok a ∧ f a = .ok b := by
  cases x <;> simp [bind, Except.bind]

/-- What `buyGas`'s `SubBalance` and `refundGas`'s `AddBalance` charge `payer`. -/
def gasCharge (payer : Address) : List BalanceCall → Int
  | [] => 0
  | c :: calls =>
    (if (c.site = .buyGas ∨ c.site = .refundGas) ∧ c.addr = payer then -c.delta else 0) +
      gasCharge payer calls

@[simp] theorem gasCharge_nil (payer : Address) : gasCharge payer [] = 0 := rfl

@[simp] theorem gasCharge_append (payer : Address) (calls more : List BalanceCall) :
    gasCharge payer (calls ++ more) = gasCharge payer calls + gasCharge payer more := by
  induction calls with
  | nil => simp
  | cons c calls ih => rw [List.cons_append, gasCharge, gasCharge, ih]; omega

@[simp] theorem gasCharge_singleton (payer : Address) (c : BalanceCall) :
    gasCharge payer [c] =
      if (c.site = .buyGas ∨ c.site = .refundGas) ∧ c.addr = payer then -c.delta else 0 := by
  simp [gasCharge]

/-- `st'` agrees with `st` on the gas fields and charges no payer for gas: the
steps that only pay fees out. -/
structure SameGas (st st' : St) : Prop where
  gas : st'.gas = st.gas
  initialGas : st'.initialGas = st.initialGas
  gp : st'.gp = st.gp
  refund : st'.refund = st.refund
  charge : ∀ payer, gasCharge payer st'.calls = gasCharge payer st.calls

theorem SameGas.refl (st : St) : SameGas st st := ⟨rfl, rfl, rfl, rfl, fun _ => rfl⟩

theorem SameGas.trans {st st' st'' : St} (first : SameGas st st') (second : SameGas st' st'') :
    SameGas st st'' :=
  ⟨second.gas.trans first.gas, second.initialGas.trans first.initialGas, second.gp.trans first.gp,
    second.refund.trans first.refund, fun payer => (second.charge payer).trans (first.charge payer)⟩

/-- A balance call outside `buyGas`'s and `refundGas`'s charges. -/
theorem sameGas_call (st : St) {site : Site} (other : site ≠ .buyGas ∧ site ≠ .refundGas)
    (addr : Address) (delta : Int) : SameGas st (st.call site addr delta) :=
  ⟨rfl, rfl, rfl, rfl, fun payer => by simp [other]⟩

theorem sameGas_payTreasury (env : Env) (fee : Int) (st : St) :
    SameGas st (payTreasury env fee st) := by
  unfold payTreasury
  split
  · split
    · exact sameGas_call st (by decide) _ _
    · exact .refl st
  · exact .refl st

theorem sameGas_payFees (env : Env) (msg : Message) (st : St) : SameGas st (payFees env msg st) := by
  dsimp only [payFees]
  split
  · exact (sameGas_call st (by decide) _ _).trans (sameGas_call _ (by decide) _ _)
  · exact sameGas_call st (by decide) _ _

theorem gasUsed_payFees (env : Env) (msg : Message) (st : St) :
    gasUsed (payFees env msg st) = gasUsed st := by
  rw [gasUsed, (sameGas_payFees env msg st).gas, (sameGas_payFees env msg st).initialGas, gasUsed]

theorem toNat_gasUsed {st : St} (within : st.gas.toNat ≤ st.initialGas.toNat) :
    (gasUsed st).toNat = st.initialGas.toNat - st.gas.toNat :=
  UInt64.toNat_sub_of_le _ _ within

theorem subGas_ok {gp amount gp' : UInt64} (ok : subGas gp amount = .ok gp') :
    amount ≤ gp ∧ gp' = gp - amount := by
  unfold subGas at ok
  split at ok
  · cases ok
  · cases ok; exact ⟨by rename_i h; exact UInt64.not_lt.mp h, rfl⟩

/-- A successful `buyGas` takes the gas limit from the pool, sets `gas` and
`initialGas` to it, and charges the payer the gas at `gasPrice` plus the blob fee. -/
theorem buyGas_ok {p : GasParams} {env : Env} {msg : Message} {st st' : St}
    (ok : buyGas p env msg st = .ok st') :
    msg.gas ≤ st.gp ∧ st'.gp = st.gp - msg.gas ∧ st'.gas = st.gas + msg.gas ∧
      st'.initialGas = msg.gas ∧ st'.refund = st.refund ∧
      gasCharge msg.payer st'.calls =
        gasCharge msg.payer st.calls + (msg.gas.toNat * msg.gasPrice + blobFee p env msg) := by
  simp only [buyGas, bind_eq_ok] at ok
  obtain ⟨-, -, gp', sub, done⟩ := ok
  obtain ⟨enough, rfl⟩ := subGas_ok sub
  cases done
  have treasury := sameGas_payTreasury env (blobFee p env msg)
    { st with gp := st.gp - msg.gas, gas := st.gas + msg.gas, initialGas := msg.gas }
  simp only [St.call_gp, St.call_gas, St.call_initialGas, St.call_refund, St.call_calls,
    gasCharge_append, gasCharge_singleton, treasury.gp, treasury.gas, treasury.initialGas,
    treasury.refund, treasury.charge]
  simp [enough]

theorem addGas_ok {gp amount gp' : UInt64} (ok : addGas gp amount = .ok gp') :
    gp.toNat + amount.toNat ≤ 2 ^ 64 - 1 ∧ gp' = gp + amount := by
  unfold addGas at ok
  split at ok
  · cases ok
  · rename_i room
    cases ok
    have bound : amount.toNat < 2 ^ 64 := amount.toNat_lt_size
    have below : amount ≤ maxUint64 := by
      show amount.toNat ≤ maxUint64.toNat
      rw [toNat_maxUint64]; omega
    have : ¬ (maxUint64 - amount).toNat < gp.toNat := room
    rw [UInt64.toNat_sub_of_le _ _ below, toNat_maxUint64] at this
    exact ⟨by omega, rfl⟩

theorem toNat_min_u64 (a b : UInt64) : (min a b).toNat = min a.toNat b.toNat := by
  show (if a ≤ b then a else b).toNat = _
  split
  · rename_i le; exact (Nat.min_eq_left le).symm
  · rename_i gt; exact (Nat.min_eq_right (Nat.le_of_not_le gt)).symm

/-- A successful `refundGas` refunds `min(gasUsed / q, refund counter)`, and pays the
leftover gas with the refund back to the payer at `gasPrice` and to the pool. -/
theorem refundGas_ok {msg : Message} {q : UInt64} {st st' : St} {refund : UInt64}
    (ok : refundGas msg q st = .ok (st', refund)) :
    refund = min (gasUsed st / q) st.refund ∧ st'.gas = st.gas + refund ∧
      st'.initialGas = st.initialGas ∧ st.gp.toNat + st'.gas.toNat ≤ 2 ^ 64 - 1 ∧
      st'.gp = st.gp + st'.gas ∧
      gasCharge msg.payer st'.calls = gasCharge msg.payer st.calls - st'.gas.toNat * msg.gasPrice := by
  simp only [refundGas, bind_eq_ok] at ok
  obtain ⟨gp, add, done⟩ := ok
  obtain ⟨room, rfl⟩ := addGas_ok add
  cases done
  refine ⟨rfl, rfl, rfl, room, rfl, ?_⟩
  simp only [St.call_calls, gasCharge_append, gasCharge_singleton]
  simp
  omega

/-- A successful intrinsic gas step charges what `IntrinsicGas` returns, which the gas
bought covers. -/
theorem chargeIntrinsic_ok {p : GasParams} {env : Env} {msg : Message} {st st' : St}
    (ok : chargeIntrinsic p env msg st = .ok st') :
    ∃ intrinsic, intrinsicGas p msg.data msg.accessList msg.authList msg.toAddress.isNone
        env.isHomestead env.isIstanbul env.isShanghai = .ok intrinsic ∧
      intrinsic ≤ st.gas ∧ st' = { st with gas := st.gas - intrinsic } := by
  simp only [chargeIntrinsic, bind_eq_ok] at ok
  obtain ⟨intrinsic, charged, ok⟩ := ok
  have found : intrinsicGas p msg.data msg.accessList msg.authList msg.toAddress.isNone
      env.isHomestead env.isIstanbul env.isShanghai = .ok intrinsic := by
    revert charged
    cases intrinsicGas p msg.data msg.accessList msg.authList msg.toAddress.isNone
      env.isHomestead env.isIstanbul env.isShanghai <;> simp [Except.mapError]
  split at ok
  · cases ok
  · rename_i enough
    cases ok
    exact ⟨intrinsic, found, UInt64.not_lt.mp enough, rfl⟩

/-- From a state whose gas left is at most the gas bought, `refundGas` refunds
`min((initialGas - gas) / q, refund)` and keeps the gas left within the gas bought. -/
theorem refundGas_within {msg : Message} {q : UInt64} {st st' : St} {refund : UInt64}
    (ok : refundGas msg q st = .ok (st', refund)) (left : st.gas.toNat ≤ st.initialGas.toNat) :
    refund.toNat = min ((st.initialGas.toNat - st.gas.toNat) / q.toNat) st.refund.toNat ∧
      st'.gas.toNat = st.gas.toNat + refund.toNat ∧ st'.gas.toNat ≤ st'.initialGas.toNat := by
  obtain ⟨rfl, gas', initial', -⟩ := refundGas_ok ok
  have rnat : (min (gasUsed st / q) st.refund).toNat =
      min ((st.initialGas.toNat - st.gas.toNat) / q.toNat) st.refund.toNat := by
    rw [toNat_min_u64, UInt64.toNat_div, gasUsed, UInt64.toNat_sub_of_le _ _ left]
  have rle : (min (gasUsed st / q) st.refund).toNat ≤ st.initialGas.toNat - st.gas.toNat :=
    rnat ▸ (Nat.min_le_left _ _).trans (Nat.div_le_self _ _)
  have back : st'.gas.toNat = st.gas.toNat + (min (gasUsed st / q) st.refund).toNat := by
    rw [gas']
    have size : st.initialGas.toNat < 2 ^ 64 := st.initialGas.toNat_lt_size
    exact toNat_add_of_le (by omega)
  exact ⟨rnat, back, by rw [initial']; omega⟩

/-- A successful end of `TransitionDb`, from a state whose gas left is at most the gas
bought: the refund is `min((initialGas - gas) / q, refund)`, the gas used, the gas left
and the refund make up the gas bought, and the payer and the pool get back what was
not used. -/
theorem settle_ok {p : GasParams} {env : Env} {msg : Message} {st st' : St}
    {result : ExecutionResult} (ok : settle p env msg st = .ok (result, st'))
    (left : st.gas.toNat ≤ st.initialGas.toNat) :
    result.refundedGas.toNat = min ((st.initialGas.toNat - st.gas.toNat) /
        (if env.isLondon then p.refundQuotientEIP3529 else p.refundQuotient).toNat)
        st.refund.toNat ∧
      result.usedGas.toNat + st.gas.toNat + result.refundedGas.toNat = st.initialGas.toNat ∧
      st'.gp.toNat = st.gp.toNat + (st.initialGas.toNat - result.usedGas.toNat) ∧
      gasCharge msg.payer st'.calls =
        gasCharge msg.payer st.calls - (st.initialGas.toNat - result.usedGas.toNat) * msg.gasPrice := by
  simp only [settle, bind_eq_ok] at ok
  obtain ⟨⟨st₁, r⟩, refunded, done⟩ := ok
  cases done
  obtain ⟨-, -, initial₁, room, gp₁, charge₁⟩ := refundGas_ok refunded
  obtain ⟨rnat, gas₁, within⟩ := refundGas_within refunded left
  have fees := sameGas_payFees env msg st₁
  have used : (gasUsed (payFees env msg st₁)).toNat = st.initialGas.toNat - st₁.gas.toNat := by
    rw [gasUsed_payFees, toNat_gasUsed within, initial₁]
  rw [initial₁] at within
  simp only [used, fees.gp, fees.charge, gp₁, charge₁, toNat_add_of_le room, Nat.sub_sub_self within]
  exact ⟨rnat, by omega, trivial, by rw [Nat.cast_sub within, sub_sub_cancel]⟩

/-! ## A whole transition -/

/-- A successful `TransitionDb` of a message that is not a system transaction, with
an EVM that returns at most the gas it is given: the refund is `min((g - l) / q, R)`,
the gas used is `g - l - refund` with no uint64 wrap, the pool loses exactly the gas
used, and the payer pays `UsedGas * gasPrice + blobFee`. -/
theorem transitionDb_gas (p : GasParams) (env : Env) (msg : Message)
    (checks : Except TxError Unit) (evm : UInt64 → EvmOutcome) (gp : UInt64)
    (balance : Address → Int) (refund : UInt64) (notSystem : env.isSystemTransaction = false)
    (bounded : ∀ given, (evm given).leftover ≤ given) {result : ExecutionResult} {st : St}
    (ok : transitionDb p env msg checks evm (newSt gp balance refund) = .ok (result, st)) :
    ∃ intrinsic, intrinsicGas p msg.data msg.accessList msg.authList msg.toAddress.isNone
        env.isHomestead env.isIstanbul env.isShanghai = .ok intrinsic ∧ intrinsic ≤ msg.gas ∧
      let outcome := evm (msg.gas - intrinsic)
      let q := if env.isLondon then p.refundQuotientEIP3529 else p.refundQuotient
      result.refundedGas.toNat =
        min ((msg.gas.toNat - outcome.leftover.toNat) / q.toNat) outcome.refund.toNat ∧
      result.usedGas.toNat + outcome.leftover.toNat + result.refundedGas.toNat = msg.gas.toNat ∧
      st.gp.toNat + result.usedGas.toNat = gp.toNat ∧
      gasCharge msg.payer st.calls = result.usedGas.toNat * msg.gasPrice + blobFee p env msg := by
  simp only [transitionDb, notSystem, Bool.false_eq_true, ↓reduceIte, bind_eq_ok] at ok
  obtain ⟨-, -, st₁, bought, st₂, charged, -, -, settled⟩ := ok
  obtain ⟨enough, gp₁, gas₁, initial₁, -, charge₁⟩ := buyGas_ok bought
  obtain ⟨intrinsic, found, covered, rfl⟩ := chargeIntrinsic_ok charged
  have size : msg.gas.toNat < 2 ^ 64 := msg.gas.toNat_lt_size
  have bought₁ : st₁.gas = msg.gas := by
    rw [gas₁]
    exact UInt64.toNat.inj (by rw [toNat_add_u64]; simp only [newSt]; simp; omega)
  have covered' : intrinsic.toNat ≤ msg.gas.toNat := bought₁ ▸ covered
  have leftover : (evm (msg.gas - intrinsic)).leftover.toNat ≤ msg.gas.toNat - intrinsic.toNat :=
    UInt64.toNat_sub_of_le _ _ covered' ▸ bounded (msg.gas - intrinsic)
  obtain ⟨refunded, used, pool, charge⟩ :=
    settle_ok settled (by simp only [execute_gas, execute_initialGas, bought₁, initial₁]; omega)
  simp only [execute_gas, execute_initialGas, execute_gp, execute_calls, execute_refund, bought₁,
    initial₁, gp₁, charge₁, newSt, gasCharge_nil, Int.zero_add] at refunded used pool charge enough
  refine ⟨intrinsic, found, bought₁ ▸ covered, refunded, used, ?_, ?_⟩
  · have paid : msg.gas.toNat ≤ gp.toNat := enough
    rw [pool, UInt64.toNat_sub_of_le _ _ enough]
    omega
  · rw [charge]
    ring

/-- A call after London at gas price 1 with `protocolParams`: 30000 gas bought from
a pool of 100000, an EVM that leaves half the 9000 gas it gets and a refund counter
of 1000, so 1000 gas is refunded and 24500 used. -/
theorem transitionDb_gas_call :
    let msg : Message := ⟨.zero, some ⟨List.replicate 20 1, rfl⟩, 1, 1, 1, 30000, 0, [], none,
      .zero, 0, none, none⟩
    let env : Env := ⟨false, true, true, true, true, false, false, 0, 0, .zero, .zero, none⟩
    let evm : UInt64 → EvmOutcome := fun given => ⟨given / 2, 1000⟩
    ∃ result st, transitionDb protocolParams env msg (.ok ()) evm
        (newSt 100000 (fun _ => 1000000) 0) = .ok (result, st) ∧
      ∃ intrinsic, intrinsicGas protocolParams msg.data msg.accessList msg.authList
          msg.toAddress.isNone env.isHomestead env.isIstanbul env.isShanghai = .ok intrinsic ∧
        intrinsic ≤ msg.gas ∧
        let outcome := evm (msg.gas - intrinsic)
        let q := if env.isLondon then protocolParams.refundQuotientEIP3529
          else protocolParams.refundQuotient
        result.refundedGas.toNat =
          min ((msg.gas.toNat - outcome.leftover.toNat) / q.toNat) outcome.refund.toNat ∧
        result.usedGas.toNat + outcome.leftover.toNat + result.refundedGas.toNat =
          msg.gas.toNat ∧
        st.gp.toNat + result.usedGas.toNat = (100000 : UInt64).toNat ∧
        gasCharge msg.payer st.calls =
          result.usedGas.toNat * msg.gasPrice + blobFee protocolParams env msg := by
  intro msg env evm
  obtain ⟨result, st, run⟩ : ∃ result st, transitionDb protocolParams env msg (.ok ()) evm
      (newSt 100000 (fun _ => 1000000) 0) = .ok (result, st) := ⟨_, _, by unfold msg env evm; rfl⟩
  refine ⟨result, st, run, transitionDb_gas protocolParams env msg (.ok ()) evm 100000 _ 0 rfl
    (fun given => ?_) run⟩
  show (given / 2).toNat ≤ given.toNat
  exact (UInt64.toNat_div given 2).symm ▸ Nat.div_le_self _ _

end Ronin.Core
