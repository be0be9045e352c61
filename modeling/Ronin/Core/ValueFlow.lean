import Ronin.Core.StateTransition

/-!
# Where the value of the gas accounting goes

Each balance call of `TransitionDb` moves its `delta` into one balance, so the calls
of a run add up to what the run adds to all balances together (`netFlow`). `buyGas`
takes the gas limit at `gasPrice` and the blob fee, and gives a positive blob fee to
the treasury; `refundGas` gives back the gas not used; `payFees` pays the tip and,
after Venoki, the base fee to the treasury. What is left over is burnt: the base fee
before Venoki (or without a treasury) and the blob fee without a treasury (`burnt`).

Results:
* `transitionDb_steps`: a successful `TransitionDb` that is not a system transaction,
  step by step.
* `buyGas_flow`, `refundGas_flow`, `payFees_flow`, `settle_flow`: what each step adds
  to all balances together.
* `transitionDb_conserves`: the gas accounting only moves value between accounts,
  apart from what it burns.
* `transitionDb_payees`: every balance call of the gas accounting is on the payer, the
  block producer or the treasury (`CallsOnly`, carried through each step).

The EVM's own balance changes, the value transfer of `Call` and `Create` among them, are
not balance calls of the model (`execute` keeps the EVM to its gas): the results here
are about the calls of the gas accounting.
* `transitionDb_solvent`: from balances that are all non-negative, the gas accounting
  leaves them non-negative: `buyGas` checks the payer's funds against the fee caps, and
  every later call is a credit.
-/

namespace Ronin.Core

/-! ## The steps of a successful transition -/

/-- With an EVM that returns at most the gas it is given, the gas left after the
intrinsic charge and the execution is still at most the gas bought. -/
theorem execute_left {evm : UInt64 → EvmOutcome} (bounded : ∀ given, (evm given).leftover ≤ given)
    {st : St} {intrinsic : UInt64} (covered : intrinsic ≤ st.gas)
    (within : st.gas.toNat ≤ st.initialGas.toNat) :
    (execute evm { st with gas := st.gas - intrinsic }).gas.toNat ≤
      (execute evm { st with gas := st.gas - intrinsic }).initialGas.toNat := by
  have left : (evm (st.gas - intrinsic)).leftover.toNat ≤ st.gas.toNat - intrinsic.toNat :=
    UInt64.toNat_sub_of_le _ _ covered ▸ bounded (st.gas - intrinsic)
  simp only [execute_gas, execute_initialGas]
  omega

/-- A successful `TransitionDb` of a message that is not a system transaction, step by
step: the gas bought, an intrinsic charge it covers, and `settle` after the EVM ran. -/
theorem transitionDb_steps {p : GasParams} {env : Env} {msg : Message}
    {checks : Except TxError Unit} {evm : UInt64 → EvmOutcome} {st₀ st : St}
    {result : ExecutionResult} (notSystem : env.isSystemTransaction = false)
    (ok : transitionDb p env msg checks evm st₀ = .ok (result, st)) :
    ∃ st₁ intrinsic, buyGas p env msg st₀ = .ok st₁ ∧
      intrinsicGas p msg.data msg.accessList msg.authList msg.toAddress.isNone
        env.isHomestead env.isIstanbul env.isShanghai = .ok intrinsic ∧ intrinsic ≤ st₁.gas ∧
      settle p env msg (execute evm { st₁ with gas := st₁.gas - intrinsic }) = .ok (result, st) := by
  simp only [transitionDb, notSystem, Bool.false_eq_true, ↓reduceIte, bind_eq_ok] at ok
  obtain ⟨-, -, st₁, bought, st₂, charged, -, -, settled⟩ := ok
  obtain ⟨intrinsic, found, covered, rfl⟩ := chargeIntrinsic_ok charged
  exact ⟨st₁, intrinsic, bought, found, covered, settled⟩

/-- A successful system transaction, step by step: the gas bought and the EVM run on
it, with nothing refunded. -/
theorem transitionDb_system_steps {p : GasParams} {env : Env} {msg : Message}
    {checks : Except TxError Unit} {evm : UInt64 → EvmOutcome} {st₀ st : St}
    {result : ExecutionResult} (system : env.isSystemTransaction = true)
    (ok : transitionDb p env msg checks evm st₀ = .ok (result, st)) :
    ∃ st₁, buyGas p env msg st₀ = .ok st₁ ∧ st = execute evm st₁ ∧
      result = ⟨gasUsed (execute evm st₁), 0⟩ := by
  simp only [transitionDb, system, ↓reduceIte, bind_eq_ok] at ok
  obtain ⟨-, -, st₁, bought, _, ⟨⟩, -, -, done⟩ := ok
  cases done
  exact ⟨st₁, bought, rfl, rfl⟩

/-- Gas bought on a fresh state transition is the gas limit. -/
theorem buyGas_newSt_gas {p : GasParams} {env : Env} {msg : Message} {gp : UInt64}
    {balance : Address → Int} {refund : UInt64} {st : St}
    (ok : buyGas p env msg (newSt gp balance refund) = .ok st) : st.gas = msg.gas := by
  obtain ⟨-, -, gas, -⟩ := buyGas_ok ok
  have size : msg.gas.toNat < 2 ^ 64 := msg.gas.toNat_lt_size
  rw [gas]
  exact UInt64.toNat.inj (by rw [toNat_add_u64]; simp only [newSt]; simp; omega)

/-- A successful `TransitionDb` from a fresh state that is not a system transaction,
with an EVM that returns at most the gas it is given: the gas bought is the gas limit,
and both the gas left to `settle` and the gas used are at most it. -/
theorem transitionDb_settles {p : GasParams} {env : Env} {msg : Message}
    {checks : Except TxError Unit} {evm : UInt64 → EvmOutcome} {gp : UInt64}
    {balance : Address → Int} {refund : UInt64} {result : ExecutionResult} {st : St}
    (notSystem : env.isSystemTransaction = false) (bounded : ∀ given, (evm given).leftover ≤ given)
    (ok : transitionDb p env msg checks evm (newSt gp balance refund) = .ok (result, st)) :
    ∃ st₁ intrinsic, buyGas p env msg (newSt gp balance refund) = .ok st₁ ∧
      settle p env msg (execute evm { st₁ with gas := st₁.gas - intrinsic }) = .ok (result, st) ∧
      st₁.initialGas = msg.gas ∧
      (execute evm { st₁ with gas := st₁.gas - intrinsic }).gas.toNat ≤ msg.gas.toNat ∧
      result.usedGas.toNat ≤ msg.gas.toNat := by
  obtain ⟨st₁, intrinsic, bought, -, covered, settled⟩ := transitionDb_steps notSystem ok
  obtain ⟨-, -, -, initial₁, -⟩ := buyGas_ok bought
  have left := execute_left bounded covered (by rw [buyGas_newSt_gas bought, initial₁])
  obtain ⟨-, used, -, -⟩ := settle_ok settled left
  simp only [execute_initialGas, initial₁] at left used
  exact ⟨st₁, intrinsic, bought, settled, initial₁, left, by omega⟩

/-! ## Where the value goes -/

/-- What a list of balance calls adds to all balances together. -/
def netFlow : List BalanceCall → Int
  | [] => 0
  | c :: calls => c.delta + netFlow calls

@[simp] theorem netFlow_nil : netFlow [] = 0 := rfl

@[simp] theorem netFlow_cons (c : BalanceCall) (calls : List BalanceCall) :
    netFlow (c :: calls) = c.delta + netFlow calls := rfl

@[simp] theorem netFlow_append (calls more : List BalanceCall) :
    netFlow (calls ++ more) = netFlow calls + netFlow more := by
  induction calls with
  | nil => simp
  | cons c calls ih => rw [List.cons_append, netFlow_cons, netFlow_cons, ih]; ring

@[simp] theorem gasUsed_call (st : St) (site : Site) (addr : Address) (delta : Int) :
    gasUsed (st.call site addr delta) = gasUsed st := rfl

theorem payTreasury_flow (env : Env) (fee : Int) (st : St) :
    netFlow (payTreasury env fee st).calls =
      netFlow st.calls + if env.treasury.isSome ∧ 0 < fee then fee else 0 := by
  unfold payTreasury
  split
  · split_ifs <;> simp_all
  · simp_all

theorem buyGas_flow {p : GasParams} {env : Env} {msg : Message} {st st' : St}
    (ok : buyGas p env msg st = .ok st') :
    netFlow st'.calls = netFlow st.calls - (msg.gas.toNat * msg.gasPrice + blobFee p env msg) +
      if env.treasury.isSome ∧ 0 < blobFee p env msg then blobFee p env msg else 0 := by
  simp only [buyGas, bind_eq_ok] at ok
  obtain ⟨-, -, gp', -, done⟩ := ok
  cases done
  simp only [St.call_calls, netFlow_append, payTreasury_flow, netFlow_cons, netFlow_nil]
  ring

theorem refundGas_flow {msg : Message} {q : UInt64} {st st' : St} {refund : UInt64}
    (ok : refundGas msg q st = .ok (st', refund)) :
    netFlow st'.calls = netFlow st.calls + st'.gas.toNat * msg.gasPrice := by
  simp only [refundGas, bind_eq_ok] at ok
  obtain ⟨gp, -, done⟩ := ok
  cases done
  simp

theorem payFees_flow (env : Env) (msg : Message) (st : St) :
    netFlow (payFees env msg st).calls = netFlow st.calls +
      (gasUsed st).toNat * (if env.isLondon then min msg.gasTipCap (msg.gasFeeCap - env.baseFee)
        else msg.gasPrice) +
      if env.isVenoki ∧ env.treasury.isSome then int64Of (gasUsed st) * env.baseFee else 0 := by
  dsimp only [payFees]
  split
  · rename_i treasury venoki found
    simp only [St.call_calls, netFlow_append, netFlow_cons, netFlow_nil, gasUsed_call, venoki,
      found, Option.isSome_some, and_self, ↓reduceIte]
    ring
  · rename_i other
    have : ¬ (env.isVenoki = true ∧ env.treasury.isSome = true) := fun ⟨venoki, present⟩ =>
      let ⟨t, found⟩ := Option.isSome_iff_exists.mp present
      other t venoki found
    simp [this]

/-- `int64` of an amount below `2^63` is the amount. -/
theorem int64Of_of_lt {x : UInt64} (small : x.toNat < 2 ^ 63) : int64Of x = x.toNat := by
  rw [int64Of, if_pos small]

/-- Priced as `AsMessage` prices it after London, the tip per gas is the gas price less
the base fee. -/
theorem effectiveTip_of_priced {env : Env} {msg : Message}
    (priced : env.isLondon = true → msg.gasPrice = min (msg.gasTipCap + env.baseFee) msg.gasFeeCap) :
    (if env.isLondon then min msg.gasTipCap (msg.gasFeeCap - env.baseFee) else msg.gasPrice) =
      msg.gasPrice - if env.isLondon then env.baseFee else 0 := by
  split_ifs with london
  · rw [priced london, min_def, min_def]
    split_ifs <;> omega
  · rw [sub_zero]

/-- `settle` gives the payer back the gas not used, pays the tip on the gas used, and
after Venoki the base fee on it to the treasury. -/
theorem settle_flow {p : GasParams} {env : Env} {msg : Message} {st st' : St}
    {result : ExecutionResult} (ok : settle p env msg st = .ok (result, st'))
    (left : st.gas.toNat ≤ st.initialGas.toNat) :
    netFlow st'.calls = netFlow st.calls +
      (st.initialGas.toNat - result.usedGas.toNat) * msg.gasPrice +
      result.usedGas.toNat * (if env.isLondon then min msg.gasTipCap (msg.gasFeeCap - env.baseFee)
        else msg.gasPrice) +
      if env.isVenoki ∧ env.treasury.isSome then int64Of result.usedGas * env.baseFee else 0 := by
  simp only [settle, bind_eq_ok] at ok
  obtain ⟨⟨st₁, r⟩, refunded, done⟩ := ok
  cases done
  obtain ⟨-, -, initial₁, -⟩ := refundGas_ok refunded
  obtain ⟨-, -, within⟩ := refundGas_within refunded left
  rw [payFees_flow, refundGas_flow refunded, gasUsed_payFees, toNat_gasUsed within, initial₁,
    Nat.cast_sub (initial₁ ▸ within), sub_sub_cancel]

/-- What the gas accounting takes out of all balances together: after London the base
fee on the gas used, unless Venoki pays it to a treasury, and the blob fee when no
treasury takes it. -/
def burnt (env : Env) (blobFee : Int) (used : UInt64) : Int :=
  (if env.isLondon && !(env.isVenoki && env.treasury.isSome) then used.toNat * env.baseFee
    else 0) +
    if env.treasury.isSome then 0 else blobFee

theorem blobFee_nonneg (p : GasParams) (env : Env) (msg : Message)
    (blobPriced : 0 ≤ env.blobBaseFee) : 0 ≤ blobFee p env msg := by
  unfold blobFee
  split
  · exact Int.mul_nonneg (Int.natCast_nonneg _) blobPriced
  · exact le_refl 0

/-- A blob fee that is not negative goes to the treasury exactly when there is one. -/
theorem treasury_blobFee {fee : Int} (nonneg : 0 ≤ fee) (present : Bool) :
    (if present = true ∧ 0 < fee then fee else 0) = if present = true then fee else 0 := by
  rcases nonneg.lt_or_eq with pos | zero
  · simp only [pos, and_true]
  · simp only [← zero, lt_irrefl, and_false, ite_false, ite_self]

/-- With Venoki no earlier than London, what is burnt is the base fee after London less
what Venoki's treasury takes, and the blob fee less what the treasury takes. -/
theorem burnt_eq {env : Env} (forks : env.isVenoki = true → env.isLondon = true) (fee : Int)
    (used : UInt64) :
    burnt env fee used = used.toNat * (if env.isLondon then env.baseFee else 0) -
      (if env.isVenoki ∧ env.treasury.isSome then (used.toNat : Int) * env.baseFee else 0) +
      (fee - if env.treasury.isSome then fee else 0) := by
  unfold burnt
  cases london : env.isLondon <;> cases venoki : env.isVenoki <;> cases env.treasury.isSome <;>
    simp_all

/-- The gas accounting moves value between accounts and destroys only what `burnt`
names: a successful `TransitionDb` of a message that is not a system transaction,
priced as `AsMessage` prices it after London (`min(tipCap + baseFee, feeCap)`), with a
gas limit below `2^63` (`int64` of the gas used), a blob base fee that is not
negative, and Venoki no earlier than London, makes balance calls that add up to minus
what is burnt. -/
theorem transitionDb_conserves (p : GasParams) (env : Env) (msg : Message)
    (checks : Except TxError Unit) (evm : UInt64 → EvmOutcome) (gp : UInt64)
    (balance : Address → Int) (refund : UInt64) (notSystem : env.isSystemTransaction = false)
    (bounded : ∀ given, (evm given).leftover ≤ given)
    (priced : env.isLondon = true → msg.gasPrice = min (msg.gasTipCap + env.baseFee) msg.gasFeeCap)
    (forks : env.isVenoki = true → env.isLondon = true) (small : msg.gas.toNat < 2 ^ 63)
    (blobPriced : 0 ≤ env.blobBaseFee) {result : ExecutionResult} {st : St}
    (ok : transitionDb p env msg checks evm (newSt gp balance refund) = .ok (result, st)) :
    netFlow st.calls = -burnt env (blobFee p env msg) result.usedGas := by
  obtain ⟨st₁, intrinsic, bought, settled, initial₁, left, used⟩ :=
    transitionDb_settles notSystem bounded ok
  rw [settle_flow settled (by rwa [execute_initialGas, initial₁]), execute_calls, execute_initialGas,
    buyGas_flow bought, initial₁, effectiveTip_of_priced priced,
    treasury_blobFee (blobFee_nonneg p env msg blobPriced), int64Of_of_lt (by omega), burnt_eq forks]
  simp only [newSt, netFlow_nil]
  ring

/-- The EVM of the worked runs below, which leaves half the gas it is given, returns at
most that gas. -/
theorem half_le (given : UInt64) : given / 2 ≤ given := by
  show (given / 2).toNat ≤ given.toNat
  exact (UInt64.toNat_div given 2).symm ▸ Nat.div_le_self _ _

/-- A run of Ronin's Venoki rules with a treasury: base fee 1, fee cap 3 and tip cap 1,
so `gasPrice` 2; the EVM leaves half its gas and a refund counter of 1000. The 24500
gas used pays a tip of 1 each to the system address and 1 each to the treasury, and
nothing is burnt. -/
theorem transitionDb_conserves_venoki :
    let treasury : Address := ⟨List.replicate 20 7, rfl⟩
    let msg : Message := ⟨.zero, some ⟨List.replicate 20 1, rfl⟩, 2, 3, 1, 30000, 0, [], none,
      .zero, 0, none, none⟩
    let env : Env := ⟨false, true, true, true, true, true, true, 1, 0, .zero, .zero, some treasury⟩
    let evm : UInt64 → EvmOutcome := fun given => ⟨given / 2, 1000⟩
    ∃ result st, transitionDb protocolParams env msg (.ok ()) evm
        (newSt 100000 (fun _ => 1000000) 0) = .ok (result, st) ∧
      netFlow st.calls = -burnt env (blobFee protocolParams env msg) result.usedGas := by
  intro treasury msg env evm
  obtain ⟨result, st, run⟩ : ∃ result st, transitionDb protocolParams env msg (.ok ()) evm
      (newSt 100000 (fun _ => 1000000) 0) = .ok (result, st) :=
    ⟨_, _, by unfold msg env evm treasury; rfl⟩
  exact ⟨result, st, run, transitionDb_conserves protocolParams env msg (.ok ()) evm 100000 _ 0 rfl
    half_le (fun _ => rfl) (fun _ => rfl) (by decide) (le_refl 0) run⟩

/-! ## Whom the gas accounting pays -/

/-- `st'` extends the balance calls of `st` with calls on `allowed` accounts only. -/
def CallsOnly (allowed : Address → Prop) (st st' : St) : Prop :=
  ∃ extra, st'.calls = st.calls ++ extra ∧ ∀ c ∈ extra, allowed c.addr

theorem CallsOnly.trans {allowed : Address → Prop} {st st' st'' : St}
    (first : CallsOnly allowed st st') (second : CallsOnly allowed st' st'') :
    CallsOnly allowed st st'' := by
  obtain ⟨extra, calls, onFirst⟩ := first
  obtain ⟨extra', calls', onSecond⟩ := second
  refine ⟨extra ++ extra', by rw [calls', calls, List.append_assoc], fun c mem => ?_⟩
  rcases List.mem_append.mp mem with inFirst | inSecond
  · exact onFirst c inFirst
  · exact onSecond c inSecond

theorem CallsOnly.call {allowed : Address → Prop} {st : St} (site : Site) {addr : Address}
    (delta : Int) (ok : allowed addr) : CallsOnly allowed st (st.call site addr delta) :=
  ⟨_, St.call_calls st site addr delta, fun _ mem => List.mem_singleton.mp mem ▸ ok⟩

/-- Every balance is at least zero. -/
def Solvent (st : St) : Prop := ∀ a, 0 ≤ st.balance a

theorem St.call_balance (st : St) (site : Site) (addr a : Address) (delta : Int) :
    (st.call site addr delta).balance a = st.balance a + if a = addr then delta else 0 := by
  by_cases same : a = addr
  · subst same; simp [St.call]
  · simp [St.call, Function.update_noteq same, same]

/-- A call that adds a non-negative amount keeps every balance at least zero. -/
theorem Solvent.call {st : St} (solvent : Solvent st) (site : Site) (addr : Address) {delta : Int}
    (credit : 0 ≤ delta) : Solvent (st.call site addr delta) := fun a => by
  have := solvent a
  rw [St.call_balance]
  split_ifs <;> omega

/-- The treasury step only credits. -/
theorem payTreasury_credits (env : Env) (fee : Int) (st : St) (a : Address) :
    st.balance a ≤ (payTreasury env fee st).balance a := by
  unfold payTreasury
  split
  · split_ifs with positive
    · rw [St.call_balance]; split_ifs <;> omega
    · exact le_refl _
  · exact le_refl _

/-- What `buyGas`'s balance checks give, with a value that is not negative: the payer
covers the gas limit at the fee cap and the blob gas it pays at the blob fee cap. -/
theorem checkFunds_ok {p : GasParams} {msg : Message} {st : St}
    (ok : checkFunds p msg st = .ok ()) (valued : 0 ≤ msg.value) :
    msg.gas.toNat * msg.gasFeeCap +
        (if paysBlobFee p msg then (blobGasUsed p msg).toNat * msg.blobGasFeeCap else 0) ≤
      st.balance msg.payer := by
  unfold checkFunds at ok
  dsimp only at ok
  by_cases sponsored : msg.payer ≠ msg.sender
  · have free : paysBlobFee p msg = false := by simp [paysBlobFee, sponsored]
    simp only [sponsored, free, ne_eq, not_false_eq_true, ↓reduceIte, Bool.false_eq_true] at ok ⊢
    split_ifs at ok with short
    omega
  · rw [not_not] at sponsored
    simp only [sponsored, ne_eq, not_true_eq_false, ↓reduceIte] at ok ⊢
    split_ifs at ok ⊢ <;> omega

/-- `buyGas` overdraws no one when the gas price is at most the fee cap, the blob base
fee at most the blob fee cap, and the value not negative. -/
theorem buyGas_solvent {p : GasParams} {env : Env} {msg : Message} {st st' : St}
    (ok : buyGas p env msg st = .ok st') (solvent : Solvent st)
    (capped : msg.gasPrice ≤ msg.gasFeeCap) (valued : 0 ≤ msg.value)
    (blobCapped : env.blobBaseFee ≤ msg.blobGasFeeCap) : Solvent st' := by
  simp only [buyGas, bind_eq_ok] at ok
  obtain ⟨⟨⟩, funds, gp', -, done⟩ := ok
  cases done
  have covered := checkFunds_ok funds valued
  have gasCost : (msg.gas.toNat : Int) * msg.gasPrice ≤ msg.gas.toNat * msg.gasFeeCap :=
    Int.mul_le_mul_of_nonneg_left capped (Int.natCast_nonneg _)
  have blobCost : blobFee p env msg ≤
      if paysBlobFee p msg then (blobGasUsed p msg).toNat * msg.blobGasFeeCap else 0 := by
    unfold blobFee
    split_ifs
    · exact Int.mul_le_mul_of_nonneg_left blobCapped (Int.natCast_nonneg _)
    · exact le_refl 0
  intro a
  have credited := payTreasury_credits env (blobFee p env msg)
    { st with gp := gp', gas := st.gas + msg.gas, initialGas := msg.gas } a
  have before := solvent a
  simp only at credited
  rw [St.call_balance]
  split_ifs with payer
  · subst payer
    omega
  · omega

/-- `refundGas` only credits the payer, at a gas price that is not negative. -/
theorem refundGas_solvent {msg : Message} {q : UInt64} {st st' : St} {refund : UInt64}
    (ok : refundGas msg q st = .ok (st', refund)) (solvent : Solvent st) (priced : 0 ≤ msg.gasPrice) :
    Solvent st' := by
  simp only [refundGas, bind_eq_ok] at ok
  obtain ⟨gp, -, done⟩ := ok
  cases done
  have refunded : Solvent { st with gas := st.gas + min (gasUsed st / q) st.refund } := solvent
  exact refunded.call .refundGas msg.payer (Int.mul_nonneg (Int.natCast_nonneg _) priced)

/-- `payFees` only credits, when the tip per gas is not negative and the base fee the
treasury gets is not negative. -/
theorem payFees_solvent {env : Env} {msg : Message} {st : St} (solvent : Solvent st)
    (tipped : 0 ≤ if env.isLondon then min msg.gasTipCap (msg.gasFeeCap - env.baseFee) else msg.gasPrice)
    (feePaid : 0 ≤ int64Of (gasUsed st) * env.baseFee) : Solvent (payFees env msg st) := by
  have tip := solvent.call .tip (if env.isConsortiumV2 then env.systemAddress else env.coinbase)
    (Int.mul_nonneg (Int.natCast_nonneg (gasUsed st).toNat) tipped)
  dsimp only [payFees]
  split
  · exact tip.call _ _ (by rwa [gasUsed_call])
  · exact tip

/-- `settle` overdraws no one under the same conditions as `payFees`, the treasury's base
fee taken on the gas used. -/
theorem settle_solvent {p : GasParams} {env : Env} {msg : Message} {st st' : St}
    {result : ExecutionResult} (ok : settle p env msg st = .ok (result, st')) (solvent : Solvent st)
    (priced : 0 ≤ msg.gasPrice)
    (tipped : 0 ≤ if env.isLondon then min msg.gasTipCap (msg.gasFeeCap - env.baseFee) else msg.gasPrice)
    (feePaid : 0 ≤ int64Of result.usedGas * env.baseFee) : Solvent st' := by
  simp only [settle, bind_eq_ok] at ok
  obtain ⟨⟨st₁, r⟩, refunded, done⟩ := ok
  cases done
  exact payFees_solvent (refundGas_solvent refunded solvent priced) tipped
    (by rwa [← gasUsed_payFees env msg])

/-- The gas accounting never overdraws an account. From balances all at least zero, a
successful `TransitionDb` with an EVM that returns at most the gas it is given leaves
every balance at least zero, when the gas price is not negative and at most the fee
cap, the value is not negative, the blob base fee is at most the blob fee cap, after
London the tip cap is not negative and the fee cap covers the base fee (what
`preCheck`'s fee checks give, unless `NoBaseFee` skips them), the base fee is not
negative and the gas limit is below `2^63`. -/
theorem transitionDb_solvent (p : GasParams) (env : Env) (msg : Message)
    (checks : Except TxError Unit) (evm : UInt64 → EvmOutcome) (gp : UInt64)
    (balance : Address → Int) (refund : UInt64) (funded : ∀ a, 0 ≤ balance a)
    (bounded : ∀ given, (evm given).leftover ≤ given) (priced : 0 ≤ msg.gasPrice)
    (capped : msg.gasPrice ≤ msg.gasFeeCap) (valued : 0 ≤ msg.value)
    (blobCapped : env.blobBaseFee ≤ msg.blobGasFeeCap)
    (feeChecked : env.isLondon = true → 0 ≤ msg.gasTipCap ∧ env.baseFee ≤ msg.gasFeeCap)
    (baseFeeNonneg : 0 ≤ env.baseFee) (small : msg.gas.toNat < 2 ^ 63)
    {result : ExecutionResult} {st : St}
    (ok : transitionDb p env msg checks evm (newSt gp balance refund) = .ok (result, st)) :
    ∀ a, 0 ≤ st.balance a := by
  cases system : env.isSystemTransaction
  · obtain ⟨st₁, intrinsic, bought, settled, -, -, used⟩ := transitionDb_settles system bounded ok
    have tipped : 0 ≤ if env.isLondon then min msg.gasTipCap (msg.gasFeeCap - env.baseFee)
        else msg.gasPrice := by
      split_ifs with london
      · obtain ⟨tipCapped, feeCapped⟩ := feeChecked london
        exact le_min tipCapped (by omega)
      · exact priced
    have paid : Solvent st₁ := buyGas_solvent bought funded capped valued blobCapped
    exact settle_solvent settled paid priced tipped
      (by rw [int64Of_of_lt (by omega)]; exact Int.mul_nonneg (Int.natCast_nonneg _) baseFeeNonneg)
  · obtain ⟨st₁, bought, rfl, -⟩ := transitionDb_system_steps system ok
    exact (buyGas_solvent bought funded capped valued blobCapped : Solvent st₁)

/-- The Venoki run above, from balances of 1000000 each, leaves every balance at least
zero. -/
theorem transitionDb_solvent_venoki :
    let treasury : Address := ⟨List.replicate 20 7, rfl⟩
    let msg : Message := ⟨.zero, some ⟨List.replicate 20 1, rfl⟩, 2, 3, 1, 30000, 0, [], none,
      .zero, 0, none, none⟩
    let env : Env := ⟨false, true, true, true, true, true, true, 1, 0, .zero, .zero, some treasury⟩
    let evm : UInt64 → EvmOutcome := fun given => ⟨given / 2, 1000⟩
    ∃ result st, transitionDb protocolParams env msg (.ok ()) evm
        (newSt 100000 (fun _ => 1000000) 0) = .ok (result, st) ∧ ∀ a, 0 ≤ st.balance a := by
  intro treasury msg env evm
  obtain ⟨result, st, run⟩ : ∃ result st, transitionDb protocolParams env msg (.ok ()) evm
      (newSt 100000 (fun _ => 1000000) 0) = .ok (result, st) :=
    ⟨_, _, by unfold msg env evm treasury; rfl⟩
  exact ⟨result, st, run, transitionDb_solvent protocolParams env msg (.ok ()) evm 100000 _ 0
    (fun _ => by decide) half_le (by decide) (by decide) (le_refl 0) (le_refl 0)
    (fun _ => ⟨by decide, by decide⟩) (by decide) (by decide) run⟩

end Ronin.Core
