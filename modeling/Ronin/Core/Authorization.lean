import Ronin.Core.StateTransition

/-!
# EIP-7702 authorizations

Before the EVM runs a call, `TransitionDb` raises the sender's nonce and then applies
the message's authorizations in order, ignoring the ones that fail
(`applyAuthorization`). An authorization is valid when it names this chain or every
chain, its nonce can still be raised, its signature recovers an authority, the
authority has no code or a delegation designator, and the authority's nonce is the
authorization's. A valid one refunds the new-account charge when the authority
already exists, raises the authority's nonce past the authorization's, and sets its
code to a designator pointing at the authorization's address, or clears it for the
zero address.

The account state is what these steps and `preCheck` read and write: nonces, code,
which accounts exist, the refund counter and the addresses added to the access list.
The state database, `ParseDelegation` and `AddressToDelegation`
(`core/types/tx_setcode.go`) are outside `src/` and follow go-ethereum; signature
recovery (`Authorization.Authority`) is a parameter.

Results:
* `parseDelegation_addressToDelegation`, `addressToDelegation_of_parseDelegation`: the
  designator format round trips both ways.
* `applyAuthorization_step`, `applyAuthorizations_step`: over any authorization list,
  each account keeps its code and nonce, or goes from no code or a designator to no
  code or a designator with a larger nonce (`AccountStep`).
* `prepareCall_accounts`: the steps before a call raise the sender's nonce and touch
  no account with contract code.
* `applyAuthorizations_authorized`, `prepareCall_authorized`: every account whose code
  or nonce is changed signed an authorization of the list for this chain carrying its
  nonce (one past it, for the sender, whose nonce the call has raised).
* `applied_rejected_after`: an authorization that was applied is rejected with a
  nonce mismatch on every state the loop reaches after it.
* `applyAuthorizations_nonce`, `prepareCall_nonce`: a nonce rises by at most one per
  authorization its account signed (one more for the sender).
-/

namespace Ronin.Core

/-- The account state the authorization code and `preCheck` read and write. -/
structure Accounts where
  nonce : Address → UInt64
  code : Address → Bytes
  exist : Address → Bool
  refund : UInt64
  accessList : List Address

namespace Accounts

/-- `StateDB.SetNonce` (`core/state`, not in `src/`), which creates the account. -/
def setNonce (acc : Accounts) (a : Address) (n : UInt64) : Accounts :=
  { acc with nonce := Function.update acc.nonce a n, exist := Function.update acc.exist a true }

/-- `StateDB.SetCode` (`core/state`, not in `src/`), which creates the account. -/
def setCode (acc : Accounts) (a : Address) (c : Bytes) : Accounts :=
  { acc with code := Function.update acc.code a c, exist := Function.update acc.exist a true }

/-- `StateDB.AddRefund` (`core/state`, not in `src/`), in uint64. -/
def addRefund (acc : Accounts) (gas : UInt64) : Accounts := { acc with refund := acc.refund + gas }

/-- `StateDB.AddAddressToAccessList` (`core/state`, not in `src/`): an address is added
once. -/
def addAddressToAccessList (acc : Accounts) (a : Address) : Accounts :=
  if a ∈ acc.accessList then acc else { acc with accessList := acc.accessList ++ [a] }

@[simp] theorem setNonce_nonce (acc : Accounts) (a : Address) (n : UInt64) :
    (acc.setNonce a n).nonce = Function.update acc.nonce a n := rfl
@[simp] theorem setNonce_code (acc : Accounts) (a : Address) (n : UInt64) :
    (acc.setNonce a n).code = acc.code := rfl
@[simp] theorem setCode_nonce (acc : Accounts) (a : Address) (c : Bytes) :
    (acc.setCode a c).nonce = acc.nonce := rfl
@[simp] theorem setCode_code (acc : Accounts) (a : Address) (c : Bytes) :
    (acc.setCode a c).code = Function.update acc.code a c := rfl
@[simp] theorem addRefund_nonce (acc : Accounts) (gas : UInt64) :
    (acc.addRefund gas).nonce = acc.nonce := rfl
@[simp] theorem addRefund_code (acc : Accounts) (gas : UInt64) :
    (acc.addRefund gas).code = acc.code := rfl
@[simp] theorem addAddressToAccessList_nonce (acc : Accounts) (a : Address) :
    (acc.addAddressToAccessList a).nonce = acc.nonce := by
  unfold addAddressToAccessList; split <;> rfl
@[simp] theorem addAddressToAccessList_code (acc : Accounts) (a : Address) :
    (acc.addAddressToAccessList a).code = acc.code := by
  unfold addAddressToAccessList; split <;> rfl

end Accounts

/-! ## Delegation designators -/

/-- `types.DelegationPrefix` (`core/types/tx_setcode.go`, not in `src/`). -/
def delegationPrefix : Bytes := [0xef, 0x01, 0x00]

/-- `types.ParseDelegation` (`core/types/tx_setcode.go`, not in `src/`): the target of a
23-byte designator with the prefix. -/
def parseDelegation (b : Bytes) : Option Address :=
  if h : b.length = 23 ∧ b.take 3 = delegationPrefix then some ⟨b.drop 3, by simp [h.1]⟩
  else none

/-- `types.AddressToDelegation` (`core/types/tx_setcode.go`, not in `src/`). -/
def addressToDelegation (addr : Address) : Bytes := delegationPrefix ++ addr.bytes

theorem parseDelegation_addressToDelegation (addr : Address) :
    parseDelegation (addressToDelegation addr) = some addr := by
  have length : (addressToDelegation addr).length = 23 := by
    simp [addressToDelegation, delegationPrefix, addr.length_eq]
  rw [parseDelegation, dif_pos ⟨length, rfl⟩]
  rfl

/-- A designator is all of the code it is read from. -/
theorem addressToDelegation_of_parseDelegation {b : Bytes} {target : Address}
    (parsed : parseDelegation b = some target) : addressToDelegation target = b := by
  unfold parseDelegation at parsed
  split_ifs at parsed with designator
  cases parsed
  rw [addressToDelegation, ← designator.2, List.take_append_drop]

@[simp] theorem parseDelegation_nil : parseDelegation [] = none := rfl

/-- Code an authorization may replace: none, or a delegation designator. -/
def Delegable (code : Bytes) : Prop := code = [] ∨ (parseDelegation code).isSome

instance (code : Bytes) : Decidable (Delegable code) := inferInstanceAs (Decidable (_ ∨ _))

theorem delegable_nil : Delegable [] := .inl rfl

theorem delegable_addressToDelegation (addr : Address) : Delegable (addressToDelegation addr) :=
  .inr (by rw [parseDelegation_addressToDelegation]; rfl)

/-! ## One authorization -/

/-- The errors `validateAuthorization` returns (`core/error.go`). -/
inductive AuthError where
  | wrongChainID
  | nonceOverflow
  | invalidSignature
  | destinationHasCode
  | nonceMismatch
  deriving DecidableEq

/-- What the authorization code reads besides the state: the chain's ID
(`ChainConfig().ChainID.Uint64()`), signature recovery (`Authorization.Authority`,
`none` for an error) and `params.TxAuthTupleGas`. -/
structure AuthContext where
  chainID : UInt64
  authority : Authorization → Option Address
  txAuthTupleGas : UInt64

variable (p : GasParams) (ctx : AuthContext)

/-- `validateAuthorization`: the authority, or why the authorization is refused. The
authority is added to the access list even when its code or nonce refuses it. -/
def validateAuthorization (auth : Authorization) (acc : Accounts) :
    Except AuthError Address × Accounts :=
  if auth.chainID ≠ 0 ∧ ctx.chainID ≠ auth.chainID then (.error .wrongChainID, acc)
  else if auth.nonce + 1 < auth.nonce then (.error .nonceOverflow, acc)
  else
    match ctx.authority auth with
    | none => (.error .invalidSignature, acc)
    | some authority =>
      let acc := acc.addAddressToAccessList authority
      let code := acc.code authority
      if code.length ≠ 0 ∧ parseDelegation code = none then (.error .destinationHasCode, acc)
      else if acc.nonce authority ≠ auth.nonce then (.error .nonceMismatch, acc)
      else (.ok authority, acc)

/-- `applyAuthorization`: on a valid authorization, refund the new-account charge if the
authority exists, raise its nonce, and install the designator (clear the code for the
zero address). -/
def applyAuthorization (auth : Authorization) (acc : Accounts) : Except AuthError Unit × Accounts :=
  match validateAuthorization ctx auth acc with
  | (.error e, acc) => (.error e, acc)
  | (.ok authority, acc) =>
    let acc := if acc.exist authority then
        acc.addRefund (p.callNewAccountGas - ctx.txAuthTupleGas) else acc
    let acc := acc.setNonce authority (auth.nonce + 1)
    if auth.address = Address.zero then (.ok (), acc.setCode authority [])
    else (.ok (), acc.setCode authority (addressToDelegation auth.address))

/-- The loop of `TransitionDb` over the authorization list; errors are ignored. -/
def applyAuthorizations : List Authorization → Accounts → Accounts
  | [], acc => acc
  | auth :: rest, acc => applyAuthorizations rest (applyAuthorization p ctx auth acc).2

/-- The account steps of `TransitionDb` before `evm.Call` to `toAddress`: the sender's
nonce goes up by one, the authorizations are applied (a nil list is an empty one), and
the delegation target of `toAddress`, if any, is added to the access list. -/
def prepareCall (msg : Message) (toAddress : Address) (acc : Accounts) : Accounts :=
  let acc := acc.setNonce msg.sender (acc.nonce msg.sender + 1)
  let acc := applyAuthorizations p ctx (msg.authList.getD []) acc
  match parseDelegation (acc.code toAddress) with
  | some addr => acc.addAddressToAccessList addr
  | none => acc

/-! ## What one authorization does -/

theorem toNat_succ_of_not_lt {n : UInt64} (noWrap : ¬ n + 1 < n) : (n + 1).toNat = n.toNat + 1 := by
  have size : n.toNat < 2 ^ 64 := n.toNat_lt_size
  have sum : (n + 1).toNat = (n.toNat + 1) % 2 ^ 64 := toNat_add_u64 n 1
  have : ¬ (n + 1).toNat < n.toNat := noWrap
  omega

variable {p ctx}

/-- Validation changes nothing but the access list. -/
theorem validateAuthorization_state (auth : Authorization) (acc : Accounts) :
    (validateAuthorization ctx auth acc).2.code = acc.code ∧
      (validateAuthorization ctx auth acc).2.nonce = acc.nonce := by
  unfold validateAuthorization
  split_ifs
  · exact ⟨rfl, rfl⟩
  · exact ⟨rfl, rfl⟩
  · split
    · exact ⟨rfl, rfl⟩
    · dsimp only
      split_ifs <;> simp

/-- An accepted authority was recovered from the signature, has no code or a
designator, has the authorization's nonce, that nonce can be raised, and the
authorization names this chain or every chain. -/
theorem validateAuthorization_ok {auth : Authorization} {acc : Accounts} {authority : Address}
    (valid : (validateAuthorization ctx auth acc).1 = .ok authority) :
    ctx.authority auth = some authority ∧ Delegable (acc.code authority) ∧
      acc.nonce authority = auth.nonce ∧ ¬ auth.nonce + 1 < auth.nonce ∧
      ¬ (auth.chainID ≠ 0 ∧ ctx.chainID ≠ auth.chainID) := by
  unfold validateAuthorization at valid
  split_ifs at valid with chain noWrap
  split at valid
  · cases valid
  · rename_i recovered
    dsimp only at valid
    split_ifs at valid with hasCode mismatch
    cases valid
    simp only [Accounts.addAddressToAccessList_code, Accounts.addAddressToAccessList_nonce,
      not_and, Decidable.not_not, not_not] at hasCode mismatch
    refine ⟨recovered, ?_, mismatch, noWrap, chain⟩
    by_cases empty : acc.code authority = []
    · exact .inl empty
    · exact .inr (Option.ne_none_iff_isSome.mp (hasCode (by simpa using empty)))

/-- An authorization that passes the chain, overflow and signature checks, for an
authority whose code is still replaceable but whose nonce has moved, fails on the
nonce. -/
theorem validateAuthorization_mismatch {auth : Authorization} {acc : Accounts} {authority : Address}
    (chain : ¬ (auth.chainID ≠ 0 ∧ ctx.chainID ≠ auth.chainID)) (noWrap : ¬ auth.nonce + 1 < auth.nonce)
    (recovered : ctx.authority auth = some authority) (delegable : Delegable (acc.code authority))
    (moved : acc.nonce authority ≠ auth.nonce) :
    (validateAuthorization ctx auth acc).1 = .error .nonceMismatch := by
  have replaceable : ¬ ((acc.code authority).length ≠ 0 ∧ parseDelegation (acc.code authority) = none) := by
    rintro ⟨nonEmpty, none⟩
    rcases delegable with empty | some
    · exact nonEmpty (by rw [empty]; rfl)
    · rw [none] at some; exact absurd some (by decide)
  simp only [validateAuthorization, if_neg chain, if_neg noWrap, recovered,
    Accounts.addAddressToAccessList_code, Accounts.addAddressToAccessList_nonce, if_neg replaceable,
    if_pos moved]

/-- What a valid authorization leaves: the authority's nonce one past the
authorization's, its code a designator or none, and every other account as it was. -/
theorem applyAuthorization_valid {auth : Authorization} {acc : Accounts} {authority : Address}
    (valid : (validateAuthorization ctx auth acc).1 = .ok authority) :
    ((applyAuthorization p ctx auth acc).2.nonce authority).toNat = auth.nonce.toNat + 1 ∧
      Delegable ((applyAuthorization p ctx auth acc).2.code authority) ∧
      ∀ a, a ≠ authority → (applyAuthorization p ctx auth acc).2.code a = acc.code a ∧
        (applyAuthorization p ctx auth acc).2.nonce a = acc.nonce a := by
  obtain ⟨-, -, -, noWrap, -⟩ := validateAuthorization_ok valid
  have succ := toNat_succ_of_not_lt noWrap
  obtain ⟨code, nonce⟩ := @validateAuthorization_state ctx auth acc
  unfold applyAuthorization
  rcases validated : validateAuthorization ctx auth acc with ⟨_ | authority', acc'⟩
  · simp [validated] at valid
  · simp only [validated] at valid code nonce
    cases valid
    dsimp only
    refine ⟨?_, ?_, fun a other => ?_⟩
    · split_ifs <;> simp [succ]
    · split_ifs <;> simp [delegable_nil, delegable_addressToDelegation]
    · split_ifs <;> simp [Function.update_noteq other, code, nonce]

/-- A refused authorization changes nothing but the access list. -/
theorem applyAuthorization_refused {auth : Authorization} {acc : Accounts} {e : AuthError}
    (refused : (validateAuthorization ctx auth acc).1 = .error e) :
    (applyAuthorization p ctx auth acc).2.code = acc.code ∧
      (applyAuthorization p ctx auth acc).2.nonce = acc.nonce := by
  obtain ⟨code, nonce⟩ := @validateAuthorization_state ctx auth acc
  unfold applyAuthorization
  rcases validated : validateAuthorization ctx auth acc with ⟨_ | authority, acc'⟩
  · simp only [validated] at code nonce
    exact ⟨code, nonce⟩
  · simp [validated] at refused

/-- An authorization leaves an account as it was, unless it was accepted for it. -/
theorem applyAuthorization_at (auth : Authorization) (acc : Accounts) (a : Address) :
    ((applyAuthorization p ctx auth acc).2.code a = acc.code a ∧
        (applyAuthorization p ctx auth acc).2.nonce a = acc.nonce a) ∨
      (validateAuthorization ctx auth acc).1 = .ok a := by
  rcases validated : (validateAuthorization ctx auth acc).1 with e | authority
  · obtain ⟨code, nonce⟩ := applyAuthorization_refused (p := p) validated
    exact .inl ⟨congrFun code a, congrFun nonce a⟩
  · by_cases same : a = authority
    · exact .inr (same ▸ rfl)
    · exact .inl ((applyAuthorization_valid (p := p) validated).2.2 a same)

/-- One authorization raises at most its authority's nonce, and by one. -/
theorem applyAuthorization_nonce (auth : Authorization) (acc : Accounts) (a : Address) :
    ((applyAuthorization p ctx auth acc).2.nonce a).toNat ≤
      (acc.nonce a).toNat + if ctx.authority auth = some a then 1 else 0 := by
  rcases applyAuthorization_at (p := p) auth acc a with ⟨-, same⟩ | accepted
  · rw [same]
    omega
  · obtain ⟨recovered, -, signed, -, -⟩ := validateAuthorization_ok accepted
    obtain ⟨up, -, -⟩ := applyAuthorization_valid (p := p) accepted
    rw [up, if_pos recovered, signed]

/-! ## Whole runs -/

/-- How the loop may change one account: not at all, or from no code or a designator
to no code or a designator, with a larger nonce. -/
def AccountStep (acc acc' : Accounts) (a : Address) : Prop :=
  (acc'.code a = acc.code a ∧ acc'.nonce a = acc.nonce a) ∨
    (Delegable (acc.code a) ∧ Delegable (acc'.code a) ∧ (acc.nonce a).toNat < (acc'.nonce a).toNat)

theorem AccountStep.refl (acc : Accounts) (a : Address) : AccountStep acc acc a := .inl ⟨rfl, rfl⟩

theorem AccountStep.trans {acc acc' acc'' : Accounts} {a : Address} (first : AccountStep acc acc' a)
    (second : AccountStep acc' acc'' a) : AccountStep acc acc'' a := by
  rcases first with ⟨code, nonce⟩ | ⟨from₁, to₁, up₁⟩ <;>
    rcases second with ⟨code', nonce'⟩ | ⟨from₂, to₂, up₂⟩
  · exact .inl ⟨code'.trans code, nonce'.trans nonce⟩
  · exact .inr ⟨code ▸ from₂, to₂, nonce ▸ up₂⟩
  · exact .inr ⟨from₁, code' ▸ to₁, nonce' ▸ up₁⟩
  · exact .inr ⟨from₁, to₂, up₁.trans up₂⟩

theorem AccountStep.nonce_le {acc acc' : Accounts} {a : Address} (step : AccountStep acc acc' a) :
    (acc.nonce a).toNat ≤ (acc'.nonce a).toNat := by
  rcases step with ⟨-, nonce⟩ | ⟨-, -, up⟩
  · rw [nonce]
  · exact up.le

theorem applyAuthorization_step (auth : Authorization) (acc : Accounts) (a : Address) :
    AccountStep acc (applyAuthorization p ctx auth acc).2 a := by
  rcases validated : (validateAuthorization ctx auth acc).1 with e | authority
  · obtain ⟨code, nonce⟩ := applyAuthorization_refused (p := p) validated
    exact .inl ⟨congrFun code a, congrFun nonce a⟩
  · obtain ⟨-, delegable, nonce, -, -⟩ := validateAuthorization_ok validated
    obtain ⟨up, delegable', others⟩ := applyAuthorization_valid (p := p) validated
    by_cases same : a = authority
    · subst same
      exact .inr ⟨delegable, delegable', by rw [up, nonce]; omega⟩
    · exact .inl (others a same)

@[simp] theorem applyAuthorizations_nil (acc : Accounts) : applyAuthorizations p ctx [] acc = acc := rfl

@[simp] theorem applyAuthorizations_cons (auth : Authorization) (rest : List Authorization)
    (acc : Accounts) :
    applyAuthorizations p ctx (auth :: rest) acc =
      applyAuthorizations p ctx rest (applyAuthorization p ctx auth acc).2 := rfl

theorem applyAuthorizations_append (pre post : List Authorization) (acc : Accounts) :
    applyAuthorizations p ctx (pre ++ post) acc =
      applyAuthorizations p ctx post (applyAuthorizations p ctx pre acc) := by
  induction pre generalizing acc with
  | nil => rfl
  | cons auth pre ih => exact ih _

/-- Over any authorization list, every account keeps its code and nonce, or goes from
no code or a designator to no code or a designator with a larger nonce. -/
theorem applyAuthorizations_step (auths : List Authorization) (acc : Accounts) (a : Address) :
    AccountStep acc (applyAuthorizations p ctx auths acc) a := by
  induction auths generalizing acc with
  | nil => exact .refl acc a
  | cons auth rest ih => exact (applyAuthorization_step auth acc a).trans (ih _)

/-- Every account the loop changes signed an authorization of the list that names this
chain or every chain and carries the account's nonce from before the loop. -/
theorem applyAuthorizations_authorized (auths : List Authorization) (acc : Accounts) (a : Address)
    (changed : ¬ ((applyAuthorizations p ctx auths acc).code a = acc.code a ∧
      (applyAuthorizations p ctx auths acc).nonce a = acc.nonce a)) :
    ∃ auth ∈ auths, ctx.authority auth = some a ∧ auth.nonce = acc.nonce a ∧
      ¬ (auth.chainID ≠ 0 ∧ ctx.chainID ≠ auth.chainID) := by
  induction auths generalizing acc with
  | nil => exact absurd ⟨rfl, rfl⟩ changed
  | cons auth rest ih =>
    rcases applyAuthorization_at (p := p) auth acc a with ⟨code, nonce⟩ | accepted
    · rw [applyAuthorizations_cons, ← code, ← nonce] at changed
      obtain ⟨auth', listed, recovered, signed, chain⟩ := ih _ changed
      exact ⟨auth', List.mem_cons_of_mem _ listed, recovered, signed.trans nonce, chain⟩
    · obtain ⟨recovered, -, signed, -, chain⟩ := validateAuthorization_ok accepted
      exact ⟨auth, List.mem_cons_self _ _, recovered, signed.symm, chain⟩

/-- Over any authorization list, an account's nonce rises by at most one per
authorization that recovers to it. -/
theorem applyAuthorizations_nonce (auths : List Authorization) (acc : Accounts) (a : Address) :
    ((applyAuthorizations p ctx auths acc).nonce a).toNat ≤
      (acc.nonce a).toNat + auths.countP (fun auth => ctx.authority auth = some a) := by
  induction auths generalizing acc with
  | nil => simp
  | cons auth rest ih =>
    have first := @applyAuthorization_nonce p ctx auth acc a
    have later := ih (applyAuthorization p ctx auth acc).2
    rw [applyAuthorizations_cons, List.countP_cons]
    by_cases signer : ctx.authority auth = some a
    · simp only [signer, if_true, decide_True, ↓reduceIte] at first ⊢
      omega
    · simp only [signer, if_false, decide_False, Bool.false_eq_true, ↓reduceIte] at first ⊢
      omega

/-- An authorization that was applied is refused with a nonce mismatch on every state
the loop reaches after it: an authorization is never applied twice, in one list or
when the list is replayed on the state it left. -/
theorem applied_rejected_after (pre post : List Authorization) (auth : Authorization)
    (acc : Accounts) {authority : Address}
    (applied : (validateAuthorization ctx auth (applyAuthorizations p ctx pre acc)).1 = .ok authority) :
    (validateAuthorization ctx auth (applyAuthorizations p ctx (pre ++ auth :: post) acc)).1 =
      .error .nonceMismatch := by
  obtain ⟨recovered, -, -, noWrap, chain⟩ := validateAuthorization_ok applied
  obtain ⟨up, delegable, -⟩ := applyAuthorization_valid (p := p) applied
  rw [applyAuthorizations_append, applyAuthorizations_cons]
  have later := @applyAuthorizations_step p ctx post
    (applyAuthorization p ctx auth (applyAuthorizations p ctx pre acc)).2 authority
  refine validateAuthorization_mismatch chain noWrap recovered ?_ ?_
  · rcases later with ⟨code, -⟩ | ⟨-, delegable', -⟩
    · exact code ▸ delegable
    · exact delegable'
  · intro same
    have := later.nonce_le
    rw [same, up] at this
    omega

/-- An authorization of a delegation to `target`, with nonce 0 and for every chain,
recovered to `authority`, is applied on a fresh state and refused on the state it
leaves. -/
theorem applied_rejected_after_replayed :
    let authority : Address := ⟨List.replicate 20 1, rfl⟩
    let target : Address := ⟨List.replicate 20 2, rfl⟩
    let ctx : AuthContext := ⟨2020, fun _ => some authority, 12500⟩
    let auth : Authorization := ⟨0, target, 0, 0, 0, 0⟩
    let fresh : Accounts := ⟨fun _ => 0, fun _ => [], fun _ => false, 0, []⟩
    (validateAuthorization ctx auth (applyAuthorizations protocolParams ctx [] fresh)).1 = .ok authority ∧
      (validateAuthorization ctx auth (applyAuthorizations protocolParams ctx ([] ++ auth :: []) fresh)).1 =
        .error .nonceMismatch := by
  intro authority target ctx auth fresh
  have applied : (validateAuthorization ctx auth
      (applyAuthorizations protocolParams ctx [] fresh)).1 = .ok authority := rfl
  exact ⟨applied, applied_rejected_after [] [] auth fresh applied⟩

/-- Warming the delegation target changes no code and no nonce, so what `prepareCall`
leaves is what its loop leaves, from the state with the sender's nonce raised. -/
theorem prepareCall_loop (msg : Message) (toAddress : Address) (acc : Accounts) :
    let loop := applyAuthorizations p ctx (msg.authList.getD [])
      (acc.setNonce msg.sender (acc.nonce msg.sender + 1))
    (prepareCall p ctx msg toAddress acc).code = loop.code ∧
      (prepareCall p ctx msg toAddress acc).nonce = loop.nonce := by
  unfold prepareCall
  dsimp only
  split <;> simp

/-- `prepareCall` leaves the sender's nonce above where it was, when it could be raised:
the loop starts from the raised nonce and never lowers one. -/
theorem prepareCall_sender_nonce (msg : Message) (toAddress : Address) (acc : Accounts)
    (noWrap : (acc.nonce msg.sender).toNat + 1 < 2 ^ 64) :
    (acc.nonce msg.sender).toNat + 1 ≤ ((prepareCall p ctx msg toAddress acc).nonce msg.sender).toNat := by
  have bumped : ((acc.setNonce msg.sender (acc.nonce msg.sender + 1)).nonce msg.sender).toNat =
      (acc.nonce msg.sender).toNat + 1 := by
    rw [Accounts.setNonce_nonce, Function.update_same]
    exact toNat_add_of_le (by simp; omega)
  have looped := (@applyAuthorizations_step p ctx (msg.authList.getD [])
    (acc.setNonce msg.sender (acc.nonce msg.sender + 1)) msg.sender).nonce_le
  rw [bumped] at looped
  rw [(prepareCall_loop msg toAddress acc).2]
  exact looped

/-- What the account steps before a call do, for every message and state: the sender's
nonce rises (when it can), the sender's code changes only from no code or a
designator to no code or a designator, and every other account changes only as the
authorization loop allows, so no account with contract code is touched. -/
theorem prepareCall_accounts (msg : Message) (toAddress : Address) (acc : Accounts)
    (noWrap : (acc.nonce msg.sender).toNat + 1 < 2 ^ 64) :
    (acc.nonce msg.sender).toNat < ((prepareCall p ctx msg toAddress acc).nonce msg.sender).toNat ∧
      ((prepareCall p ctx msg toAddress acc).code msg.sender = acc.code msg.sender ∨
        Delegable (acc.code msg.sender) ∧
          Delegable ((prepareCall p ctx msg toAddress acc).code msg.sender)) ∧
      ∀ a, a ≠ msg.sender → AccountStep acc (prepareCall p ctx msg toAddress acc) a := by
  obtain ⟨code, nonce⟩ := @prepareCall_loop p ctx msg toAddress acc
  set start := acc.setNonce msg.sender (acc.nonce msg.sender + 1)
  refine ⟨prepareCall_sender_nonce msg toAddress acc noWrap, ?_, fun a other => ?_⟩
  · rw [code]
    rcases @applyAuthorizations_step p ctx _ start msg.sender with ⟨same, -⟩ | ⟨from', to', -⟩
    · exact .inl same
    · exact .inr ⟨from', to'⟩
  · have step := @applyAuthorizations_step p ctx (msg.authList.getD []) start a
    simp only [AccountStep, start, Accounts.setNonce_code, Accounts.setNonce_nonce,
      Function.update_noteq other] at step
    simpa only [AccountStep, code, nonce] using step

/-- Every account whose code the steps before a call change, and every account other
than the sender whose nonce they change, signed an authorization of the message that
names this chain or every chain and carries the account's nonce from before the call,
plus one for the sender, whose nonce the call raises first. -/
theorem prepareCall_authorized (msg : Message) (toAddress : Address) (acc : Accounts) (a : Address)
    (changed : (prepareCall p ctx msg toAddress acc).code a ≠ acc.code a ∨
      (a ≠ msg.sender ∧ (prepareCall p ctx msg toAddress acc).nonce a ≠ acc.nonce a)) :
    ∃ auth ∈ msg.authList.getD [], ctx.authority auth = some a ∧
      ¬ (auth.chainID ≠ 0 ∧ ctx.chainID ≠ auth.chainID) ∧
      auth.nonce = if a = msg.sender then acc.nonce a + 1 else acc.nonce a := by
  obtain ⟨code, nonce⟩ := @prepareCall_loop p ctx msg toAddress acc
  set start := acc.setNonce msg.sender (acc.nonce msg.sender + 1)
  have bumped : start.nonce a = if a = msg.sender then acc.nonce a + 1 else acc.nonce a := by
    by_cases sender : a = msg.sender
    · subst sender; simp [start]
    · simp [start, Function.update_noteq sender, sender]
  have moved : ¬ ((applyAuthorizations p ctx (msg.authList.getD []) start).code a = start.code a ∧
      (applyAuthorizations p ctx (msg.authList.getD []) start).nonce a = start.nonce a) := by
    rintro ⟨sameCode, sameNonce⟩
    rcases changed with codeChanged | ⟨other, nonceChanged⟩
    · exact codeChanged (by rw [code, sameCode, Accounts.setNonce_code])
    · exact nonceChanged (by rw [nonce, sameNonce, bumped, if_neg other])
  obtain ⟨auth, listed, recovered, signed, chain⟩ := applyAuthorizations_authorized _ _ _ moved
  exact ⟨auth, listed, recovered, chain, signed.trans bumped⟩

/-- The steps before a call raise an account's nonce by at most one per authorization of
the message that recovers to it, and one more for the sender: no other nonce moves,
and no authorization raises a nonce twice. -/
theorem prepareCall_nonce (msg : Message) (toAddress : Address) (acc : Accounts) (a : Address) :
    ((prepareCall p ctx msg toAddress acc).nonce a).toNat ≤ (acc.nonce a).toNat +
      (if a = msg.sender then 1 else 0) +
      (msg.authList.getD []).countP (fun auth => ctx.authority auth = some a) := by
  have loop := @applyAuthorizations_nonce p ctx (msg.authList.getD [])
    (acc.setNonce msg.sender (acc.nonce msg.sender + 1)) a
  have bumped : ((acc.setNonce msg.sender (acc.nonce msg.sender + 1)).nonce a).toNat ≤
      (acc.nonce a).toNat + if a = msg.sender then 1 else 0 := by
    by_cases sender : a = msg.sender
    · subst sender
      simp only [Accounts.setNonce_nonce, Function.update_same, if_true, toNat_add_u64]
      exact Nat.mod_le _ _
    · simp only [Accounts.setNonce_nonce, Function.update_noteq sender, sender, if_false]
      omega
  rw [(prepareCall_loop msg toAddress acc).2]
  omega

/-- A sender calls `target` carrying its own authorization of a delegation to `target`,
at nonce 1 (its nonce plus one, as the raised nonce requires), on a fresh state. -/
theorem prepareCall_accounts_self_delegation :
    let sender : Address := ⟨List.replicate 20 1, rfl⟩
    let target : Address := ⟨List.replicate 20 2, rfl⟩
    let ctx : AuthContext := ⟨2020, fun _ => some sender, 12500⟩
    let msg : Message := ⟨sender, some target, 1, 1, 1, 50000, 0, [], none, sender, 0, none,
      some [⟨2020, target, 1, 0, 0, 0⟩]⟩
    let fresh : Accounts := ⟨fun _ => 0, fun _ => [], fun _ => false, 0, []⟩
    (fresh.nonce msg.sender).toNat + 1 < 2 ^ 64 ∧
      (fresh.nonce msg.sender).toNat <
          ((prepareCall protocolParams ctx msg target fresh).nonce msg.sender).toNat ∧
        ((prepareCall protocolParams ctx msg target fresh).code msg.sender = fresh.code msg.sender ∨
          Delegable (fresh.code msg.sender) ∧
            Delegable ((prepareCall protocolParams ctx msg target fresh).code msg.sender)) ∧
        ∀ a, a ≠ msg.sender → AccountStep fresh (prepareCall protocolParams ctx msg target fresh) a :=
  ⟨by decide, prepareCall_accounts _ _ _ (by decide)⟩

/-- In the same call, the sender's code changes, and the authorization behind it is the
sender's, for chain 2020, with its nonce plus one. -/
theorem prepareCall_authorized_self_delegation :
    let sender : Address := ⟨List.replicate 20 1, rfl⟩
    let target : Address := ⟨List.replicate 20 2, rfl⟩
    let ctx : AuthContext := ⟨2020, fun _ => some sender, 12500⟩
    let msg : Message := ⟨sender, some target, 1, 1, 1, 50000, 0, [], none, sender, 0, none,
      some [⟨2020, target, 1, 0, 0, 0⟩]⟩
    let fresh : Accounts := ⟨fun _ => 0, fun _ => [], fun _ => false, 0, []⟩
    ((prepareCall protocolParams ctx msg target fresh).code sender ≠ fresh.code sender ∨
        (sender ≠ msg.sender ∧ (prepareCall protocolParams ctx msg target fresh).nonce sender ≠
          fresh.nonce sender)) ∧
      ∃ auth ∈ msg.authList.getD [], ctx.authority auth = some sender ∧
        ¬ (auth.chainID ≠ 0 ∧ ctx.chainID ≠ auth.chainID) ∧
        auth.nonce = if sender = msg.sender then fresh.nonce sender + 1 else fresh.nonce sender := by
  intro sender target ctx msg fresh
  have changed : (prepareCall protocolParams ctx msg target fresh).code sender ≠ fresh.code sender ∨
      (sender ≠ msg.sender ∧ (prepareCall protocolParams ctx msg target fresh).nonce sender ≠
        fresh.nonce sender) := .inl (by decide)
  exact ⟨changed, prepareCall_authorized msg target fresh sender changed⟩

end Ronin.Core
