import Ronin.Types.Transaction

/-!
# Intrinsic gas

`IntrinsicGas` charges a transaction before it runs: a base cost, a cost per data
byte (zero and non-zero bytes priced apart), a cost per init-code word for a
contract creation after EIP-3860, and costs per access-list entry, storage key and
authorization. The three data charges are each refused with `ErrGasUintOverflow`
when they would pass `math.MaxUint64`, by a division that cannot wrap; the list
charges are added unguarded.

Results:
* `toWordSize_toNat`: `toWordSize` is the ceiling of `size / 32` on all of uint64,
  also where `size + 31` would wrap.
* `guard_iff`: each overflow guard says exactly that the next partial sum passes
  `MaxUint64`.
* `intrinsicGas_exact`: `IntrinsicGas` fails exactly when the data charge `dataCharge`,
  over unbounded naturals, passes `MaxUint64`; otherwise, when the list charges fit
  too, it returns the exact sum.
-/

namespace Ronin.Core

/-- `math.MaxUint64`. -/
def maxUint64 : UInt64 := 18446744073709551615

/-- The `params` constants the gas accounting reads. `protocol_params.go` is not in
`src/`, so they are parameters; each one the code divides by is positive. -/
structure GasParams where
  txGas : UInt64
  txGasContractCreation : UInt64
  txDataZeroGas : UInt64
  txDataNonZeroGasFrontier : UInt64
  txDataNonZeroGasEIP2028 : UInt64
  initCodeWordGas : UInt64
  txAccessListAddressGas : UInt64
  txAccessListStorageKeyGas : UInt64
  callNewAccountGas : UInt64
  refundQuotient : UInt64
  refundQuotientEIP3529 : UInt64
  blobTxBlobGasPerBlob : Nat
  maxInitCodeSize : Nat
  txDataZeroGas_pos : 0 < txDataZeroGas
  txDataNonZeroGasFrontier_pos : 0 < txDataNonZeroGasFrontier
  txDataNonZeroGasEIP2028_pos : 0 < txDataNonZeroGasEIP2028
  initCodeWordGas_pos : 0 < initCodeWordGas
  refundQuotient_pos : 0 < refundQuotient
  refundQuotientEIP3529_pos : 0 < refundQuotientEIP3529

/-- The mainnet values of these constants in the `params` package, for the worked
cases below. -/
def protocolParams : GasParams where
  txGas := 21000
  txGasContractCreation := 53000
  txDataZeroGas := 4
  txDataNonZeroGasFrontier := 68
  txDataNonZeroGasEIP2028 := 16
  initCodeWordGas := 2
  txAccessListAddressGas := 2400
  txAccessListStorageKeyGas := 1900
  callNewAccountGas := 25000
  refundQuotient := 2
  refundQuotientEIP3529 := 5
  blobTxBlobGasPerBlob := 131072
  maxInitCodeSize := 49152
  txDataZeroGas_pos := by decide
  txDataNonZeroGasFrontier_pos := by decide
  txDataNonZeroGasEIP2028_pos := by decide
  initCodeWordGas_pos := by decide
  refundQuotient_pos := by decide
  refundQuotientEIP3529_pos := by decide

/-- The errors of `core/error.go` the gas accounting returns; the other consensus
checks of `preCheck` are `check` with their text. -/
inductive TxError where
  | gasUintOverflow
  | intrinsicGas
  | gasLimitReached
  | insufficientFunds
  | insufficientPayerFunds
  | insufficientSenderFunds
  | insufficientFundsForTransfer
  | maxInitCodeSizeExceeded
  | check (message : String)
  deriving DecidableEq

/-- `toWordSize`: the number of 32-byte words, saturating where `size + 31` would wrap. -/
def toWordSize (size : UInt64) : UInt64 :=
  if size > maxUint64 - 31 then maxUint64 / 32 + 1 else (size + 31) / 32

/-- The loop counting the non-zero bytes of `data`, in uint64. -/
def nonZeroBytes (data : Bytes) : UInt64 :=
  data.foldl (fun nz byt => if byt ≠ 0 then nz + 1 else nz) 0

/-- One guarded charge of `IntrinsicGas`: add `n * c` to `gas`, unless the sum would
pass `MaxUint64`. The three data charges are this block with their own count and price. -/
def guardedAdd (gas c n : UInt64) : Except TxError UInt64 :=
  if (maxUint64 - gas) / c < n then .error .gasUintOverflow else .ok (gas + n * c)

/-- The data part of `IntrinsicGas` from the starting `gas`: the non-zero byte, zero
byte and init-code word charges. -/
def dataGas (p : GasParams) (data : Bytes) (isContractCreation isEIP2028 isEIP3860 : Bool)
    (gas : UInt64) : Except TxError UInt64 := do
  let dataLen := data.length.toUInt64
  if dataLen > 0 then
    let nz := nonZeroBytes data
    let nonZeroGas := if isEIP2028 then p.txDataNonZeroGasEIP2028 else p.txDataNonZeroGasFrontier
    let gas ← guardedAdd gas nonZeroGas nz
    let z := dataLen - nz
    let gas ← guardedAdd gas p.txDataZeroGas z
    if isContractCreation && isEIP3860 then
      let lenWords := toWordSize dataLen
      guardedAdd gas p.initCodeWordGas lenWords
    else pure gas
  else pure gas

/-- The list part of `IntrinsicGas`: access-list entries, storage keys and
authorizations, added without a guard. -/
def listGas (p : GasParams) (accessList : Option AccessList)
    (authList : Option (List Authorization)) (gas : UInt64) : UInt64 :=
  let gas := match accessList with
    | some al => gas + al.length.toUInt64 * p.txAccessListAddressGas +
        al.storageKeys.toUInt64 * p.txAccessListStorageKeyGas
    | none => gas
  match authList with
  | some auths => gas + auths.length.toUInt64 * p.callNewAccountGas
  | none => gas

/-- `IntrinsicGas`. -/
def intrinsicGas (p : GasParams) (data : Bytes) (accessList : Option AccessList)
    (authList : Option (List Authorization))
    (isContractCreation isHomestead isEIP2028 isEIP3860 : Bool) : Except TxError UInt64 :=
  let gas := if isContractCreation && isHomestead then p.txGasContractCreation else p.txGas
  (dataGas p data isContractCreation isEIP2028 isEIP3860 gas).map (listGas p accessList authList)

/-! ## The charges over unbounded naturals -/

/-- The data charges, over unbounded naturals: non-zero bytes, zero bytes, and the
init-code words of a contract creation after EIP-3860. -/
def dataCost (p : GasParams) (data : Bytes) (isContractCreation isEIP2028 isEIP3860 : Bool) :
    Nat :=
  let nonZeroGas := if isEIP2028 then p.txDataNonZeroGasEIP2028 else p.txDataNonZeroGasFrontier
  let nz := data.countP (· ≠ 0)
  nz * nonZeroGas.toNat + (data.length - nz) * p.txDataZeroGas.toNat +
    if isContractCreation && isEIP3860 then (data.length + 31) / 32 * p.initCodeWordGas.toNat
    else 0

/-- The base cost plus the data charges, over unbounded naturals. -/
def dataCharge (p : GasParams) (data : Bytes)
    (isContractCreation isHomestead isEIP2028 isEIP3860 : Bool) : Nat :=
  (if isContractCreation && isHomestead then p.txGasContractCreation else p.txGas).toNat +
    dataCost p data isContractCreation isEIP2028 isEIP3860

/-- The access-list and authorization charges, over unbounded naturals. -/
def listCharge (p : GasParams) (accessList : Option AccessList)
    (authList : Option (List Authorization)) : Nat :=
  (match accessList with
    | some al => al.length * p.txAccessListAddressGas.toNat +
        al.storageKeys * p.txAccessListStorageKeyGas.toNat
    | none => 0) +
  match authList with
  | some auths => auths.length * p.callNewAccountGas.toNat
  | none => 0

/-! ## uint64 arithmetic -/

theorem toNat_maxUint64 : maxUint64.toNat = 2 ^ 64 - 1 := rfl

theorem toNat_add_u64 (a b : UInt64) : (a + b).toNat = (a.toNat + b.toNat) % 2 ^ 64 :=
  BitVec.toNat_add _ _

theorem toNat_mul_u64 (a b : UInt64) : (a * b).toNat = (a.toNat * b.toNat) % 2 ^ 64 :=
  BitVec.toNat_mul _ _

theorem toNat_toUInt64 (n : Nat) : n.toUInt64.toNat = n % 2 ^ 64 := by
  simp [Nat.toUInt64, UInt64.toNat, UInt64.ofNat]

/-- A uint64 sum that does not pass `MaxUint64` is exact. -/
theorem toNat_add_of_le {a b : UInt64} (fits : a.toNat + b.toNat ≤ 2 ^ 64 - 1) :
    (a + b).toNat = a.toNat + b.toNat := by
  rw [toNat_add_u64, Nat.mod_eq_of_lt (by omega)]

/-- A product of a count and a constant that does not pass `MaxUint64` is exact,
also when the count itself wraps in uint64 (the constant is then 0). -/
theorem toNat_count_mul {n : Nat} {c : UInt64} (fits : n * c.toNat ≤ 2 ^ 64 - 1) :
    (n.toUInt64 * c).toNat = n * c.toNat := by
  rw [toNat_mul_u64, toNat_toUInt64]
  rcases Nat.eq_zero_or_pos c.toNat with zero | pos
  · simp [zero]
  · have small : n < 2 ^ 64 := by
      have := Nat.le_mul_of_pos_right n pos
      omega
    rw [Nat.mod_eq_of_lt small]
    exact Nat.mod_eq_of_lt (by omega)

/-- Adding a count times a constant without passing `MaxUint64` is exact. -/
theorem toNat_add_count_mul {g c : UInt64} {n : Nat} (fits : g.toNat + n * c.toNat ≤ 2 ^ 64 - 1) :
    (g + n.toUInt64 * c).toNat = g.toNat + n * c.toNat := by
  have product := toNat_count_mul (show n * c.toNat ≤ 2 ^ 64 - 1 by omega)
  rw [toNat_add_of_le (by omega), product]

/-- The overflow guard of `IntrinsicGas`: `(MaxUint64 - gas) / c < n` says exactly
that `gas + n * c` passes `MaxUint64`. -/
theorem guard_iff {gas c n : UInt64} (pos : 0 < c) :
    (maxUint64 - gas) / c < n ↔ 2 ^ 64 - 1 < gas.toNat + n.toNat * c.toNat := by
  have bound : gas.toNat < 2 ^ 64 := gas.toNat_lt_size
  have below : gas ≤ maxUint64 := by
    show gas.toNat ≤ maxUint64.toNat
    rw [toNat_maxUint64]; omega
  show ((maxUint64 - gas) / c).toNat < n.toNat ↔ _
  rw [UInt64.toNat_div, UInt64.toNat_sub_of_le _ _ below, toNat_maxUint64,
    Nat.div_lt_iff_lt_mul (show 0 < c.toNat from pos)]
  omega

/-- A guarded charge that passes its guard adds exactly. -/
theorem guarded_add_toNat {gas c n : UInt64} (fits : gas.toNat + n.toNat * c.toNat ≤ 2 ^ 64 - 1) :
    (gas + n * c).toNat = gas.toNat + n.toNat * c.toNat := by
  have product : (n * c).toNat = n.toNat * c.toNat := by
    rw [toNat_mul_u64, Nat.mod_eq_of_lt (by omega)]
  rw [toNat_add_of_le (by omega), product]

/-- `toWordSize` is `⌈size / 32⌉` on every uint64. -/
theorem toWordSize_toNat (size : UInt64) : (toWordSize size).toNat = (size.toNat + 31) / 32 := by
  have bound : size.toNat < 2 ^ 64 := size.toNat_lt_size
  have edge : (maxUint64 - 31).toNat = 2 ^ 64 - 32 := rfl
  unfold toWordSize
  split_ifs with high
  · have high' : 2 ^ 64 - 32 < size.toNat := edge ▸ high
    have saturated : (maxUint64 / 32 + 1).toNat = 2 ^ 59 := rfl
    rw [saturated]
    omega
  · have low : size.toNat ≤ 2 ^ 64 - 32 := by
      have : ¬ (maxUint64 - 31).toNat < size.toNat := high
      omega
    have thirtyOne : (31 : UInt64).toNat = 31 := rfl
    rw [UInt64.toNat_div, toNat_add_of_le (by omega), thirtyOne]
    rfl

/-- The non-zero byte count, on data shorter than 2^64 bytes. -/
theorem nonZeroBytes_toNat {data : Bytes} (short : data.length < 2 ^ 64) :
    (nonZeroBytes data).toNat = data.countP (· ≠ 0) := by
  suffices step : ∀ (rest : Bytes) (nz : UInt64), nz.toNat + rest.length < 2 ^ 64 →
      (rest.foldl (fun nz byt => if byt ≠ 0 then nz + 1 else nz) nz).toNat =
        nz.toNat + rest.countP (· ≠ 0) by
    simpa [nonZeroBytes] using step data 0 (by simpa using short)
  intro rest
  induction rest with
  | nil => simp
  | cons byt rest ih =>
    intro nz room
    simp only [List.length_cons] at room
    by_cases zero : byt = 0
    · have skip : (if byt ≠ 0 then nz + 1 else nz) = nz := by simp [zero]
      rw [List.foldl_cons, skip, ih nz (by omega),
        List.countP_cons_of_neg _ _ (by simp [zero])]
    · have one : (1 : UInt64).toNat = 1 := rfl
      have next : (nz + 1).toNat = nz.toNat + 1 := by
        rw [toNat_add_of_le (by omega), one]
      have count : (if byt ≠ 0 then nz + 1 else nz) = nz + 1 := by simp [zero]
      rw [List.foldl_cons, count, ih (nz + 1) (by omega), next,
        List.countP_cons_of_pos _ _ (by simpa using zero)]
      omega

/-! ## Charges that fail exactly on overflow -/

/-- `r` charges `total`: it fails with `ErrGasUintOverflow` exactly when `total`
passes `MaxUint64`, and otherwise returns `total` exactly. -/
def Charged (r : Except TxError UInt64) (total : Nat) : Prop :=
  (2 ^ 64 - 1 < total ∧ r = .error .gasUintOverflow) ∨
    (total ≤ 2 ^ 64 - 1 ∧ ∃ g, r = .ok g ∧ g.toNat = total)

theorem Charged.congr {r : Except TxError UInt64} {total total' : Nat} (charged : Charged r total)
    (same : total = total') : Charged r total' := same ▸ charged

theorem charged_pure (g : UInt64) : Charged (pure g) g.toNat :=
  .inr ⟨by have : g.toNat < 2 ^ 64 := g.toNat_lt_size; omega, g, rfl, rfl⟩

theorem charged_guardedAdd {gas c : UInt64} (n : UInt64) (pos : 0 < c) :
    Charged (guardedAdd gas c n) (gas.toNat + n.toNat * c.toNat) := by
  unfold guardedAdd
  by_cases over : (maxUint64 - gas) / c < n
  · exact .inl ⟨(guard_iff pos).mp over, by simp [over]⟩
  · have fits := (guard_iff pos).not.mp over
    exact .inr ⟨by omega, _, by simp [over], guarded_add_toNat (by omega)⟩

/-- A charge followed by one that brings the total to `sum` charges `sum`. -/
theorem Charged.bind {r : Except TxError UInt64} {total sum : Nat}
    {k : UInt64 → Except TxError UInt64} (first : Charged r total) (le : total ≤ sum)
    (rest : ∀ g : UInt64, g.toNat = total → Charged (k g) sum) : Charged (r >>= k) sum := by
  rcases first with ⟨over, rfl⟩ | ⟨-, g, rfl, value⟩
  · exact .inl ⟨by omega, rfl⟩
  · exact rest g value

/-! ## The exact charge -/

section Charges

variable (p : GasParams) (data : Bytes) (isContractCreation isHomestead isEIP2028 isEIP3860 : Bool)

/-- The data part charges its start plus `dataCost`. -/
theorem charged_dataGas (short : data.length < 2 ^ 64) (gas : UInt64) :
    Charged (dataGas p data isContractCreation isEIP2028 isEIP3860 gas)
      (gas.toNat + dataCost p data isContractCreation isEIP2028 isEIP3860) := by
  by_cases empty : data = []
  · subst empty
    simpa [dataGas, dataCost] using charged_pure gas
  have lenNat : data.length.toUInt64.toNat = data.length := by
    rw [toNat_toUInt64, Nat.mod_eq_of_lt short]
  have nzNat : (nonZeroBytes data).toNat = data.countP (· ≠ 0) := nonZeroBytes_toNat short
  have nzLe : data.countP (· ≠ 0) ≤ data.length := List.countP_le_length _
  have zNat : (data.length.toUInt64 - nonZeroBytes data).toNat =
      data.length - data.countP (· ≠ 0) := by
    have le : nonZeroBytes data ≤ data.length.toUInt64 := by
      show (nonZeroBytes data).toNat ≤ data.length.toUInt64.toNat
      rw [lenNat, nzNat]; exact nzLe
    rw [UInt64.toNat_sub_of_le _ _ le, lenNat, nzNat]
  have nonempty : data.length.toUInt64 > 0 := by
    show 0 < data.length.toUInt64.toNat
    rw [lenNat]; exact List.length_pos.mpr empty
  have nzgPos : 0 < (if isEIP2028 then p.txDataNonZeroGasEIP2028 else p.txDataNonZeroGasFrontier) := by
    split
    · exact p.txDataNonZeroGasEIP2028_pos
    · exact p.txDataNonZeroGasFrontier_pos
  simp only [dataGas, nonempty, if_true]
  refine (charged_guardedAdd (nonZeroBytes data) nzgPos).bind
    (by simp only [dataCost, nzNat]; omega) fun g₁ value₁ => ?_
  refine (charged_guardedAdd _ p.txDataZeroGas_pos).bind
    (by simp only [dataCost, value₁, nzNat, zNat]; omega) fun g₂ value₂ => ?_
  split
  · rename_i creation
    refine (charged_guardedAdd _ p.initCodeWordGas_pos).congr ?_
    simp only [dataCost, creation, if_true, value₂, value₁, nzNat, zNat, toWordSize_toNat, lenNat]
    omega
  · rename_i noCreation
    refine (charged_pure g₂).congr ?_
    simp only [dataCost, noCreation, value₂, value₁, nzNat, zNat]
    simp
    omega

/-- Without wrap, the list part adds `listCharge`. -/
theorem listGas_toNat (accessList : Option AccessList) (authList : Option (List Authorization))
    {gas : UInt64} (fits : gas.toNat + listCharge p accessList authList ≤ 2 ^ 64 - 1) :
    (listGas p accessList authList gas).toNat = gas.toNat + listCharge p accessList authList := by
  unfold listGas listCharge at *
  cases accessList with
  | none =>
    cases authList with
    | none => simp
    | some auths =>
      dsimp only at fits ⊢
      rw [toNat_add_count_mul (by omega)]
      omega
  | some al =>
    dsimp only at fits
    have listed : (gas + al.length.toUInt64 * p.txAccessListAddressGas +
        al.storageKeys.toUInt64 * p.txAccessListStorageKeyGas).toNat =
        gas.toNat + (al.length * p.txAccessListAddressGas.toNat +
          al.storageKeys * p.txAccessListStorageKeyGas.toNat) := by
      rw [toNat_add_count_mul, toNat_add_count_mul] <;> (try rw [toNat_add_count_mul]) <;> omega
    cases authList with
    | none => simpa using listed
    | some auths =>
      dsimp only at fits ⊢
      rw [toNat_add_count_mul, listed] <;> (try rw [listed]) <;> omega

/-- `IntrinsicGas` fails with `ErrGasUintOverflow` exactly when the data charge passes
`MaxUint64`; when the list charges fit as well, it returns the exact sum. -/
theorem intrinsicGas_exact (accessList : Option AccessList) (authList : Option (List Authorization))
    (short : data.length < 2 ^ 64) :
    (intrinsicGas p data accessList authList isContractCreation isHomestead isEIP2028 isEIP3860 =
        .error .gasUintOverflow ↔
      2 ^ 64 - 1 < dataCharge p data isContractCreation isHomestead isEIP2028 isEIP3860) ∧
    (dataCharge p data isContractCreation isHomestead isEIP2028 isEIP3860 +
        listCharge p accessList authList ≤ 2 ^ 64 - 1 →
      ∃ gas, intrinsicGas p data accessList authList isContractCreation isHomestead isEIP2028
          isEIP3860 = .ok gas ∧
        gas.toNat = dataCharge p data isContractCreation isHomestead isEIP2028 isEIP3860 +
          listCharge p accessList authList) := by
  have charged := charged_dataGas p data isContractCreation isEIP2028 isEIP3860 short
    (if isContractCreation && isHomestead then p.txGasContractCreation else p.txGas)
  dsimp only [intrinsicGas]
  rcases charged with ⟨over, failed⟩ | ⟨fits, g, done, value⟩
  · refine ⟨⟨fun _ => over, fun _ => by rw [failed]; rfl⟩, fun room => absurd room ?_⟩
    unfold dataCharge
    omega
  · refine ⟨⟨fun failed => ?_, fun over => absurd fits (by unfold dataCharge at over; omega)⟩,
      fun room => ⟨listGas p accessList authList g, by rw [done]; rfl, ?_⟩⟩
    · rw [done] at failed
      cases failed
    · rw [listGas_toNat p accessList authList (by rw [value]; exact room), value]
      rfl

/-- A contract creation after Shanghai with one non-zero and one zero data byte:
`53000 + 16 + 4 + 2`. -/
theorem intrinsicGas_exact_init_code :
    ([1, 0] : Bytes).length < 2 ^ 64 ∧
    (intrinsicGas protocolParams [1, 0] none none true true true true = .error .gasUintOverflow ↔
      2 ^ 64 - 1 < dataCharge protocolParams [1, 0] true true true true) ∧
    (dataCharge protocolParams [1, 0] true true true true + listCharge protocolParams none none ≤
        2 ^ 64 - 1 →
      ∃ gas, intrinsicGas protocolParams [1, 0] none none true true true true = .ok gas ∧
        gas.toNat = dataCharge protocolParams [1, 0] true true true true +
          listCharge protocolParams none none) :=
  ⟨by decide, intrinsicGas_exact protocolParams [1, 0] true true true true none none (by decide)⟩

example : intrinsicGas protocolParams [1, 0] none none true true true true = .ok 53022 := rfl

end Charges

end Ronin.Core
