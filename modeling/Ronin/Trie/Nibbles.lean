import Mathlib.Data.List.Infix
import Mathlib.Data.List.Lex
import Mathlib.Data.List.FinRange
import Mathlib.Order.Fin.Basic

/-!
# Keys as nibble paths

The stack trie navigates by nibbles. `TryUpdate` turns a key's bytes into a
nibble path with `keybytesToHex` (`trie/encoding.go`, outside `src/`; the model
follows go-ethereum's) and chops the terminator nibble 16 at once, so the model keeps
the path without it. Insert compares paths with `getDiffIndex`.

Key order: `LeftOf a b` says that `a` parts from `b` at some nibble where `a`'s is
the smaller one. Strictly increasing, prefix-free byte keys give nibble paths in
this relation (`leftOf_keybytesToHex`), and it is what makes a subtree final: a
node whose path is left of the key being inserted can never be reached again.

Results:
* `getDiffIndex_split`, `getDiffIndex_eq_length`, `getDiffIndex_eq_none`: what the
  index returned by `getDiffIndex` says about the two paths.
* `LeftOf.trans`, `LeftOf.append_left`, `LeftOf.append_right`, `LeftOf.incomparable`,
  `LeftOf.lt`: the order facts the frontier and commit proofs use.
* `leftOf_keybytesToHex`, `keybytesToHex_prefix_mono`: byte keys and their paths are
  ordered, and prefix one another, alike.
-/

namespace Ronin

/-- One half of a key byte. -/
abbrev Nibble := Fin 16

/-- A Go byte slice. -/
abbrev Bytes := List UInt8

/-! ## Bytes to nibbles -/

/-- The high and the low nibble of a byte, high first. -/
def byteNibbles (b : UInt8) : List Nibble :=
  [⟨b.toNat / 16, by have := b.toNat_lt_size; simp only [UInt8.size] at this; omega⟩,
   ⟨b.toNat % 16, Nat.mod_lt _ (by decide)⟩]

/-- `keybytesToHex` (`trie/encoding.go`, not in `src/`) without its terminator nibble: `TryUpdate` chops it right away
(`k = k[:len(k)-1]`). -/
def keybytesToHex (key : Bytes) : List Nibble := key.flatMap byteNibbles

@[simp] theorem keybytesToHex_nil : keybytesToHex [] = [] := rfl

@[simp] theorem keybytesToHex_cons (b : UInt8) (key : Bytes) :
    keybytesToHex (b :: key) = byteNibbles b ++ keybytesToHex key := rfl

@[simp] theorem length_keybytesToHex (key : Bytes) :
    (keybytesToHex key).length = 2 * key.length := by
  induction key with
  | nil => rfl
  | cons b key ih => simp [byteNibbles, ih]; omega

/-- The nibble right after a prefix `p`. -/
@[simp] theorem getElem_append_length {p rest : List Nibble} {a : Nibble}
    (h : p.length < (p ++ a :: rest).length) : (p ++ a :: rest)[p.length] = a := by
  simp [List.getElem_append_right]

/-! ## `getDiffIndex` -/

/-- `stNode.getDiffIndex`: the first index where the node's key `nkey` and `key`
differ, `len(nkey)` when there is none. `none` is the out-of-range panic of
`key[idx]` when `key` ends first. -/
def getDiffIndex : List Nibble → List Nibble → Option Nat
  | [], _ => some 0
  | _ :: _, [] => none
  | n :: nkey, k :: key => if n = k then (getDiffIndex nkey key).map (· + 1) else some 0

theorem getDiffIndex_append_cons {p nkey key : List Nibble} {o n : Nibble} (ne : o ≠ n) :
    getDiffIndex (p ++ o :: nkey) (p ++ n :: key) = some p.length := by
  induction p with
  | nil => simp [getDiffIndex, ne]
  | cons a p ih => simp [getDiffIndex, ih]

theorem getDiffIndex_append (nkey rest : List Nibble) :
    getDiffIndex nkey (nkey ++ rest) = some nkey.length := by
  induction nkey with
  | nil => rfl
  | cons a nkey ih => simp [getDiffIndex, ih]

/-- A mismatch inside the node's key splits both paths at one nibble. -/
theorem getDiffIndex_split {nkey key : List Nibble} {d : Nat}
    (found : getDiffIndex nkey key = some d) (inside : d < nkey.length) :
    ∃ p o n nrest krest, o ≠ n ∧ nkey = p ++ o :: nrest ∧ key = p ++ n :: krest ∧
      d = p.length := by
  induction nkey generalizing key d with
  | nil => simp at inside
  | cons a nkey ih =>
    cases key with
    | nil => simp [getDiffIndex] at found
    | cons b key =>
      by_cases same : a = b
      · subst same
        simp only [getDiffIndex, ↓reduceIte, Option.map_eq_some'] at found
        obtain ⟨d', found', rfl⟩ := found
        obtain ⟨p, o, n, nrest, krest, ne, rfl, rfl, rfl⟩ :=
          ih found' (by simp at inside; omega)
        exact ⟨a :: p, o, n, nrest, krest, ne, rfl, rfl, rfl⟩
      · simp only [getDiffIndex, same, ↓reduceIte, Option.some.injEq] at found
        exact ⟨[], a, b, nkey, key, same, rfl, rfl, found.symm⟩

/-- `getDiffIndex` reaches the end of the node's key exactly when that key is a
prefix of `key`. -/
theorem getDiffIndex_eq_length {nkey key : List Nibble} :
    getDiffIndex nkey key = some nkey.length ↔ ∃ rest, key = nkey ++ rest := by
  constructor
  · intro found
    induction nkey generalizing key with
    | nil => exact ⟨key, rfl⟩
    | cons a nkey ih =>
      cases key with
      | nil => simp [getDiffIndex] at found
      | cons b key =>
        by_cases same : a = b
        · subst same
          simp only [getDiffIndex, ↓reduceIte, Option.map_eq_some', List.length_cons,
            Nat.add_right_cancel_iff, exists_eq_right] at found
          obtain ⟨rest, rfl⟩ := ih found
          exact ⟨rest, rfl⟩
        · simp [getDiffIndex, same] at found
  · rintro ⟨rest, rfl⟩
    exact getDiffIndex_append nkey rest

/-- `getDiffIndex` panics exactly when `key` is a proper prefix of the node's key. -/
theorem getDiffIndex_eq_none {nkey key : List Nibble} :
    getDiffIndex nkey key = none ↔ ∃ rest, rest ≠ [] ∧ nkey = key ++ rest := by
  induction nkey generalizing key with
  | nil => simp [getDiffIndex]
  | cons a nkey ih =>
    cases key with
    | nil => simp [getDiffIndex]
    | cons b key =>
      by_cases same : a = b
      · subst same
        simp [getDiffIndex, ih]
      · simp [getDiffIndex, same, Ne.symm same]

theorem getDiffIndex_le {nkey key : List Nibble} {d : Nat}
    (found : getDiffIndex nkey key = some d) : d ≤ nkey.length := by
  induction nkey generalizing key d with
  | nil => simp [getDiffIndex] at found; omega
  | cons a nkey ih =>
    cases key with
    | nil => simp [getDiffIndex] at found
    | cons b key =>
      by_cases same : a = b
      · simp only [getDiffIndex, same, ↓reduceIte, Option.map_eq_some'] at found
        obtain ⟨d', found', rfl⟩ := found
        simpa using ih found'
      · simp [getDiffIndex, same] at found; omega

/-! ## Paths that part to the left -/

/-- `a` parts from `b` to the left: both run through a common prefix `p`, then
`a` takes a smaller nibble than `b`. -/
def LeftOf (a b : List Nibble) : Prop :=
  ∃ p i j a' b', i < j ∧ a = p ++ i :: a' ∧ b = p ++ j :: b'

namespace LeftOf

variable {a b c : List Nibble}

theorem append_left (left : LeftOf a b) (x : List Nibble) : LeftOf (a ++ x) b := by
  obtain ⟨p, i, j, a', b', lt, rfl, rfl⟩ := left
  exact ⟨p, i, j, a' ++ x, b', lt, by simp, rfl⟩

theorem append_right (left : LeftOf a b) (y : List Nibble) : LeftOf a (b ++ y) := by
  obtain ⟨p, i, j, a', b', lt, rfl, rfl⟩ := left
  exact ⟨p, i, j, a', b' ++ y, lt, rfl, by simp⟩

theorem cons_iff {x y : Nibble} : LeftOf (x :: a) (y :: b) ↔ x < y ∨ (x = y ∧ LeftOf a b) := by
  constructor
  · rintro ⟨p, i, j, a', b', lt, ha, hb⟩
    cases p with
    | nil => simp only [List.nil_append, List.cons.injEq] at ha hb; exact .inl (ha.1 ▸ hb.1 ▸ lt)
    | cons z p =>
      simp only [List.cons_append, List.cons.injEq] at ha hb
      exact .inr ⟨ha.1.trans hb.1.symm, p, i, j, a', b', lt, ha.2, hb.2⟩
  · rintro (lt | ⟨rfl, p, i, j, a', b', lt, rfl, rfl⟩)
    · exact ⟨[], x, y, a, b, lt, rfl, rfl⟩
    · exact ⟨x :: p, i, j, a', b', lt, rfl, rfl⟩

theorem append_cancel (p : List Nibble) : LeftOf (p ++ a) (p ++ b) ↔ LeftOf a b := by
  induction p with
  | nil => rfl
  | cons x p ih => simp [cons_iff, ih]

/-- Where `k ++ rest` parts to the left of `b`: either `b` runs on past `k`, or the
two part inside `k`. -/
theorem append_cases {k rest : List Nibble} (left : LeftOf (k ++ rest) b) :
    (∃ rest', b = k ++ rest' ∧ LeftOf rest rest') ∨
      ∃ p i j a' b', i < j ∧ k = p ++ i :: a' ∧ b = p ++ j :: b' := by
  obtain ⟨p, i, j, a', b', lt, parts, rfl⟩ := left
  rcases List.append_eq_append_iff.mp parts with ⟨x, rfl, rfl⟩ | ⟨c, rfl, tail⟩
  · exact .inl ⟨x ++ j :: b', by simp, x, i, j, a', b', lt, rfl, rfl⟩
  · cases c with
    | nil => exact .inl ⟨j :: b', by simp, [], i, j, a', b', lt, by simpa using tail.symm, rfl⟩
    | cons y c =>
      simp only [List.cons_append, List.cons.injEq] at tail
      exact .inr ⟨p, i, j, c, b', lt, by rw [tail.1], rfl⟩

theorem nil_left : ¬ LeftOf [] b := by
  rintro ⟨p, i, j, a', b', -, ha, -⟩
  simp at ha

theorem nil_right : ¬ LeftOf a [] := by
  rintro ⟨p, i, j, a', b', -, -, hb⟩
  simp at hb

theorem trans (ab : LeftOf a b) (bc : LeftOf b c) : LeftOf a c := by
  induction b generalizing a c with
  | nil => exact absurd ab nil_right
  | cons y b ih =>
    cases a with
    | nil => exact absurd ab nil_left
    | cons x a =>
      cases c with
      | nil => exact absurd bc nil_right
      | cons z c =>
        rw [cons_iff] at ab bc ⊢
        rcases ab with lt | ⟨rfl, ab⟩ <;> rcases bc with lt' | ⟨rfl, bc⟩
        · exact .inl (lt.trans lt')
        · exact .inl lt
        · exact .inl lt'
        · exact .inr ⟨rfl, ih ab bc⟩

theorem irrefl : ¬ LeftOf a a := by
  rintro ⟨p, i, j, a', b', lt, ha, hb⟩
  rw [ha] at hb
  simp only [List.append_cancel_left_eq, List.cons.injEq] at hb
  exact absurd lt (hb.1 ▸ lt_irrefl i)

/-- Neither path of a parting pair is a prefix of the other. -/
theorem incomparable (left : LeftOf a b) : ¬ a <+: b ∧ ¬ b <+: a := by
  obtain ⟨p, i, j, a', b', lt, rfl, rfl⟩ := left
  refine ⟨fun ⟨r, h⟩ => ?_, fun ⟨r, h⟩ => ?_⟩ <;>
  · simp only [List.append_assoc, List.append_cancel_left_eq, List.cons_append,
      List.cons.injEq] at h
    exact absurd lt (by rw [h.1]; exact lt_irrefl _)

/-- Parting to the left is lexicographically smaller. -/
theorem lt (left : LeftOf a b) : a < b := by
  obtain ⟨p, i, j, a', b', lt, rfl, rfl⟩ := left
  induction p with
  | nil => exact List.Lex.rel lt
  | cons x p ih => exact List.Lex.cons ih

end LeftOf

/-! ## Byte keys and their paths -/

theorem UInt8.lt_iff_toNat_lt {a b : UInt8} : a < b ↔ a.toNat < b.toNat := by
  simp [UInt8.lt_def, BitVec.lt_def, UInt8.toNat]

theorem byteNibbles_inj {a b : UInt8} (same : byteNibbles a = byteNibbles b) : a = b := by
  simp only [byteNibbles, List.cons.injEq, Fin.mk.injEq, and_true] at same
  apply UInt8.toNat.inj
  omega

theorem leftOf_byteNibbles {a b : UInt8} (lt : a < b) (x y : List Nibble) :
    LeftOf (byteNibbles a ++ x) (byteNibbles b ++ y) := by
  rw [UInt8.lt_iff_toNat_lt] at lt
  simp only [byteNibbles, List.cons_append, List.nil_append, LeftOf.cons_iff, Fin.mk_lt_mk,
    Fin.mk.injEq]
  by_cases high : a.toNat / 16 < b.toNat / 16
  · exact .inl high
  · exact .inr ⟨by omega, .inl (by omega)⟩

/-- Strictly increasing byte keys, neither a prefix of the other, have paths that
part to the left. -/
theorem leftOf_keybytesToHex {a b : Bytes} (lt : a < b) (notPrefix : ¬ a <+: b) :
    LeftOf (keybytesToHex a) (keybytesToHex b) := by
  induction lt with
  | nil => exact absurd List.nil_prefix notPrefix
  | @cons x _ _ _ ih =>
    simpa [LeftOf.append_cancel] using
      ih (fun pre => notPrefix (List.prefix_cons_inj x |>.mpr pre))
  | rel lt => exact leftOf_byteNibbles lt _ _

theorem keybytesToHex_prefix_mono {a b : Bytes} (pre : a <+: b) :
    keybytesToHex a <+: keybytesToHex b := by
  obtain ⟨r, rfl⟩ := pre
  exact ⟨keybytesToHex r, by simp [keybytesToHex]⟩

end Ronin
