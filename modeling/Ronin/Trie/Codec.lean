import Ronin.Trie.Nibbles

/-!
# The node codec

What `hash` serialises: paths in the hex-prefix ("compact") form, nodes as
recursive-length-prefix lists. `hexToCompactInPlace`, `shortNode.encode`,
`fullNode.encode`, the RLP writer, `common.BytesToHash` and `types.EmptyRootHash`
are repository code outside `src/` (`trie/encoding.go`, `trie/node_enc.go`, `rlp`,
`common`, `core/types`): the definitions below follow go-ethereum's, whose formats
are fixed bit for bit, and each says so. Keccak-256 is not modelled: every result
takes the hash function as a parameter, with the one property the code relies on,
that a digest is 32 bytes long (`Hash`).
-/

namespace Ronin

/-- `common.Hash`: exactly 32 bytes. -/
structure Hash where
  bytes : Bytes
  length_eq : bytes.length = 32
deriving DecidableEq

/-- `common.BytesToHash` (not in `src/`): the last 32 bytes, left-padded with zeros. -/
def bytesToHash (b : Bytes) : Hash :=
  ⟨List.replicate (32 - b.length) 0 ++ b.drop (b.length - 32), by simp; omega⟩

@[simp] theorem bytesToHash_bytes (h : Hash) : bytesToHash h.bytes = h := by
  cases h with
  | mk bytes length_eq => simp [bytesToHash, length_eq]

/-- `types.EmptyRootHash` (not in `src/`), the Keccak-256 of the RLP of the empty string. -/
def emptyRoot : Hash :=
  ⟨[0x56, 0xe8, 0x1f, 0x17, 0x1b, 0xcc, 0x55, 0xa6, 0xff, 0x83, 0x45, 0xe6, 0x92, 0xc0, 0xf8,
    0x6e, 0x5b, 0x48, 0xe0, 0x1b, 0x99, 0x6c, 0xad, 0xc0, 0x01, 0x62, 0x2f, 0xb5, 0xe3, 0x63,
    0xb4, 0x21], rfl⟩

/-! ## Compact paths -/

/-- Nibble pairs packed high-then-low into bytes. -/
def packNibbles : List Nibble → Bytes
  | a :: b :: rest => UInt8.ofNat (16 * a.val + b.val) :: packNibbles rest
  | _ => []

/-- `hexToCompact` (`trie/encoding.go`, not in `src/`): the prefix byte `(leaf << 5) | (odd << 4) | (odd ? first : 0)`,
then the remaining nibbles in pairs. `terminated` is whether the path ends in the
terminator 16, which `hash` appends to a leaf's key and never to an extension's. -/
def hexToCompact (hex : List Nibble) (terminated : Bool) : Bytes :=
  let flag := if terminated then 0x20 else 0
  match hex with
  | [] => [UInt8.ofNat flag]
  | n :: rest =>
    if hex.length % 2 = 1 then UInt8.ofNat (flag + 0x10 + n.val) :: packNibbles rest
    else UInt8.ofNat flag :: packNibbles hex

example : hexToCompact [10, 0] true = [0x20, 0xa0] := by decide
example : hexToCompact [1] false = [0x11] := by decide

/-! ## Recursive-length prefix -/

/-- The big-endian bytes of `n`, without leading zeros. -/
def bigEndian (n : Nat) : Bytes :=
  if n = 0 then [] else bigEndian (n / 256) ++ [UInt8.ofNat (n % 256)]
decreasing_by omega

/-- An RLP header for `len` payload bytes (`rlp`, not in `src/`): one byte up to 55,
else the length of the length and the length itself. -/
def encodeLength (offset len : Nat) : Bytes :=
  if len ≤ 55 then [UInt8.ofNat (offset + len)]
  else UInt8.ofNat (offset + 55 + (bigEndian len).length) :: bigEndian len

/-- `EncoderBuffer.WriteBytes` (`rlp`, not in `src/`): a single byte below `0x80` is its
own encoding. -/
def rlpString (b : Bytes) : Bytes :=
  match b with
  | [x] => if x < 0x80 then [x] else encodeLength 0x80 1 ++ [x]
  | _ => encodeLength 0x80 b.length ++ b

/-- `EncoderBuffer.List` / `ListEnd` (`rlp`, not in `src/`) around items already encoded
into `payload`. -/
def rlpList (payload : Bytes) : Bytes := encodeLength 0xc0 payload.length ++ payload

/-! ## Node encodings -/

/-- The node values the encoder is handed: `rawNode`, an inline child's own
encoding, written as is; `hashNode`, a child's digest; `valueNode`, a leaf's value
(`nilValueNode` for an empty branch slot). -/
inductive EncNode where
  | rawNode (blob : Bytes)
  | hashNode (digest : Bytes)
  | valueNode (value : Bytes)
deriving DecidableEq

/-- `node.encode` (`trie/node_enc.go`, not in `src/`) for the three node values. -/
def EncNode.encode : EncNode → Bytes
  | .rawNode blob => blob
  | .hashNode digest => rlpString digest
  | .valueNode value => rlpString value

/-- `shortNode.encode` (`trie/node_enc.go`, not in `src/`): the list
`[compact key, value]`. -/
def shortNodeEncode (key : Bytes) (val : EncNode) : Bytes :=
  rlpList (rlpString key ++ val.encode)

/-- `fullNode.encode` (`trie/node_enc.go`, not in `src/`): sixteen children and the
empty value slot. -/
def fullNodeEncode (children : Fin 16 → EncNode) : Bytes :=
  rlpList ((List.finRange 16).flatMap (fun i => (children i).encode) ++ rlpString [])

example : shortNodeEncode (hexToCompact [10, 0] true) (.valueNode [1]) = [0xc4, 0x82, 0x20, 0xa0, 0x01] := by
  decide

end Ronin
