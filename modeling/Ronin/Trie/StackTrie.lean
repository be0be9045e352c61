import Ronin.Trie.Codec

/-!
# The stack trie

A model of `trie/stacktrie.go`, function for function. A node is `stNode` as the
sum type its `typ` field tags, so the `invalid type` panics cannot arise; the node
pool only recycles memory and is left out. Go mutates nodes in place: here every
function returns the node it leaves behind. The writer, cleaner and boundary gauge
are callbacks, so their calls are recorded, in order, as `Event`s. A Go panic keeps
every change made before it; `insert` returns those changes together with the
panic, which is what lets a proof see that a panicking call changed nothing.

Keccak-256 is the parameter `keccak`.
-/

namespace Ronin

/-- `stNode` with its `typ` as the constructor. An extension keeps its one child in
`children[0]` in Go, a branch all sixteen. -/
inductive StNode where
  | emptyNode
  | branchNode (children : Fin 16 → Option StNode)
  | extNode (key : List Nibble) (child : StNode)
  | leafNode (key : List Nibble) (val : Bytes)
  | hashedNode (val : Bytes)

namespace StNode

/-- Induction with one case per constructor; the branch case may use every present child. -/
@[elab_as_elim, induction_eliminator]
theorem induction {motive : StNode → Prop} (emptyNode : motive .emptyNode)
    (branchNode : ∀ children, (∀ i c, children i = some c → motive c) →
      motive (.branchNode children))
    (extNode : ∀ key child, motive child → motive (.extNode key child))
    (leafNode : ∀ key val, motive (.leafNode key val)) (hashedNode : ∀ val, motive (.hashedNode val))
    (n : StNode) : motive n :=
  StNode.rec (motive_2 := fun o => ∀ c, o = some c → motive c) emptyNode
    (fun children ih => branchNode children ih) extNode leafNode hashedNode
    (fun _ h => nomatch h) (fun _ ih _ h => Option.some.inj h ▸ ih) n

/-- The `val` field: a leaf's value, a hashed node's digest or inline encoding. -/
def val : StNode → Bytes
  | .leafNode _ v => v
  | .hashedNode v => v
  | _ => []

/-- `typ == hashedNode`. -/
def isHashed : StNode → Bool
  | .hashedNode _ => true
  | _ => false

end StNode

/-- `StackTrieOptions`. The writer and the cleaner are callbacks: the model records
whether each is set and logs their calls. -/
structure StackTrieOptions where
  writer : Bool := false
  cleaner : Bool := false
  skipLeftBoundary : Bool := false
  skipRightBoundary : Bool := false
  boundaryGauge : Bool := false
deriving DecidableEq

/-- `NewStackTrieOptions`: nothing set. -/
def newStackTrieOptions : StackTrieOptions := {}

/-- A call into the options' callbacks. -/
inductive Event where
  | write (path : List Nibble) (hash : Hash) (blob : Bytes)
  | clean (path : List Nibble)
  | boundaryInc
deriving DecidableEq

/-- The panics of `TryUpdate` and `insert`. -/
inductive Panic where
  | deletionNotSupported
  | insertIntoHash
  | existingKey
  | indexOutOfRange
deriving DecidableEq

/-- The panic values, as the source spells them; an out-of-range index is a Go
runtime error. -/
def Panic.message : Panic → String
  | .deletionNotSupported => "deletion not supported"
  | .insertIntoHash => "trying to insert into hash"
  | .existingKey => "Trying to insert into existing key"
  | .indexOutOfRange => "runtime error: index out of range"

/-- `StackTrie`: the options, the root, and the first and last inserted paths
(`nil` until the first insert). -/
structure StackTrie where
  options : StackTrieOptions
  root : StNode
  first : Option (List Nibble)
  last : Option (List Nibble)

/-- `NewStackTrie`; a nil options argument is `newStackTrieOptions`. -/
def newStackTrie (options : StackTrieOptions) : StackTrie := ⟨options, .emptyNode, none, none⟩

/-- `Reset`: fresh options, a fresh root, no boundary paths. -/
def StackTrie.reset (_ : StackTrie) : StackTrie := newStackTrie newStackTrieOptions

/-- The `first` slot of the `nodeIndex` loop: `elderSibling children idx` is the
first non-nil slot among `idx - 1, ..., 0`. -/
def elderSibling (children : Fin 16 → Option StNode) : Nat → Option (Fin 16)
  | 0 => none
  | i + 1 =>
    if h : i < 16 then
      if (children ⟨i, h⟩).isSome then some ⟨i, h⟩ else elderSibling children i
    else elderSibling children i

/-- How `hash` refers to a hashed child by its `val`: `rawNode` when shorter than 32
bytes, `hashNode` otherwise. -/
def hashedRef (val : Bytes) : EncNode := if val.length < 32 then .rawNode val else .hashNode val

namespace StackTrie

section Hashing

variable (keccak : Bytes → Ronin.Hash)

/-- `boundaryGauge.Inc(1)`, when a gauge is set. -/
def gaugeInc (t : StackTrie) : List Event := if t.options.boundaryGauge then [.boundaryInc] else []

/-- The calls `hash` makes for a node it commits at `path` with digest `digest`:
none without a writer; a gauge increment for a node on a skipped boundary (a prefix
of `first`, or of `last`); otherwise the cleaner on the dangling `internal` paths,
then the writer. -/
def emit (t : StackTrie) (path : List Nibble) (digest blob : Bytes)
    (internal : List (List Nibble)) : List Event :=
  if !t.options.writer then []
  else if t.options.skipLeftBoundary ∧ path <+: t.first.getD [] then t.gaugeInc
  else if t.options.skipRightBoundary ∧ path <+: t.last.getD [] then t.gaugeInc
  else internal.map .clean ++ [.write path (bytesToHash digest) blob]

/-- The end of `hash` once the node is encoded as `blob`: a blob shorter than 32
bytes below the root stays inline and is not committed; any other node keeps its
digest and is committed. Returns the node's new `val` and the calls made. -/
def commit (t : StackTrie) (path : List Nibble) (blob : Bytes) (internal : List (List Nibble)) :
    Bytes × List Event :=
  if blob.length < 32 ∧ path ≠ [] then (blob, [])
  else ((keccak blob).bytes, t.emit path (keccak blob).bytes blob internal)

mutual
/-- `hash`: hash the node at `path` bottom-up, committing as it goes; the node
becomes a `hashedNode`. -/
def hash (t : StackTrie) : StNode → List Nibble → StNode × List Event
  | .emptyNode, _ => (.hashedNode emptyRoot.bytes, [])
  | .hashedNode val, _ => (.hashedNode val, [])
  | .leafNode key val, path =>
    let r := t.commit keccak path (shortNodeEncode (hexToCompact key true) (.valueNode val)) []
    (.hashedNode r.1, r.2)
  | .extNode key child, path =>
    let c := t.hash child (path ++ key)
    let internal := if 32 ≤ c.1.val.length ∧ t.options.cleaner = true then
      (List.range' 1 (key.length - 1)).map fun i => path ++ key.take i else []
    let r := t.commit keccak path (shortNodeEncode (hexToCompact key false) (hashedRef c.1.val)) internal
    (.hashedNode r.1, c.2 ++ r.2)
  | .branchNode children, path =>
    let cs := fun i => t.hashChild (children i) (path ++ [i])
    let r := t.commit keccak path (fullNodeEncode fun i => (cs i).1) []
    (.hashedNode r.1, (List.finRange 16).flatMap (fun i => (cs i).2) ++ r.2)
/-- One slot of the branch loop of `hash`: `nilValueNode` for a nil child, else the
child hashed and referred to by its `val`. -/
def hashChild (t : StackTrie) : Option StNode → List Nibble → EncNode × List Event
  | none, _ => (.valueNode [], [])
  | some c, path =>
    let r := t.hash c path
    (hashedRef r.1.val, r.2)
end

/-- The elder-sibling loop of `insert`: the nearest non-nil child left of `idx` is
hashed, unless it already is. -/
def hashElder (t : StackTrie) (children : Fin 16 → Option StNode) (idx : Fin 16)
    (path : List Nibble) : (Fin 16 → Option StNode) × List Event :=
  match elderSibling children idx.val with
  | none => (children, [])
  | some i =>
    match children i with
    | none => (children, [])
    | some c =>
      if c.isHashed then (children, [])
      else
        let r := t.hash keccak c (path ++ [i])
        (Function.update children i (some r.1), r.2)

/-- What `insert` leaves behind: the node, the calls made, and the panic that cut it
short, if any. -/
structure InsertResult where
  node : StNode
  events : List Event
  panic : Option Panic

/-- The branch a split creates: `origIdx` holds `orig`, `newIdx` the new leaf. -/
def splitBranch (origIdx : Nibble) (orig : StNode) (newIdx : Nibble) (leaf : StNode) : StNode :=
  .branchNode (Function.update (Function.update (fun _ => none) origIdx (some orig)) newIdx
    (some leaf))

mutual
/-- `insert`: put `(key, value)` under the node at `path`, `key` being what is left
of the path. A branch first hashes its elder sibling; a leaf or an extension whose
key parts from `key` is split, and the part that keeps the old content is hashed at
once. -/
def insert (t : StackTrie) : StNode → List Nibble → Bytes → List Nibble → InsertResult
  | .branchNode children, [], _, _ => ⟨.branchNode children, [], some .indexOutOfRange⟩
  | .branchNode children, idx :: rest, value, path =>
    let elder := t.hashElder keccak children idx path
    -- the elder loop touches slots below `idx` only, so this is `st.children[idx]` after it
    let r := t.insertChild (children idx) rest value (path ++ [idx])
    ⟨.branchNode (Function.update elder.1 idx (some r.node)), elder.2 ++ r.events, r.panic⟩
  | .extNode nkey child, key, value, path =>
    match getDiffIndex nkey key with
    | none => ⟨.extNode nkey child, [], some .indexOutOfRange⟩
    | some d =>
      if d = nkey.length then
        let r := t.insert child (key.drop d) value (path ++ key.take d)
        ⟨.extNode nkey r.node, r.events, r.panic⟩
      else
        match nkey[d]?, key[d]? with
        | some origIdx, some newIdx =>
          let n := if d < nkey.length - 1 then
              t.hash keccak (.extNode (nkey.drop (d + 1)) child) (path ++ nkey.take (d + 1))
            else t.hash keccak child (path ++ nkey)
          let p := splitBranch origIdx n.1 newIdx (.leafNode (key.drop (d + 1)) value)
          ⟨if d = 0 then p else .extNode (nkey.take d) p, n.2, none⟩
        | _, _ => ⟨.extNode nkey child, [], some .indexOutOfRange⟩
  | .leafNode nkey val, key, value, path =>
    match getDiffIndex nkey key with
    | none => ⟨.leafNode nkey val, [], some .indexOutOfRange⟩
    | some d =>
      if nkey.length ≤ d then ⟨.leafNode nkey val, [], some .existingKey⟩
      else
        match nkey[d]?, key[d]? with
        | some origIdx, some newIdx =>
          let o := t.hash keccak (.leafNode (nkey.drop (d + 1)) val) (path ++ nkey.take (d + 1))
          let p := splitBranch origIdx o.1 newIdx (.leafNode (key.drop (d + 1)) value)
          ⟨if d = 0 then p else .extNode (nkey.take d) p, o.2, none⟩
        | _, _ => ⟨.leafNode nkey val, [], some .indexOutOfRange⟩
  | .emptyNode, key, value, _ => ⟨.leafNode key value, [], none⟩
  | .hashedNode val, _, _, _ => ⟨.hashedNode val, [], some .insertIntoHash⟩
/-- The slot `idx` of a branch: `newLeaf` when it is nil, else `insert` into it. -/
def insertChild (t : StackTrie) : Option StNode → List Nibble → Bytes → List Nibble →
    InsertResult
  | none, key, value, _ => ⟨.leafNode key value, [], none⟩
  | some c, key, value, path => t.insert c key value path
end

/-- `TryUpdate`: record the first and the last path, then insert at the root. -/
def tryUpdate (t : StackTrie) (key value : Bytes) : StackTrie × List Event × Option Panic :=
  let k := keybytesToHex key
  if value = [] then (t, [], some .deletionNotSupported)
  else
    let t₁ := { t with first := some (t.first.getD k), last := some k }
    let r := t₁.insert keccak t₁.root k value []
    ({ t₁ with root := r.node }, r.events, r.panic)

/-- `Hash` (and `Commit`, which is the same): hash the root at the empty path and
return its digest. -/
def Hash (t : StackTrie) : StackTrie × Ronin.Hash × List Event :=
  let r := t.hash keccak t.root []
  ({ t with root := r.1 }, bytesToHash r.1.val, r.2)

/-- `TryUpdate` on each pair in turn, stopping at the first panic. -/
def tryUpdateAll (t : StackTrie) : List (Bytes × Bytes) → StackTrie × List Event × Option Panic
  | [] => (t, [], none)
  | kv :: rest =>
    let r := t.tryUpdate keccak kv.1 kv.2
    match r.2.2 with
    | some p => (r.1, r.2.1, some p)
    | none =>
      let r' := tryUpdateAll r.1 rest
      (r'.1, r.2.1 ++ r'.2.1, r'.2.2)

end Hashing

end StackTrie

end Ronin
