import Ronin.Trie.StackTrieLemmas
import Ronin.Trie.MptInsert

/-!
# The stack trie refines the canonical trie

A stack trie node stands for a canonical trie (`StNode.Represents`) when it is
that trie with some subtrees hashed away, each `hashedNode` holding exactly the
value its subtree hashes to. Hashing such a node computes the canonical encoding
(`hash_represents`), and a successful `insert` is a successful `Trie.insert` on
what the node stands for (`insert_represents`): the eager hashing only ever
replaces a subtree by its own hash.

Results:
* `hash_represents`: `hash` leaves the value the canonical subtree hashes to.
* `insert_represents`: the simulation of one insert.
* `tryUpdateAll_represents`: a run without panic builds the canonical trie of the
  pairs inserted, and no key of the run conflicts with an earlier one.
* `Hash_eq_mptRoot`: `Hash` then returns the canonical root.
-/

namespace Ronin

section Refinement

variable (keccak : Bytes → Ronin.Hash)

/-- The value a node below the root keeps once its subtree `t` is hashed: the
encoding when shorter than 32 bytes, else its digest. -/
def Trie.hashedVal (t : Trie) : Bytes :=
  if (t.blob keccak).length < 32 then t.blob keccak else (keccak (t.blob keccak)).bytes

mutual
/-- `n` is `t` with some subtrees hashed away; a hashed subtree keeps the value
its part of `t` hashes to. -/
def StNode.Represents : StNode → Trie → Prop
  | .hashedNode v, t => v = t.hashedVal keccak
  | .leafNode k v, .leaf k' v' => k = k' ∧ v = v'
  | .extNode k c, .ext k' c' => k = k' ∧ c.Represents c'
  | .branchNode children, .branch children' =>
    ∀ i, StNode.OptRepresents (children i) (children' i)
  | _, _ => False
/-- `Represents` between branch slots: nil for nil. -/
def StNode.OptRepresents : Option StNode → Option Trie → Prop
  | none, none => True
  | some n, some t => n.Represents t
  | _, _ => False
end

/-- The root stands for `mpt`: the empty node for the empty trie, otherwise an
unhashed node standing for it. -/
def StNode.RepresentsRoot (n : StNode) : Option Trie → Prop
  | none => n = .emptyNode
  | some t => n.Represents keccak t ∧ n.isHashed = false

/-- The pairs of a run with their keys as nibble paths. -/
def keyPaths (kvs : List (Bytes × Bytes)) : List (List Nibble × Bytes) :=
  kvs.map fun kv => (keybytesToHex kv.1, kv.2)

namespace StNode

variable {keccak}

@[simp] theorem optRepresents_none_left {o : Option Trie} :
    OptRepresents keccak none o ↔ o = none := by
  cases o <;> simp [OptRepresents]

@[simp] theorem optRepresents_some_left {n : StNode} {o : Option Trie} :
    OptRepresents keccak (some n) o ↔ ∃ t, o = some t ∧ n.Represents keccak t := by
  cases o <;> simp [OptRepresents]

theorem represents_over {p : List Nibble} {n : StNode} {t : Trie} (rep : n.Represents keccak t) :
    (over p n).Represents keccak (Trie.over p t) := by
  by_cases empty : p = []
  · simpa [over, Trie.over, empty] using rep
  · simpa [over, Trie.over, empty, Represents] using rep

theorem represents_splitBranch {o m : Nibble} {a b : StNode} {ta tb : Trie}
    (repa : a.Represents keccak ta) (repb : b.Represents keccak tb) :
    (StackTrie.splitBranch o a m b).Represents keccak (Trie.fork o ta m tb) := by
  simp only [StackTrie.splitBranch, Trie.fork, Represents]
  intro i
  by_cases atNew : i = m
  · subst atNew; simpa using repb
  · by_cases atOld : i = o
    · subst atOld; simpa [atNew] using repa
    · simp [atNew, atOld, OptRepresents]

end StNode

/-- Referring to a hashed child by its value is referring to the child's encoding. -/
theorem hashedRef_hashedVal (t : Trie) :
    hashedRef (t.hashedVal keccak) = childRef keccak (t.blob keccak) := by
  unfold Trie.hashedVal childRef hashedRef
  split_ifs with short long <;> simp_all [(keccak _).length_eq]

namespace StackTrie

variable {keccak} (st : StackTrie)

/-- `hash` computes the canonical encoding: the node ends up holding what its
canonical subtree hashes to at `path`. -/
theorem hash_represents {n : StNode} {t : Trie} (rep : n.Represents keccak t) (wf : t.WF)
    {path : List Nibble} (below : path ≠ [] ∨ n.isHashed = false) :
    (st.hash keccak n path).1 = .hashedNode
      (if (t.blob keccak).length < 32 ∧ path ≠ [] then t.blob keccak
        else (keccak (t.blob keccak)).bytes) := by
  induction n generalizing t path with
  | emptyNode => cases t <;> simp [StNode.Represents] at rep
  | hashedNode v =>
    simp only [StNode.Represents] at rep
    subst rep
    have nonempty : path ≠ [] := by simpa [StNode.isHashed] using below
    simp [Trie.hashedVal, nonempty]
  | leafNode k v =>
    cases t <;> simp only [StNode.Represents] at rep
    obtain ⟨rfl, rfl⟩ := rep
    simp [hash, commit_val, Trie.blob]
  | extNode k c ih =>
    cases t <;> simp only [StNode.Represents] at rep
    rename_i k' c'
    obtain ⟨rfl, rep⟩ := rep
    obtain ⟨nonempty, -, wfc⟩ := wf
    have child := @ih _ rep wfc (path ++ k) (.inl (by simp [nonempty]))
    simp only [hash, child, StNode.val_hashedNode, commit_val, Trie.blob]
    simp [nonempty, ← hashedRef_hashedVal, Trie.hashedVal]
  | branchNode children ih =>
    cases t <;> simp only [StNode.Represents] at rep
    rename_i children'
    have slots : (fun i => (st.hashChild keccak (children i) (path ++ [i])).1) =
        fun i => Trie.optRef keccak (children' i) := by
      funext i
      have slot := rep i
      cases found : children i with
      | none =>
        rw [found, StNode.optRepresents_none_left] at slot
        simp [hashChild, slot, Trie.optRef]
      | some c =>
        rw [found, StNode.optRepresents_some_left] at slot
        obtain ⟨c', found', repc⟩ := slot
        have child := @ih i c found _ repc (wf.branch_child found') (path ++ [i]) (.inl (by simp))
        simp [hashChild, child, found', Trie.optRef, ← hashedRef_hashedVal, Trie.hashedVal]
    simp only [hash, commit_val, Trie.blob, slots]

/-- Below the root, a hashed node stands for the subtree it was hashed from. -/
theorem represents_hash {n : StNode} {t : Trie} (rep : n.Represents keccak t) (wf : t.WF)
    {path : List Nibble} (nonempty : path ≠ []) :
    (st.hash keccak n path).1.Represents keccak t := by
  rw [hash_represents st rep wf (.inl nonempty)]
  simp [StNode.Represents, Trie.hashedVal, nonempty]

/-- The elder-sibling loop keeps every slot standing for what it stood for. -/
theorem hashElder_represents {children : Fin 16 → Option StNode}
    {children' : Fin 16 → Option Trie} (rep : ∀ i, StNode.OptRepresents keccak (children i) (children' i))
    (wf : (Trie.branch children').WF) (idx : Fin 16) (path : List Nibble) :
    ∀ i, StNode.OptRepresents keccak ((st.hashElder keccak children idx path).1 i) (children' i) := by
  rcases st.hashElder_cases keccak children idx path with same | ⟨j, c, -, -, found, -, same⟩
  · simpa [same] using rep
  · intro i
    rw [same]
    by_cases slot : i = j
    · subst slot
      have := rep i
      rw [found, StNode.optRepresents_some_left] at this
      obtain ⟨c', found', repc⟩ := this
      simpa [found'] using st.represents_hash repc (wf.branch_child found') (by simp)
    · simpa [slot] using rep i

/-- One insert, simulated: if the stack trie does not panic, the canonical insert
succeeds and the new node stands for its result. -/
theorem insert_represents {n : StNode} {t : Trie} (rep : n.Represents keccak t) (wf : t.WF)
    {key : List Nibble} {value : Bytes} {path : List Nibble}
    (ok : (st.insert keccak n key value path).panic = none) :
    ∃ t', t.insert key value = some t' ∧ (st.insert keccak n key value path).node.Represents keccak t' := by
  induction n generalizing t key path with
  | emptyNode => cases t <;> simp [StNode.Represents] at rep
  | hashedNode v => simp at ok
  | leafNode nkey val =>
    cases t <;> simp only [StNode.Represents] at rep
    obtain ⟨rfl, rfl⟩ := rep
    by_cases split : ∃ p o m kr keyr, o ≠ m ∧ nkey = p ++ o :: kr ∧ key = p ++ m :: keyr
    · obtain ⟨p, o, m, kr, keyr, ne, rfl, rfl⟩ := split
      refine ⟨_, Trie.insert_leaf.mpr ⟨p, o, m, kr, keyr, ne, rfl, rfl, rfl⟩, ?_⟩
      rw [insert_leafNode_split _ _ ne]
      exact StNode.represents_over (StNode.represents_splitBranch
        (st.represents_hash
          (show (StNode.leafNode kr val).Represents keccak (.leaf kr val) by simp [StNode.Represents])
          trivial (by simp)) (by simp [StNode.Represents]))
    · obtain ⟨e, stuck⟩ := st.insert_leafNode_stuck keccak val value path split
      simp [stuck] at ok
  | extNode nkey child ih =>
    cases t <;> simp only [StNode.Represents] at rep
    rename_i k' c'
    obtain ⟨rfl, rep⟩ := rep
    obtain ⟨nonempty, isBranch, wfc⟩ := wf
    by_cases full : ∃ rest, key = nkey ++ rest
    · obtain ⟨rest, rfl⟩ := full
      rw [insert_extNode_full] at ok ⊢
      obtain ⟨c'', ins, repc⟩ := ih rep wfc ok
      exact ⟨_, Trie.insert_ext.mpr (.inl ⟨rest, c'', rfl, ins, rfl⟩), ⟨rfl, repc⟩⟩
    · by_cases split : ∃ p o m kr keyr, o ≠ m ∧ nkey = p ++ o :: kr ∧ key = p ++ m :: keyr
      · obtain ⟨p, o, m, kr, keyr, ne, rfl, rfl⟩ := split
        refine ⟨_, Trie.insert_ext.mpr (.inr ⟨p, o, m, kr, keyr, ne, rfl, rfl, rfl⟩), ?_⟩
        rw [insert_extNode_split _ _ ne]
        exact StNode.represents_over (StNode.represents_splitBranch
          (st.represents_hash (StNode.represents_over rep) (Trie.over_wf isBranch wfc) (by simp))
          (by simp [StNode.Represents]))
      · obtain ⟨e, stuck⟩ := st.insert_extNode_stuck keccak child value path full split
        simp [stuck] at ok
  | branchNode children ih =>
    cases t <;> simp only [StNode.Represents] at rep
    rename_i children'
    cases key with
    | nil => simp at ok
    | cons idx rest =>
      rw [insert_branchNode_cons] at ok ⊢
      have elder := st.hashElder_represents rep wf idx path
      have slot := rep idx
      cases found : children idx with
      | none =>
        rw [found, StNode.optRepresents_none_left] at slot
        refine ⟨_, Trie.insert_branch.mpr ⟨idx, rest, .leaf rest value, rfl, by simp [slot], rfl⟩,
          fun i => ?_⟩
        by_cases at_idx : i = idx
        · subst at_idx; simp [found, StNode.Represents]
        · simpa [at_idx] using elder i
      | some c =>
        rw [found, StNode.optRepresents_some_left] at slot
        obtain ⟨c', found', repc⟩ := slot
        simp only [found, insertChild_some] at ok ⊢
        obtain ⟨c'', ins, repc'⟩ := ih idx c found repc (wf.branch_child found') ok
        refine ⟨_, Trie.insert_branch.mpr ⟨idx, rest, c'', rfl, by simpa [found'] using ins, rfl⟩,
          fun i => ?_⟩
        by_cases at_idx : i = idx
        · subst at_idx; simpa using repc'
        · simpa [at_idx] using elder i

/-- A successful insert never leaves a hashed node behind. -/
theorem insert_not_hashed {n : StNode} {key : List Nibble} {value : Bytes} {path : List Nibble}
    (ok : (st.insert keccak n key value path).panic = none) :
    (st.insert keccak n key value path).node.isHashed = false := by
  cases n with
  | emptyNode => simp [StNode.isHashed]
  | hashedNode v => simp at ok
  | branchNode children =>
    cases key with
    | nil => simp at ok
    | cons idx rest => simp [insert_branchNode_cons, StNode.isHashed]
  | extNode nkey child =>
    by_cases full : ∃ rest, key = nkey ++ rest
    · obtain ⟨rest, rfl⟩ := full
      simp [insert_extNode_full, StNode.isHashed]
    · by_cases split : ∃ p o m kr keyr, o ≠ m ∧ nkey = p ++ o :: kr ∧ key = p ++ m :: keyr
      · obtain ⟨p, o, m, kr, keyr, ne, rfl, rfl⟩ := split
        rw [insert_extNode_split _ _ ne]
        by_cases empty : p = [] <;> simp [StNode.over, splitBranch, empty, StNode.isHashed]
      · obtain ⟨e, stuck⟩ := st.insert_extNode_stuck keccak child value path full split
        simp [stuck] at ok
  | leafNode nkey val =>
    by_cases split : ∃ p o m kr keyr, o ≠ m ∧ nkey = p ++ o :: kr ∧ key = p ++ m :: keyr
    · obtain ⟨p, o, m, kr, keyr, ne, rfl, rfl⟩ := split
      rw [insert_leafNode_split _ _ ne]
      by_cases empty : p = [] <;> simp [StNode.over, splitBranch, empty, StNode.isHashed]
    · obtain ⟨e, stuck⟩ := st.insert_leafNode_stuck keccak val value path split
      simp [stuck] at ok

/-! ## Whole runs -/

/-- `TryUpdate`, simulated: a call that does not panic inserts the key's nibble
path into the canonical trie the root stands for. -/
theorem tryUpdate_represents {mpt : Option Trie} {kvs : List (List Nibble × Bytes)}
    (rep : st.root.RepresentsRoot keccak mpt) (canonical : IsMpt mpt kvs) {key value : Bytes}
    (ok : (st.tryUpdate keccak key value).2.2 = none) :
    ∃ t', Trie.optInsert mpt (keybytesToHex key) value = some t' ∧
      (st.tryUpdate keccak key value).1.root.RepresentsRoot keccak (some t') := by
  by_cases empty : value = []
  · simp [tryUpdate, empty] at ok
  simp only [tryUpdate, empty, if_false] at ok ⊢
  cases mpt with
  | none =>
    simp only [StNode.RepresentsRoot] at rep
    simp [rep, StNode.RepresentsRoot, StNode.Represents, StNode.isHashed]
  | some t =>
    obtain ⟨rep, -⟩ := rep
    obtain ⟨t', ins, rep'⟩ := insert_represents _ rep canonical.1 ok
    exact ⟨t', by simpa using ins, rep', insert_not_hashed _ ok⟩

/-- A run of `TryUpdate` calls that does not panic keeps the root standing for the
canonical trie of every pair inserted so far, and no key conflicts with an earlier one. -/
theorem tryUpdateAll_represents {mpt : Option Trie} {done : List (List Nibble × Bytes)}
    (rep : st.root.RepresentsRoot keccak mpt) (canonical : IsMpt mpt done)
    (apart : (done.map Prod.fst).Pairwise fun a b => ¬ a <+: b ∧ ¬ b <+: a)
    (kvs : List (Bytes × Bytes)) (ok : (st.tryUpdateAll keccak kvs).2.2 = none) :
    ∃ mpt', IsMpt mpt' (done ++ keyPaths kvs) ∧
      ((done ++ keyPaths kvs).map Prod.fst).Pairwise (fun a b => ¬ a <+: b ∧ ¬ b <+: a) ∧
      (st.tryUpdateAll keccak kvs).1.root.RepresentsRoot keccak mpt' := by
  induction kvs generalizing st mpt done with
  | nil => exact ⟨mpt, by simpa [keyPaths] using canonical, by simpa [keyPaths] using apart, rep⟩
  | cons kv rest ih =>
    simp only [tryUpdateAll] at ok ⊢
    cases found : (st.tryUpdate keccak kv.1 kv.2).2.2 with
    | some p => simp [found] at ok
    | none =>
      simp only [found] at ok ⊢
      obtain ⟨t', ins, rep'⟩ := st.tryUpdate_represents rep canonical found
      have apart' : ((done ++ [(keybytesToHex kv.1, kv.2)]).map Prod.fst).Pairwise
          fun a b => ¬ a <+: b ∧ ¬ b <+: a := by
        simp only [List.map_append, List.pairwise_append, List.map_cons, List.map_nil,
          List.pairwise_singleton, List.mem_singleton, List.mem_map, true_and, apart]
        rintro _ ⟨e, mem, rfl⟩ _ rfl
        exact IsMpt.no_conflict canonical ins e mem
      simpa [keyPaths] using ih _ rep' (IsMpt.insert canonical ins) apart' ok

/-- `Hash` of a root standing for a canonical trie returns that trie's root hash. -/
theorem Hash_eq_mptRoot {mpt : Option Trie} {kvs : List (List Nibble × Bytes)}
    (rep : st.root.RepresentsRoot keccak mpt) (canonical : IsMpt mpt kvs) :
    (st.Hash keccak).2.1 = mptRoot keccak mpt := by
  cases mpt with
  | none =>
    simp only [StNode.RepresentsRoot] at rep
    simp [Hash, rep, hash, mptRoot]
  | some t =>
    obtain ⟨rep, notHashed⟩ := rep
    simp [Hash, hash_represents st rep canonical.1 (.inr notHashed), mptRoot]

/-- From a fresh stack trie: a run that does not panic leaves keys that pairwise
diverge, and `Hash` returns the root of the canonical trie of its pairs. -/
theorem tryUpdateAll_Hash (options : StackTrieOptions) (kvs : List (Bytes × Bytes))
    (ok : ((newStackTrie options).tryUpdateAll keccak kvs).2.2 = none) :
    ((keyPaths kvs).map Prod.fst).Pairwise (fun a b => ¬ a <+: b ∧ ¬ b <+: a) ∧
      ∃ mpt, IsMpt mpt (keyPaths kvs) ∧
        (((newStackTrie options).tryUpdateAll keccak kvs).1.Hash keccak).2.1 = mptRoot keccak mpt := by
  obtain ⟨mpt, canonical, apart, rep⟩ :=
    @tryUpdateAll_represents keccak (newStackTrie options) none []
      (by simp [StNode.RepresentsRoot, newStackTrie]) (by simp [IsMpt]) (by simp) kvs ok
  simp only [List.nil_append] at canonical apart
  exact ⟨apart, mpt, canonical, Hash_eq_mptRoot _ rep canonical⟩

/-- A run that does not panic returns the canonical root, and its keys are pairwise
distinct and prefix-free, whatever their order. -/
theorem hash_canonical_of_no_panic (options : StackTrieOptions) (kvs : List (Bytes × Bytes))
    (ok : ((newStackTrie options).tryUpdateAll keccak kvs).2.2 = none) :
    (kvs.map Prod.fst).Pairwise (fun a b => a ≠ b ∧ ¬ a <+: b ∧ ¬ b <+: a) ∧
      ∃ mpt, IsMpt mpt (keyPaths kvs) ∧
        (((newStackTrie options).tryUpdateAll keccak kvs).1.Hash keccak).2.1 = mptRoot keccak mpt := by
  obtain ⟨apart, root⟩ := tryUpdateAll_Hash options kvs ok
  refine ⟨?_, root⟩
  simp only [keyPaths, List.map_map, List.pairwise_map, Function.comp_def] at apart ⊢
  refine apart.imp fun {a b} ⟨ab, ba⟩ => ⟨?_, ?_, ?_⟩
  · intro same; exact ab (by rw [same])
  · exact fun pre => ab (keybytesToHex_prefix_mono pre)
  · exact fun pre => ba (keybytesToHex_prefix_mono pre)

/-- Two keys under one extension, with `bytesToHash` standing in for Keccak-256. -/
theorem hash_canonical_two_keys :
    ((newStackTrie {}).tryUpdateAll bytesToHash [([0x10], [1]), ([0x12], [2])]).2.2 = none ∧
      ([[0x10], [0x12]] : List Bytes).Pairwise (fun a b => a ≠ b ∧ ¬ a <+: b ∧ ¬ b <+: a) ∧
      ∃ mpt, IsMpt mpt (keyPaths [([0x10], [1]), ([0x12], [2])]) ∧
        (((newStackTrie {}).tryUpdateAll bytesToHash [([0x10], [1]), ([0x12], [2])]).1.Hash
          bytesToHash).2.1 = mptRoot bytesToHash mpt :=
  ⟨by decide, @hash_canonical_of_no_panic bytesToHash {} [([0x10], [1]), ([0x12], [2])] (by decide)⟩

end StackTrie

end Refinement

end Ronin
