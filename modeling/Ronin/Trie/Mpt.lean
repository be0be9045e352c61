import Ronin.Trie.Codec

/-!
# The canonical Merkle Patricia trie

The abstract side of the stack trie: what it builds, independently of how.
A `Trie` is a tree of leaves, extensions and 16-way branches with nothing
hashed away. Its meaning is its list of entries; its canonical shape (`WF`) is
the compressed one: an extension has a non-empty key over a branch, a branch
has at least two children. `IsMpt mpt kvs` says that `mpt` is the canonical trie
of the pairs `kvs`, and the root hash of a set of pairs is `mptRoot` of it.

Results:
* `IsMpt.unique`: a set of pairs has at most one canonical trie, so "the root of
  the set" is well defined whatever order the pairs come in.
* `mem_entries_leaf`, `mem_entries_ext`, `mem_entries_branch`: the entry lists,
  one constructor at a time.
-/

namespace Ronin

/-- A Merkle Patricia trie node with every subtree present. -/
inductive Trie where
  | leaf (key : List Nibble) (val : Bytes)
  | ext (key : List Nibble) (child : Trie)
  | branch (children : Fin 16 → Option Trie)

namespace Trie

/-- Induction with one case per constructor; the branch case may use every present child. -/
@[elab_as_elim, induction_eliminator]
theorem induction {motive : Trie → Prop} (leaf : ∀ key val, motive (.leaf key val))
    (ext : ∀ key child, motive child → motive (.ext key child))
    (branch : ∀ children, (∀ i c, children i = some c → motive c) → motive (.branch children))
    (t : Trie) : motive t :=
  Trie.rec (motive_2 := fun o => ∀ c, o = some c → motive c) leaf ext
    (fun children ih => branch children ih) (fun _ h => nomatch h)
    (fun _ ih _ h => Option.some.inj h ▸ ih) t

/-! ## Entries -/

mutual
/-- The (path, value) pairs stored under the node, in path order. -/
def entries : Trie → List (List Nibble × Bytes)
  | .leaf key val => [(key, val)]
  | .ext key child => child.entries.map fun e => (key ++ e.1, e.2)
  | .branch children =>
    (List.finRange 16).flatMap fun i => (optEntries (children i)).map fun e => (i :: e.1, e.2)
/-- The entries under an optional child. -/
def optEntries : Option Trie → List (List Nibble × Bytes)
  | none => []
  | some t => t.entries
end

@[simp] theorem mem_entries_leaf {key k : List Nibble} {val v : Bytes} :
    (key, val) ∈ (leaf k v).entries ↔ key = k ∧ val = v := by
  simp [entries]

@[simp] theorem mem_entries_ext {key k : List Nibble} {val : Bytes} {c : Trie} :
    (key, val) ∈ (ext k c).entries ↔ ∃ r, key = k ++ r ∧ (r, val) ∈ c.entries := by
  simp only [entries, List.mem_map, Prod.mk.injEq, Prod.exists]
  constructor
  · rintro ⟨r, v, mem, rfl, rfl⟩
    exact ⟨r, rfl, mem⟩
  · rintro ⟨r, rfl, mem⟩
    exact ⟨r, val, mem, rfl, rfl⟩

theorem mem_entries_branch {key : List Nibble} {val : Bytes} {children : Fin 16 → Option Trie} :
    (key, val) ∈ (branch children).entries ↔
      ∃ i r c, key = i :: r ∧ children i = some c ∧ (r, val) ∈ c.entries := by
  simp only [entries, List.mem_flatMap, List.mem_finRange, List.mem_map, Prod.mk.injEq,
    Prod.exists, true_and]
  constructor
  · rintro ⟨i, r, v, mem, rfl, rfl⟩
    cases found : children i with
    | none => simp [found, optEntries] at mem
    | some c => exact ⟨i, r, c, rfl, found, by simpa [found, optEntries] using mem⟩
  · rintro ⟨i, r, c, rfl, found, mem⟩
    exact ⟨i, r, val, by simpa [found, optEntries] using mem, rfl, rfl⟩

@[simp] theorem mem_entries_branch_cons {i : Nibble} {r : List Nibble} {val : Bytes}
    {children : Fin 16 → Option Trie} :
    (i :: r, val) ∈ (branch children).entries ↔
      ∃ c, children i = some c ∧ (r, val) ∈ c.entries := by
  rw [mem_entries_branch]
  constructor
  · rintro ⟨j, r', c, same, found, mem⟩
    simp only [List.cons.injEq] at same
    obtain ⟨rfl, rfl⟩ := same
    exact ⟨c, found, mem⟩
  · rintro ⟨c, found, mem⟩
    exact ⟨i, r, c, rfl, found, mem⟩

@[simp] theorem nil_not_mem_entries_branch {val : Bytes} {children : Fin 16 → Option Trie} :
    ([], val) ∉ (branch children).entries := by
  simp [mem_entries_branch]

/-! ## Canonical shape -/

/-- The node is a branch. -/
def IsBranch : Trie → Prop
  | .branch _ => True
  | _ => False

mutual
/-- The canonical, fully compressed shape: an extension has a non-empty key and a
branch child, a branch has at least two children; a leaf's key may be empty. -/
def WF : Trie → Prop
  | .leaf _ _ => True
  | .ext key child => key ≠ [] ∧ child.IsBranch ∧ child.WF
  | .branch children =>
    (∃ i j, i ≠ j ∧ (children i).isSome ∧ (children j).isSome) ∧ ∀ i, optWF (children i)
/-- `WF` of an optional child. -/
def optWF : Option Trie → Prop
  | none => True
  | some t => t.WF
end

theorem WF.branch_child {children : Fin 16 → Option Trie} (wf : (branch children).WF)
    {i : Fin 16} {c : Trie} (found : children i = some c) : c.WF := by
  have := wf.2 i
  rwa [found, optWF] at this

/-- A canonical node stores at least one entry. -/
theorem WF.exists_entry {t : Trie} (wf : t.WF) : ∃ key val, (key, val) ∈ t.entries := by
  induction t with
  | leaf k v => exact ⟨k, v, by simp⟩
  | ext k c ih =>
    obtain ⟨r, v, mem⟩ := ih wf.2.2
    exact ⟨k ++ r, v, mem_entries_ext.mpr ⟨r, rfl, mem⟩⟩
  | branch children ih =>
    obtain ⟨i, -, -, some_i, -⟩ := wf.1
    obtain ⟨c, found⟩ := Option.isSome_iff_exists.mp some_i
    obtain ⟨r, v, mem⟩ := ih i c found (wf.branch_child found)
    exact ⟨i :: r, v, mem_entries_branch.mpr ⟨i, r, c, rfl, found, mem⟩⟩

/-- A canonical branch stores two entries that part at its own nibble. -/
theorem WF.branch_fork {children : Fin 16 → Option Trie} (wf : (branch children).WF) :
    ∃ i j r₁ r₂ v₁ v₂, i ≠ j ∧ (i :: r₁, v₁) ∈ (branch children).entries ∧
      (j :: r₂, v₂) ∈ (branch children).entries := by
  obtain ⟨i, j, ne, some_i, some_j⟩ := wf.1
  obtain ⟨c, found_i⟩ := Option.isSome_iff_exists.mp some_i
  obtain ⟨c', found_j⟩ := Option.isSome_iff_exists.mp some_j
  obtain ⟨r₁, v₁, mem₁⟩ := (wf.branch_child found_i).exists_entry
  obtain ⟨r₂, v₂, mem₂⟩ := (wf.branch_child found_j).exists_entry
  exact ⟨i, j, r₁, r₂, v₁, v₂, ne, mem_entries_branch.mpr ⟨i, r₁, c, rfl, found_i, mem₁⟩,
    mem_entries_branch.mpr ⟨j, r₂, c', rfl, found_j, mem₂⟩⟩

/-- A canonical extension stores two entries that part right below its key. -/
theorem WF.ext_fork {k : List Nibble} {c : Trie} (wf : (ext k c).WF) :
    ∃ i j r₁ r₂ v₁ v₂, i ≠ j ∧ (k ++ i :: r₁, v₁) ∈ (ext k c).entries ∧
      (k ++ j :: r₂, v₂) ∈ (ext k c).entries := by
  obtain ⟨-, isBranch, wfc⟩ := wf
  cases c with
  | leaf _ _ => exact isBranch.elim
  | ext _ _ => exact isBranch.elim
  | branch children =>
    obtain ⟨i, j, r₁, r₂, v₁, v₂, ne, mem₁, mem₂⟩ := wfc.branch_fork
    exact ⟨i, j, r₁, r₂, v₁, v₂, ne, mem_entries_ext.mpr ⟨_, rfl, mem₁⟩,
      mem_entries_ext.mpr ⟨_, rfl, mem₂⟩⟩

/-- Every entry under an extension runs through its key. -/
theorem prefix_of_mem_ext {k key : List Nibble} {c : Trie} {val : Bytes}
    (mem : (key, val) ∈ (ext k c).entries) : k <+: key := by
  obtain ⟨r, rfl, -⟩ := mem_entries_ext.mp mem
  exact List.prefix_append k r

end Trie

/-- A prefix of two paths that part at distinct nibbles after `p` is a prefix of `p`. -/
theorem prefix_of_fork {q p r₁ r₂ : List Nibble} {i j : Nibble} (ne : i ≠ j)
    (pre₁ : q <+: p ++ i :: r₁) (pre₂ : q <+: p ++ j :: r₂) : q <+: p := by
  rcases List.prefix_or_prefix_of_prefix pre₁ (List.prefix_append p (i :: r₁)) with short | long
  · exact short
  · obtain ⟨s, rfl⟩ := long
    cases s with
    | nil => simp
    | cons x s =>
      obtain ⟨t₁, h₁⟩ := pre₁
      obtain ⟨t₂, h₂⟩ := pre₂
      simp only [List.append_assoc, List.cons_append, List.append_cancel_left_eq,
        List.cons.injEq] at h₁ h₂
      exact absurd (h₁.1.symm.trans h₂.1) ne

namespace Trie

/-- Two canonical tries with the same entries are equal. -/
theorem eq_of_entries {t t' : Trie} (wf : t.WF) (wf' : t'.WF)
    (same : ∀ e, e ∈ t.entries ↔ e ∈ t'.entries) : t = t' := by
  induction t generalizing t' with
  | leaf k v =>
    cases t' with
    | leaf k' v' =>
      have := (same (k, v)).mp (by simp)
      simp only [mem_entries_leaf] at this
      rw [this.1, this.2]
    | ext k' c' =>
      obtain ⟨i, j, r₁, r₂, v₁, v₂, ne, mem₁, mem₂⟩ := wf'.ext_fork
      have keys := (mem_entries_leaf.mp ((same _).mpr mem₁)).1.trans
        (mem_entries_leaf.mp ((same _).mpr mem₂)).1.symm
      simp [ne] at keys
    | branch cs' =>
      obtain ⟨i, j, r₁, r₂, v₁, v₂, ne, mem₁, mem₂⟩ := wf'.branch_fork
      have keys := (mem_entries_leaf.mp ((same _).mpr mem₁)).1.trans
        (mem_entries_leaf.mp ((same _).mpr mem₂)).1.symm
      simp [ne] at keys
  | ext k c ih =>
    cases t' with
    | leaf k' v' =>
      obtain ⟨i, j, r₁, r₂, v₁, v₂, ne, mem₁, mem₂⟩ := wf.ext_fork
      have keys := (mem_entries_leaf.mp ((same _).mp mem₁)).1.trans
        (mem_entries_leaf.mp ((same _).mp mem₂)).1.symm
      simp [ne] at keys
    | ext k' c' =>
      obtain ⟨i, j, r₁, r₂, v₁, v₂, ne, mem₁, mem₂⟩ := wf.ext_fork
      obtain ⟨i', j', s₁, s₂, w₁, w₂, ne', mem₁', mem₂'⟩ := wf'.ext_fork
      have short : k' <+: k := prefix_of_fork ne (prefix_of_mem_ext ((same _).mp mem₁))
        (prefix_of_mem_ext ((same _).mp mem₂))
      have long : k <+: k' := prefix_of_fork ne' (prefix_of_mem_ext ((same _).mpr mem₁'))
        (prefix_of_mem_ext ((same _).mpr mem₂'))
      have keys : k = k' := long.eq_of_length (Nat.le_antisymm long.length_le short.length_le)
      subst keys
      rw [ih wf.2.2 wf'.2.2 fun ⟨r, v⟩ => by
        simpa using same (k ++ r, v)]
    | branch cs' =>
      obtain ⟨i, j, r₁, r₂, v₁, v₂, ne, mem₁, mem₂⟩ := wf'.branch_fork
      have : k <+: [] := @prefix_of_fork k [] _ _ _ _ ne (prefix_of_mem_ext ((same _).mpr mem₁))
        (prefix_of_mem_ext ((same _).mpr mem₂))
      exact absurd (List.prefix_nil.mp this) wf.1
  | branch cs ih =>
    cases t' with
    | leaf k' v' =>
      obtain ⟨i, j, r₁, r₂, v₁, v₂, ne, mem₁, mem₂⟩ := wf.branch_fork
      have keys := (mem_entries_leaf.mp ((same _).mp mem₁)).1.trans
        (mem_entries_leaf.mp ((same _).mp mem₂)).1.symm
      simp [ne] at keys
    | ext k' c' =>
      obtain ⟨i, j, r₁, r₂, v₁, v₂, ne, mem₁, mem₂⟩ := wf.branch_fork
      have : k' <+: [] := @prefix_of_fork k' [] _ _ _ _ ne (prefix_of_mem_ext ((same _).mp mem₁))
        (prefix_of_mem_ext ((same _).mp mem₂))
      exact absurd (List.prefix_nil.mp this) wf'.1
    | branch cs' =>
      congr
      funext i
      have slot : ∀ r v, (∃ c, cs i = some c ∧ (r, v) ∈ c.entries) ↔
          ∃ c', cs' i = some c' ∧ (r, v) ∈ c'.entries := fun r v => by
        simpa using same (i :: r, v)
      cases found : cs i with
      | none =>
        cases found' : cs' i with
        | none => rfl
        | some c' =>
          obtain ⟨r, v, mem⟩ := (wf'.branch_child found').exists_entry
          simpa [found] using (slot r v).mpr ⟨c', found', mem⟩
      | some c =>
        obtain ⟨r, v, mem⟩ := (wf.branch_child found).exists_entry
        obtain ⟨c', found', -⟩ := (slot r v).mp ⟨c, found, mem⟩
        rw [found', ih i c found (wf.branch_child found) (wf'.branch_child found') fun ⟨r, v⟩ => by
          simpa [found, found'] using slot r v]

end Trie

/-- `mpt` is the canonical trie of the pairs `kvs`: it has the canonical shape and
stores exactly those pairs. The empty trie stores none. -/
def IsMpt (mpt : Option Trie) (kvs : List (List Nibble × Bytes)) : Prop :=
  match mpt with
  | none => kvs = []
  | some t => t.WF ∧ ∀ e, e ∈ t.entries ↔ e ∈ kvs

/-- A set of pairs has at most one canonical trie. -/
theorem IsMpt.unique {mpt mpt' : Option Trie} {kvs : List (List Nibble × Bytes)}
    (canonical : IsMpt mpt kvs) (canonical' : IsMpt mpt' kvs) : mpt = mpt' := by
  cases mpt with
  | none =>
    cases mpt' with
    | none => rfl
    | some t' =>
      obtain ⟨key, val, mem⟩ := canonical'.1.exists_entry
      simpa [show kvs = [] from canonical] using (canonical'.2 _).mp mem
  | some t =>
    cases mpt' with
    | none =>
      obtain ⟨key, val, mem⟩ := canonical.1.exists_entry
      simpa [show kvs = [] from canonical'] using (canonical.2 _).mp mem
    | some t' =>
      rw [Trie.eq_of_entries canonical.1 canonical'.1 fun e =>
        (canonical.2 e).trans (canonical'.2 e).symm]

/-! ## Root hash -/

section Hashing

variable (keccak : Bytes → Hash)

/-- How a parent refers to a child with encoding `blob` in a Merkle Patricia trie:
inline when it is shorter than 32 bytes, by its Keccak-256 digest otherwise. -/
def childRef (blob : Bytes) : EncNode :=
  if blob.length < 32 then .rawNode blob else .hashNode (keccak blob).bytes

mutual
/-- The canonical encoding of a node, its children referred to by `childRef`. -/
def Trie.blob : Trie → Bytes
  | .leaf key val => shortNodeEncode (hexToCompact key true) (.valueNode val)
  | .ext key child => shortNodeEncode (hexToCompact key false) (childRef keccak child.blob)
  | .branch children => fullNodeEncode fun i => Trie.optRef (children i)
/-- A branch slot's reference: `nilValueNode` when it is empty. -/
def Trie.optRef : Option Trie → EncNode
  | none => .valueNode []
  | some t => childRef keccak t.blob
end

/-- The root hash of a trie: the digest of the root's encoding, and `emptyRoot`
for the empty trie. -/
def mptRoot : Option Trie → Hash
  | none => emptyRoot
  | some t => keccak (t.blob keccak)

end Hashing

end Ronin
