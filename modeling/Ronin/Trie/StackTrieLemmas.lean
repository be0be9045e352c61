import Ronin.Trie.StackTrie

/-!
# What each step of the stack trie does

One lemma per case of `hash` and `insert`, so that the invariant proofs never
unfold the model: `commit_val` for the value `hash` leaves in a node,
`insert_leafNode_split` / `insert_leafNode_stuck` for a leaf, the three
extension cases, and the branch cases with the elder-sibling loop
(`hashElder_self`, `hashElder_cases`).
-/

namespace Ronin

namespace StNode

/-- The node a split leaves where the old one was: an extension over the shared
prefix `p`, if there is one, above `n`. -/
def over (p : List Nibble) (n : StNode) : StNode := if p = [] then n else .extNode p n

theorem over_eq {p : List Nibble} {n : StNode} (d : Nat) (len : d = p.length) :
    (if d = 0 then n else extNode p n) = over p n := by
  subst len
  simp [over, List.length_eq_zero]

@[simp] theorem val_hashedNode (v : Bytes) : (hashedNode v).val = v := rfl

end StNode

/-- The scan finds a slot strictly below where it starts. -/
theorem elderSibling_lt {children : Fin 16 → Option StNode} {n : Nat} {i : Fin 16}
    (found : elderSibling children n = some i) : i.val < n := by
  induction n with
  | zero => simp [elderSibling] at found
  | succ n ih =>
    simp only [elderSibling] at found
    split_ifs at found with bound present
    · cases found; exact Nat.lt_succ_self _
    · exact Nat.lt_succ_of_lt (ih found)
    · exact Nat.lt_succ_of_lt (ih found)

/-- The slot the scan finds holds a child. -/
theorem elderSibling_isSome {children : Fin 16 → Option StNode} {n : Nat} {i : Fin 16}
    (found : elderSibling children n = some i) : (children i).isSome := by
  induction n with
  | zero => simp [elderSibling] at found
  | succ n ih =>
    simp only [elderSibling] at found
    split_ifs at found with bound present
    · cases found; exact present
    · exact ih found
    · exact ih found

/-- Every slot the scan passes over is nil. -/
theorem elderSibling_skips {children : Fin 16 → Option StNode} {n : Nat} {i j : Fin 16}
    (found : elderSibling children n = some i) (above : i < j) (below : j.val < n) :
    children j = none := by
  induction n with
  | zero => simp at below
  | succ n ih =>
    simp only [elderSibling] at found
    split_ifs at found with bound present
    · cases found
      rw [Fin.lt_def] at above
      exact absurd below (by simp at above ⊢; omega)
    · by_cases last : j.val = n
      · have : j = ⟨n, bound⟩ := Fin.ext last
        subst this
        simpa using present
      · exact ih found (by omega)
    · exact ih found (by omega)

/-- With no child below `n`, the scan finds nothing. -/
theorem elderSibling_eq_none {children : Fin 16 → Option StNode} {n : Nat}
    (empty : ∀ j : Fin 16, j.val < n → children j = none) : elderSibling children n = none := by
  induction n with
  | zero => rfl
  | succ n ih =>
    simp only [elderSibling]
    split_ifs with bound present
    · simp [empty ⟨n, bound⟩ (Nat.lt_succ_self n)] at present
    · exact ih fun j lt => empty j (Nat.lt_succ_of_lt lt)
    · exact ih fun j lt => empty j (Nat.lt_succ_of_lt lt)

/-- The scan from `n` finds `i` when `i` holds a child and every slot between is nil. -/
theorem elderSibling_of_gap {children : Fin 16 → Option StNode} {n : Nat} {i : Fin 16}
    (present : (children i).isSome) (lt : i.val < n)
    (gap : ∀ j : Fin 16, i < j → j.val < n → children j = none) : elderSibling children n = some i := by
  induction n with
  | zero => omega
  | succ n ih =>
    rcases Nat.lt_succ_iff_lt_or_eq.mp lt with lt | rfl
    · have next := ih lt fun j above below => gap j above (by omega)
      simp only [elderSibling]
      split_ifs with bound slot
      · simp [gap ⟨n, bound⟩ (by rw [Fin.lt_def]; exact lt) (by simp)] at slot
      · exact next
      · exact next
    · simp [elderSibling, present]

namespace StackTrie

variable (keccak : Bytes → Ronin.Hash) (t : StackTrie)

/-! ## `hash` -/

/-- The value `hash` leaves in the node it commits. -/
theorem commit_val (path : List Nibble) (blob : Bytes) (internal : List (List Nibble)) :
    (t.commit keccak path blob internal).1 =
      if blob.length < 32 ∧ path ≠ [] then blob else (keccak blob).bytes := by
  unfold commit
  split_ifs <;> rfl

@[simp] theorem hash_hashedNode (v : Bytes) (path : List Nibble) :
    t.hash keccak (.hashedNode v) path = (.hashedNode v, []) := by
  simp [hash]

/-- `hash` always leaves a hashed node. -/
theorem hash_hashed (n : StNode) (path : List Nibble) :
    (t.hash keccak n path).1 = .hashedNode (t.hash keccak n path).1.val := by
  cases n <;> simp [hash]

/-! ## The elder-sibling loop -/

/-- The loop never touches the slot being inserted into. -/
theorem hashElder_self (children : Fin 16 → Option StNode) (idx : Fin 16) (path : List Nibble) :
    (t.hashElder keccak children idx path).1 idx = children idx := by
  unfold hashElder
  split
  · rfl
  · rename_i i found
    have : i ≠ idx := Fin.ne_of_lt (elderSibling_lt found)
    split
    · rfl
    · split
      · rfl
      · simp [Function.update_noteq (Ne.symm this)]

/-- Apart from the slot it hashes, the loop leaves every slot as it was. -/
theorem hashElder_cases (children : Fin 16 → Option StNode) (idx : Fin 16) (path : List Nibble) :
    t.hashElder keccak children idx path = (children, []) ∨
      ∃ i c, i < idx ∧ elderSibling children idx.val = some i ∧ children i = some c ∧
        c.isHashed = false ∧
        t.hashElder keccak children idx path =
          (Function.update children i (some (t.hash keccak c (path ++ [i])).1),
            (t.hash keccak c (path ++ [i])).2) := by
  unfold hashElder
  split
  · exact .inl rfl
  · rename_i i found
    split
    · exact .inl rfl
    · rename_i c present
      split
      · exact .inl rfl
      · rename_i notHashed
        exact .inr ⟨i, c, elderSibling_lt found, found, present, by simpa using notHashed, rfl⟩

/-! ## `insert` -/

@[simp] theorem insertChild_none (key : List Nibble) (value : Bytes) (path : List Nibble) :
    t.insertChild keccak none key value path = ⟨.leafNode key value, [], none⟩ := by
  simp [insertChild]

@[simp] theorem insertChild_some (c : StNode) (key : List Nibble) (value : Bytes)
    (path : List Nibble) :
    t.insertChild keccak (some c) key value path = t.insert keccak c key value path := by
  simp [insertChild]

@[simp] theorem insert_emptyNode (key : List Nibble) (value : Bytes) (path : List Nibble) :
    t.insert keccak .emptyNode key value path = ⟨.leafNode key value, [], none⟩ := by
  simp [insert]

@[simp] theorem insert_hashedNode (v : Bytes) (key : List Nibble) (value : Bytes)
    (path : List Nibble) :
    t.insert keccak (.hashedNode v) key value path = ⟨.hashedNode v, [], some .insertIntoHash⟩ := by
  simp [insert]

@[simp] theorem insert_branchNode_nil (children : Fin 16 → Option StNode) (value : Bytes)
    (path : List Nibble) :
    t.insert keccak (.branchNode children) [] value path =
      ⟨.branchNode children, [], some .indexOutOfRange⟩ := by
  simp [insert]

theorem insert_branchNode_cons (children : Fin 16 → Option StNode) (idx : Nibble)
    (rest : List Nibble) (value : Bytes) (path : List Nibble) :
    t.insert keccak (.branchNode children) (idx :: rest) value path =
      let elder := t.hashElder keccak children idx path
      let r := t.insertChild keccak (children idx) rest value (path ++ [idx])
      ⟨.branchNode (Function.update elder.1 idx (some r.node)), elder.2 ++ r.events, r.panic⟩ := by
  simp [insert]

/-- A leaf is split where the keys part; the half with the old value is hashed at once. -/
theorem insert_leafNode_split {p kr keyr : List Nibble} {o n : Nibble} (ne : o ≠ n) (val value : Bytes)
    (path : List Nibble) :
    t.insert keccak (.leafNode (p ++ o :: kr) val) (p ++ n :: keyr) value path =
      let orig := t.hash keccak (.leafNode kr val) (path ++ (p ++ [o]))
      ⟨StNode.over p (splitBranch o orig.1 n (.leafNode keyr value)), orig.2, none⟩ := by
  simp [insert, getDiffIndex_append_cons ne, List.getElem?_append_right, StNode.over,
    List.take_append_eq_append_take, List.take_of_length_le]

/-- Where the keys do not part, `insert` at a leaf panics and changes nothing. -/
theorem insert_leafNode_stuck {nkey key : List Nibble} (val value : Bytes) (path : List Nibble)
    (noSplit : ¬ ∃ p o n kr keyr, o ≠ n ∧ nkey = p ++ o :: kr ∧ key = p ++ n :: keyr) :
    ∃ e, t.insert keccak (.leafNode nkey val) key value path = ⟨.leafNode nkey val, [], some e⟩ := by
  cases found : getDiffIndex nkey key with
  | none => exact ⟨.indexOutOfRange, by simp [insert, found]⟩
  | some d =>
    by_cases long : nkey.length ≤ d
    · exact ⟨.existingKey, by simp [insert, found, long]⟩
    · obtain ⟨p, o, n, kr, keyr, ne, rfl, rfl, -⟩ := getDiffIndex_split found (by omega)
      exact absurd ⟨p, o, n, kr, keyr, ne, rfl, rfl⟩ noSplit

/-- An extension whose key runs on in `key` passes the rest down to its child. -/
theorem insert_extNode_full (nkey rest : List Nibble) (child : StNode) (value : Bytes)
    (path : List Nibble) :
    t.insert keccak (.extNode nkey child) (nkey ++ rest) value path =
      let r := t.insert keccak child rest value (path ++ nkey)
      ⟨.extNode nkey r.node, r.events, r.panic⟩ := by
  simp [insert, getDiffIndex_append]

/-- An extension is split where the keys part; the half with the old child is hashed
at once, as an extension over what is left of the key, or as the child itself. -/
theorem insert_extNode_split {p kr keyr : List Nibble} {o n : Nibble} (ne : o ≠ n)
    (child : StNode) (value : Bytes) (path : List Nibble) :
    t.insert keccak (.extNode (p ++ o :: kr) child) (p ++ n :: keyr) value path =
      let tail := t.hash keccak (StNode.over kr child) (path ++ (p ++ [o]))
      ⟨StNode.over p (splitBranch o tail.1 n (.leafNode keyr value)), tail.2, none⟩ := by
  cases kr with
  | nil =>
    simp [insert, getDiffIndex_append_cons ne, List.getElem?_append_right, StNode.over,
      List.take_append_eq_append_take, List.take_of_length_le]
  | cons x kr =>
    simp [insert, getDiffIndex_append_cons ne, List.getElem?_append_right, StNode.over,
      List.take_append_eq_append_take, List.take_of_length_le]

/-- Where the keys neither part nor run on, `insert` at an extension panics and
changes nothing. -/
theorem insert_extNode_stuck {nkey key : List Nibble} (child : StNode) (value : Bytes)
    (path : List Nibble) (noFull : ¬ ∃ rest, key = nkey ++ rest)
    (noSplit : ¬ ∃ p o n kr keyr, o ≠ n ∧ nkey = p ++ o :: kr ∧ key = p ++ n :: keyr) :
    ∃ e, t.insert keccak (.extNode nkey child) key value path =
      ⟨.extNode nkey child, [], some e⟩ := by
  cases found : getDiffIndex nkey key with
  | none => exact ⟨.indexOutOfRange, by simp [insert, found]⟩
  | some d =>
    by_cases full : d = nkey.length
    · subst full
      exact absurd (getDiffIndex_eq_length.mp found) noFull
    · obtain ⟨p, o, n, kr, keyr, ne, rfl, rfl, -⟩ :=
        getDiffIndex_split found (Nat.lt_of_le_of_ne (getDiffIndex_le found) full)
      exact absurd ⟨p, o, n, kr, keyr, ne, rfl, rfl⟩ noSplit

end StackTrie

end Ronin
