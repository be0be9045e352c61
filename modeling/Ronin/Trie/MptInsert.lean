import Ronin.Trie.Mpt

/-!
# Inserting into the canonical trie

`Trie.insert` is the stack trie's insertion with the hashing left out: the same
split of a leaf or an extension at `getDiffIndex`, the same two-slot branch. It
fails (`none`) where the stack trie panics on a key conflict.

Results:
* `insert_entries`: a successful insert adds exactly the new pair.
* `insert_wf`: it keeps the canonical shape.
* `insert_no_conflict`: it succeeds only when the new key is neither a prefix of
  a stored key nor has one as a prefix.
* `IsMpt.insert`: so inserting the pairs one by one builds the canonical trie
  of the whole set.
-/

namespace Ronin

namespace Trie

/-- The branch a split creates: the old subtree at slot `o`, the new one at slot `n`. -/
def fork (o : Nibble) (old : Trie) (n : Nibble) (new : Trie) : Trie :=
  .branch (Function.update (Function.update (fun _ => none) o (some old)) n (some new))

mutual
/-- Insertion into a non-empty trie, split for split as `StackTrie.insert` does it. -/
def insert : Trie → List Nibble → Bytes → Option Trie
  | .leaf k v, key, val =>
    match getDiffIndex k key with
    | none => none
    | some d =>
      if k.length ≤ d then none
      else
        match k[d]?, key[d]? with
        | some o, some n =>
          let p := fork o (.leaf (k.drop (d + 1)) v) n (.leaf (key.drop (d + 1)) val)
          some (if d = 0 then p else .ext (k.take d) p)
        | _, _ => none
  | .ext k c, key, val =>
    match getDiffIndex k key with
    | none => none
    | some d =>
      if d = k.length then (c.insert (key.drop d) val).map (.ext k)
      else
        match k[d]?, key[d]? with
        | some o, some n =>
          let tail := if d < k.length - 1 then .ext (k.drop (d + 1)) c else c
          let p := fork o tail n (.leaf (key.drop (d + 1)) val)
          some (if d = 0 then p else .ext (k.take d) p)
        | _, _ => none
  | .branch _, [], _ => none
  | .branch children, i :: rest, val =>
    (optInsert (children i) rest val).map fun c => .branch (Function.update children i (some c))
/-- Insertion into a branch slot: an empty slot gets a new leaf. -/
def optInsert : Option Trie → List Nibble → Bytes → Option Trie
  | none, key, val => some (.leaf key val)
  | some t, key, val => t.insert key val
end

/-! ## One lemma per case -/

/-- A node put over `t` by a split: an extension over the shared prefix, if any. -/
def over (p : List Nibble) (t : Trie) : Trie := if p = [] then t else .ext p t

theorem insert_leaf {k key : List Nibble} {v val : Bytes} {t' : Trie} :
    (leaf k v).insert key val = some t' ↔
      ∃ p o n kr keyr, o ≠ n ∧ k = p ++ o :: kr ∧ key = p ++ n :: keyr ∧
        t' = over p (fork o (leaf kr v) n (leaf keyr val)) := by
  constructor
  · intro ins
    cases found : getDiffIndex k key with
    | none => simp [insert, found] at ins
    | some d =>
      by_cases long : k.length ≤ d
      · simp [insert, found, long] at ins
      · obtain ⟨p, o, n, kr, keyr, ne, rfl, rfl, rfl⟩ := getDiffIndex_split found (by omega)
        simp [insert, found, List.getElem?_append_right] at ins
        exact ⟨p, o, n, kr, keyr, ne, rfl, rfl, ins.symm⟩
  · rintro ⟨p, o, n, kr, keyr, ne, rfl, rfl, rfl⟩
    simp [insert, getDiffIndex_append_cons ne, List.getElem?_append_right, over]

theorem insert_ext {k key : List Nibble} {c t' : Trie} {val : Bytes} :
    (ext k c).insert key val = some t' ↔
      (∃ rest c', key = k ++ rest ∧ c.insert rest val = some c' ∧ t' = ext k c') ∨
      ∃ p o n kr keyr, o ≠ n ∧ k = p ++ o :: kr ∧ key = p ++ n :: keyr ∧
        t' = over p (fork o (over kr c) n (leaf keyr val)) := by
  constructor
  · intro ins
    cases found : getDiffIndex k key with
    | none => simp [insert, found] at ins
    | some d =>
      by_cases full : d = k.length
      · subst full
        obtain ⟨rest, rfl⟩ := getDiffIndex_eq_length.mp found
        simp only [insert, found, ↓reduceIte, List.drop_left, Option.map_eq_some'] at ins
        obtain ⟨c', ins', rfl⟩ := ins
        exact .inl ⟨rest, c', rfl, ins', rfl⟩
      · obtain ⟨p, o, n, kr, keyr, ne, rfl, rfl, rfl⟩ := getDiffIndex_split found
          (Nat.lt_of_le_of_ne (getDiffIndex_le found) full)
        simp [insert, found, List.getElem?_append_right] at ins
        refine .inr ⟨p, o, n, kr, keyr, ne, rfl, rfl, ?_⟩
        rw [← ins]
        cases kr <;> simp [over]
  · rintro (⟨rest, c', rfl, ins, rfl⟩ | ⟨p, o, n, kr, keyr, ne, rfl, rfl, rfl⟩)
    · simp [insert, getDiffIndex_append, ins]
    · simp [insert, getDiffIndex_append_cons ne, List.getElem?_append_right]
      cases kr <;> simp [over]

@[simp] theorem optInsert_none {key : List Nibble} {val : Bytes} :
    optInsert none key val = some (leaf key val) := by
  simp [optInsert]

@[simp] theorem optInsert_some {t : Trie} {key : List Nibble} {val : Bytes} :
    optInsert (some t) key val = t.insert key val := by
  simp [optInsert]

theorem insert_branch {children : Fin 16 → Option Trie} {key : List Nibble} {val : Bytes}
    {t' : Trie} :
    (branch children).insert key val = some t' ↔
      ∃ i rest c', key = i :: rest ∧ optInsert (children i) rest val = some c' ∧
        t' = branch (Function.update children i (some c')) := by
  cases key with
  | nil => simp [insert]
  | cons i rest =>
    simp only [insert, Option.map_eq_some', List.cons.injEq]
    constructor
    · rintro ⟨c', ins, rfl⟩
      exact ⟨i, rest, c', ⟨rfl, rfl⟩, ins, rfl⟩
    · rintro ⟨_, _, c', ⟨rfl, rfl⟩, ins, rfl⟩
      exact ⟨c', ins, rfl⟩

/-! ## Entries -/

theorem mem_entries_fork {o n : Nibble} {old new : Trie} {key : List Nibble} {val : Bytes}
    (ne : o ≠ n) :
    (key, val) ∈ (fork o old n new).entries ↔
      (∃ r, key = o :: r ∧ (r, val) ∈ old.entries) ∨
      (∃ r, key = n :: r ∧ (r, val) ∈ new.entries) := by
  cases key with
  | nil => simp [fork]
  | cons i r =>
    by_cases atNew : i = n
    · subst atNew
      simp [fork, Ne.symm ne]
    · by_cases atOld : i = o
      · subst atOld
        simp [fork, atNew]
      · simp [fork, atNew, atOld]

@[simp] theorem mem_entries_over {p key : List Nibble} {t : Trie} {val : Bytes} :
    (key, val) ∈ (over p t).entries ↔ ∃ r, key = p ++ r ∧ (r, val) ∈ t.entries := by
  by_cases empty : p = [] <;> simp [over, empty]

/-- A successful insert stores exactly one more pair. -/
theorem insert_entries {t t' : Trie} {key : List Nibble} {val : Bytes}
    (ins : t.insert key val = some t') :
    ∀ e, e ∈ t'.entries ↔ e ∈ t.entries ∨ e = (key, val) := by
  induction t generalizing key t' with
  | leaf k v =>
    obtain ⟨p, o, n, kr, keyr, ne, rfl, rfl, rfl⟩ := insert_leaf.mp ins
    rintro ⟨key', val'⟩
    simp only [mem_entries_over, mem_entries_fork ne, mem_entries_leaf, Prod.mk.injEq]
    constructor
    · rintro ⟨r, rfl, ⟨r', rfl, rfl, rfl⟩ | ⟨r', rfl, rfl, rfl⟩⟩
      · exact .inl ⟨rfl, rfl⟩
      · exact .inr ⟨rfl, rfl⟩
    · rintro (⟨rfl, rfl⟩ | ⟨rfl, rfl⟩)
      · exact ⟨o :: kr, rfl, .inl ⟨kr, rfl, rfl, rfl⟩⟩
      · exact ⟨n :: keyr, rfl, .inr ⟨keyr, rfl, rfl, rfl⟩⟩
  | ext k c ih =>
    rintro ⟨key', val'⟩
    rcases insert_ext.mp ins with ⟨rest, c', rfl, ins', rfl⟩ | ⟨p, o, n, kr, keyr, ne, rfl, rfl, rfl⟩
    · simp only [mem_entries_ext, ih ins', Prod.mk.injEq]
      constructor
      · rintro ⟨r, rfl, mem | ⟨rfl, rfl⟩⟩
        · exact .inl ⟨r, rfl, mem⟩
        · exact .inr ⟨rfl, rfl⟩
      · rintro (⟨r, rfl, mem⟩ | ⟨rfl, rfl⟩)
        · exact ⟨r, rfl, .inl mem⟩
        · exact ⟨rest, rfl, .inr ⟨rfl, rfl⟩⟩
    · simp only [mem_entries_over, mem_entries_fork ne, mem_entries_leaf, mem_entries_ext,
        Prod.mk.injEq, List.append_assoc, List.cons_append]
      constructor
      · rintro ⟨r, rfl, ⟨r', rfl, r'', rfl, mem⟩ | ⟨r', rfl, rfl, rfl⟩⟩
        · exact .inl ⟨r'', rfl, mem⟩
        · exact .inr ⟨rfl, rfl⟩
      · rintro (⟨r, rfl, mem⟩ | ⟨rfl, rfl⟩)
        · exact ⟨o :: (kr ++ r), rfl, .inl ⟨kr ++ r, rfl, r, rfl, mem⟩⟩
        · exact ⟨n :: keyr, rfl, .inr ⟨keyr, rfl, rfl, rfl⟩⟩
  | branch children ih =>
    obtain ⟨i, rest, c', rfl, ins', rfl⟩ := insert_branch.mp ins
    rintro ⟨key', val'⟩
    cases key' with
    | nil => simp
    | cons j r =>
      by_cases slot : j = i
      · subst slot
        cases found : children j with
        | none =>
          simp only [found, optInsert_none, Option.some.injEq] at ins'
          subst ins'
          simp [found]
        | some c =>
          simp only [found, optInsert_some] at ins'
          simp [found, ih j c found ins']
      · simp [slot]

/-! ## Canonical shape -/

theorem fork_wf {o n : Nibble} {old new : Trie} (ne : o ≠ n) (wf : old.WF) (wf' : new.WF) :
    (fork o old n new).WF := by
  refine ⟨⟨o, n, ne, by simp [ne], by simp⟩, fun i => ?_⟩
  by_cases atNew : i = n
  · subst atNew; simpa [optWF] using wf'
  · by_cases atOld : i = o
    · subst atOld; simpa [atNew, optWF] using wf
    · simp [atNew, atOld, optWF]

theorem over_wf {p : List Nibble} {t : Trie} (isBranch : t.IsBranch) (wf : t.WF) :
    (over p t).WF := by
  by_cases empty : p = []
  · simpa [over, empty] using wf
  · simpa [over, empty, WF] using ⟨isBranch, wf⟩

theorem fork_isBranch {o n : Nibble} {old new : Trie} : (fork o old n new).IsBranch := trivial

theorem insert_isBranch {t t' : Trie} {key : List Nibble} {val : Bytes} (isBranch : t.IsBranch)
    (ins : t.insert key val = some t') : t'.IsBranch := by
  cases t with
  | branch children =>
    obtain ⟨i, rest, c', -, -, rfl⟩ := insert_branch.mp ins
    trivial
  | _ => exact isBranch.elim

/-- Insertion keeps the canonical shape. -/
theorem insert_wf {t t' : Trie} {key : List Nibble} {val : Bytes} (wf : t.WF)
    (ins : t.insert key val = some t') : t'.WF := by
  induction t generalizing key t' with
  | leaf k v =>
    obtain ⟨p, o, n, kr, keyr, ne, -, -, rfl⟩ := insert_leaf.mp ins
    exact over_wf fork_isBranch (fork_wf ne trivial trivial)
  | ext k c ih =>
    obtain ⟨nonempty, isBranch, wfc⟩ := wf
    rcases insert_ext.mp ins with ⟨rest, c', -, ins', rfl⟩ | ⟨p, o, n, kr, keyr, ne, -, -, rfl⟩
    · exact ⟨nonempty, insert_isBranch isBranch ins', ih wfc ins'⟩
    · exact over_wf fork_isBranch (fork_wf ne (over_wf isBranch wfc) trivial)
  | branch children ih =>
    obtain ⟨i, rest, c', rfl, ins', rfl⟩ := insert_branch.mp ins
    have wfc' : c'.WF := by
      cases found : children i with
      | none => simp only [found, optInsert_none, Option.some.injEq] at ins'; subst ins'; trivial
      | some c =>
        simp only [found, optInsert_some] at ins'
        exact ih i c found (wf.branch_child found) ins'
    obtain ⟨⟨j, j', ne, some_j, some_j'⟩, wfs⟩ := wf
    refine ⟨⟨j, j', ne, ?_, ?_⟩, fun l => ?_⟩
    · by_cases slot : j = i <;> simp [Function.update_apply, slot, some_j]
    · by_cases slot : j' = i <;> simp [Function.update_apply, slot, some_j']
    · by_cases slot : l = i
      · subst slot; simpa [optWF] using wfc'
      · simpa [slot] using wfs l

/-! ## Conflicts -/

/-- Paths that part at distinct nibbles are not prefixes of each other. -/
theorem not_prefix_of_fork {p a b : List Nibble} {o n : Nibble} (ne : o ≠ n) :
    ¬ (p ++ o :: a) <+: (p ++ n :: b) := fun pre => by
  have := (prefix_of_fork ne (List.prefix_refl _) pre).length_le
  simp only [List.length_append, List.length_cons] at this
  omega

/-- An insert succeeds only if the new key conflicts with no stored key: neither is
a prefix of the other (equal keys included). -/
theorem insert_no_conflict {t t' : Trie} {key : List Nibble} {val : Bytes}
    (ins : t.insert key val = some t') :
    ∀ key' val', (key', val') ∈ t.entries → ¬ key' <+: key ∧ ¬ key <+: key' := by
  induction t generalizing key t' with
  | leaf k v =>
    obtain ⟨p, o, n, kr, keyr, ne, rfl, rfl, -⟩ := insert_leaf.mp ins
    intro key' val' mem
    obtain ⟨rfl, -⟩ := mem_entries_leaf.mp mem
    exact ⟨not_prefix_of_fork ne, not_prefix_of_fork (Ne.symm ne)⟩
  | ext k c ih =>
    intro key' val' mem
    obtain ⟨r, rfl, memc⟩ := mem_entries_ext.mp mem
    rcases insert_ext.mp ins with ⟨rest, c', rfl, ins', -⟩ | ⟨p, o, n, kr, keyr, ne, rfl, rfl, -⟩
    · simpa [List.prefix_append_right_inj] using ih ins' r val' memc
    · simp only [List.append_assoc, List.cons_append]
      exact ⟨not_prefix_of_fork ne, not_prefix_of_fork (Ne.symm ne)⟩
  | branch children ih =>
    obtain ⟨i, rest, c', rfl, ins', -⟩ := insert_branch.mp ins
    intro key' val' mem
    obtain ⟨j, r, c, rfl, found, mem⟩ := mem_entries_branch.mp mem
    by_cases slot : j = i
    · subst slot
      rw [found, optInsert_some] at ins'
      simpa [List.cons_prefix_cons] using ih j c found ins' r val' mem
    · simp [List.cons_prefix_cons, slot, Ne.symm slot]

end Trie

/-- Inserting a pair into the canonical trie of `kvs` builds the canonical trie of
`kvs` with the pair added. -/
theorem IsMpt.insert {mpt : Option Trie} {kvs : List (List Nibble × Bytes)} {key : List Nibble}
    {val : Bytes} {t' : Trie} (canonical : IsMpt mpt kvs)
    (ins : Trie.optInsert mpt key val = some t') : IsMpt (some t') (kvs ++ [(key, val)]) := by
  cases mpt with
  | none =>
    simp only [Trie.optInsert_none, Option.some.injEq] at ins
    subst ins
    simp only [IsMpt] at canonical
    subst canonical
    exact ⟨trivial, fun ⟨k, v⟩ => by simp⟩
  | some t =>
    simp only [Trie.optInsert_some] at ins
    exact ⟨Trie.insert_wf canonical.1 ins, fun e => by
      rw [Trie.insert_entries ins, canonical.2, List.mem_append, List.mem_singleton]⟩

/-- An insert into the canonical trie of `kvs` succeeds only for a key that
conflicts with none of the keys of `kvs`. -/
theorem IsMpt.no_conflict {mpt : Option Trie} {kvs : List (List Nibble × Bytes)}
    {key : List Nibble} {val : Bytes} {t' : Trie} (canonical : IsMpt mpt kvs)
    (ins : Trie.optInsert mpt key val = some t') :
    ∀ e ∈ kvs, ¬ e.1 <+: key ∧ ¬ key <+: e.1 := by
  cases mpt with
  | none =>
    simp only [IsMpt] at canonical
    simp [canonical]
  | some t =>
    simp only [Trie.optInsert_some] at ins
    exact fun ⟨k, v⟩ mem => Trie.insert_no_conflict ins k v ((canonical.2 _).mpr mem)

end Ronin
