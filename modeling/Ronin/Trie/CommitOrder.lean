import Ronin.Trie.Commit

/-!
# The order of the commit calls

Three rules the writer and cleaner calls of a sorted run keep, read off
`Trie.commits` and off `insert`: no call writes at or below a path written or
cleaned before it, so writes go bottom-up and an extension's cleaner calls come
after every write below them (`Event.Before`); each cleaner call comes before every
write at or above its path and is followed, after more cleaner calls only, by a write
strictly above it, so by the extension's own write (`CleansThenWrite`); and an update
commits only subtrees left of its key, which it has closed off.

Results:
* `commits_before`, `commits_cleansThenWrite`: the first two rules for the calls
  that commit a canonical trie.
* `insert_leftOf`: an insert right of the live path touches only paths left of its key.
* `commit_order_of_sorted`: the three rules over a whole sorted run.
-/

namespace Ronin

/-- The path of a writer or cleaner call. -/
def Event.path : Event → Option (List Nibble)
  | .write path _ _ => some path
  | .clean path => some path
  | .boundaryInc => none

/-- The path of a writer call. -/
def Event.written : Event → Option (List Nibble)
  | .write path _ _ => some path
  | _ => none

theorem Event.path_of_written {e : Event} {q : List Nibble} (found : q ∈ e.written) : q ∈ e.path := by
  cases e <;> simp_all [Event.written, Event.path]

/-- `e` may come before `e'` when committing bottom-up: `e'` writes nothing at or
below the path `e` writes or cleans. -/
def Event.Before (e e' : Event) : Prop :=
  ∀ p ∈ e.path, ∀ q ∈ e'.written, ¬ p <+: q

/-- Every cleaner call comes before the write of each node at or above its path, and
is followed, after more cleaner calls only, by the write of a node strictly above it:
that write is the first one above the cleaned path, the extension's own. -/
def CleansThenWrite (trace : List Event) : Prop :=
  ∀ pre c post, trace = pre ++ .clean c :: post →
    (∀ e ∈ pre, ∀ q ∈ e.written, ¬ q <+: c) ∧
    ∃ (cleans : List (List Nibble)) (p : List Nibble) (h : Ronin.Hash) (blob : Bytes)
      (rest : List Event), post = cleans.map .clean ++ .write p h blob :: rest ∧ p <+: c ∧ p ≠ c

namespace CleansThenWrite

theorem nil : CleansThenWrite [] := by
  unfold CleansThenWrite
  intro pre c post split
  simp at split

/-- A call in front of a trace: a cleaner call needs its write next, and a write must
not be at or above a path cleaned later. -/
theorem cons {x : Event} {trace : List Event} (tail : CleansThenWrite trace)
    (head : ∀ c, x = .clean c →
      ∃ (cleans : List (List Nibble)) (p : List Nibble) (h : Ronin.Hash) (blob : Bytes)
        (rest : List Event), trace = cleans.map .clean ++ .write p h blob :: rest ∧ p <+: c ∧ p ≠ c)
    (apart : ∀ q ∈ x.written, ∀ c, .clean c ∈ trace → ¬ q <+: c) :
    CleansThenWrite (x :: trace) := by
  unfold CleansThenWrite at tail ⊢
  rintro (_ | ⟨y, pre⟩) c post split <;>
    simp only [List.nil_append, List.cons_append, List.cons.injEq] at split
  · obtain ⟨rfl, rfl⟩ := split
    exact ⟨by simp, head c rfl⟩
  · obtain ⟨rfl, split⟩ := split
    refine ⟨fun e mem => ?_, (tail pre c post split).2⟩
    rcases List.mem_cons.mp mem with rfl | mem
    · exact fun q found => apart q found c (by simp [split])
    · exact (tail pre c post split).1 e mem

theorem of_cons {x : Event} {trace : List Event} (h : CleansThenWrite (x :: trace)) :
    CleansThenWrite trace := by
  unfold CleansThenWrite at h ⊢
  intro pre c post split
  obtain ⟨fresh, next⟩ := h (x :: pre) c post (by rw [split]; rfl)
  exact ⟨fun e mem => fresh e (.tail _ mem), next⟩

/-- No call writes at or above a path cleaned after it. -/
theorem not_prefix_of_cleaned {x : Event} {trace : List Event} (h : CleansThenWrite (x :: trace))
    {q c : List Nibble} (found : q ∈ x.written) (cleaned : .clean c ∈ trace) : ¬ q <+: c := by
  obtain ⟨pre, post, rfl⟩ := List.append_of_mem cleaned
  exact (h (x :: pre) c post rfl).1 x (.head _) q found

/-- Two traces in a row, when nothing the first writes is at or above a path the
second cleans. -/
theorem append {trace trace' : List Event} (h : CleansThenWrite trace) (h' : CleansThenWrite trace')
    (apart : ∀ e ∈ trace, ∀ q ∈ e.written, ∀ c, .clean c ∈ trace' → ¬ q <+: c) :
    CleansThenWrite (trace ++ trace') := by
  induction trace with
  | nil => exact h'
  | cons x trace ih =>
    refine cons (ih h.of_cons fun e mem => apart e (.tail _ mem)) (fun c found => ?_)
      fun q found c cleaned => ?_
    · obtain ⟨-, cleans, p, hash, blob, rest, split, above⟩ := h [] c trace (by rw [found]; rfl)
      exact ⟨cleans, p, hash, blob, rest ++ trace', by simp [split], above⟩
    · rcases List.mem_append.mp cleaned with cleaned | cleaned
      · exact h.not_prefix_of_cleaned found cleaned
      · exact apart x (.head _) q found c cleaned

theorem flatMap {α : Type} {l : List α} {f : α → List Event} (h : ∀ a ∈ l, CleansThenWrite (f a))
    (apart : l.Pairwise fun a b => ∀ e ∈ f a, ∀ q ∈ e.written, ∀ c, .clean c ∈ f b → ¬ q <+: c) :
    CleansThenWrite (l.flatMap f) := by
  induction l with
  | nil => exact nil
  | cons a l ih =>
    rw [List.flatMap_cons]
    obtain ⟨first, rest⟩ := List.pairwise_cons.mp apart
    refine (h a (.head _)).append (ih (fun b mem => h b (.tail _ mem)) rest)
      fun e mem q found c cleaned => ?_
    obtain ⟨b, mem', cleaned⟩ := List.mem_flatMap.mp cleaned
    exact first b mem' e mem q found c cleaned

/-- Cleaner calls on paths strictly below `path`, then the write at `path`. -/
theorem cleans_write {cs : List (List Nibble)} {path : List Nibble}
    (below : ∀ c ∈ cs, path <+: c ∧ path ≠ c) (hash : Ronin.Hash) (blob : Bytes) :
    CleansThenWrite (cs.map .clean ++ [.write path hash blob]) := by
  induction cs with
  | nil => exact cons nil (fun c found => by cases found) fun q found c cleaned => by cases cleaned
  | cons c cs ih =>
    refine cons (ih fun c' mem => below c' (by simp [mem])) (fun c' found => ?_)
      fun q found => by cases found
    cases found
    exact ⟨cs, path, hash, blob, [], rfl, below c (by simp)⟩

end CleansThenWrite

/-- A path through `r` is no prefix of a path shorter than `r`. -/
theorem not_prefix_of_shorter {r q c : List Nibble} (through : r <+: q) (short : c.length < r.length) :
    ¬ q <+: c := fun pre => absurd (through.trans pre).length_le (by omega)

/-- A path through `path ++ x`, with `x` non-empty, is no prefix of `path`. -/
theorem not_prefix_of_extends {path q x : List Nibble} (ext : path ++ x <+: q) (nonempty : x ≠ []) :
    ¬ q <+: path :=
  not_prefix_of_shorter ext (by simpa using List.length_pos.mpr nonempty)

/-- Paths through two different slots below `path` are not prefixes of one another. -/
theorem not_prefix_of_slots {path p q : List Nibble} {j j' : Nibble} (ne : j ≠ j')
    (hp : path ++ [j] <+: p) (hq : path ++ [j'] <+: q) : ¬ p <+: q := fun pre => by
  have slots := List.prefix_of_prefix_length_le (hp.trans pre) hq (by simp)
  simp only [List.prefix_append_right_inj, List.cons_prefix_cons, List.nil_prefix, and_true] at slots
  exact ne slots

/-! ## The calls committing a canonical trie -/

section Order

variable {keccak : Bytes → Ronin.Hash} {options : StackTrieOptions} {first last : List Nibble}

/-- One node's calls: none, a gauge increment, or the cleaner on `internal` and then
the write. -/
theorem nodeCalls_cases (path : List Nibble) (blob : Bytes) (internal : List (List Nibble)) :
    nodeCalls keccak options first last path blob internal = [] ∨
      nodeCalls keccak options first last path blob internal = [.boundaryInc] ∨
      nodeCalls keccak options first last path blob internal =
        internal.map .clean ++ [.write path (keccak blob) blob] := by
  unfold nodeCalls
  split_ifs <;> simp

theorem nodeCalls_paths {path : List Nibble} {blob : Bytes} {internal : List (List Nibble)} :
    ∀ e ∈ nodeCalls keccak options first last path blob internal, ∀ q ∈ e.path,
      q = path ∨ q ∈ internal := by
  rcases nodeCalls_cases path blob internal with calls | calls | calls <;> rw [calls]
  · simp
  · simp [Event.path]
  · intro e mem q found
    rcases List.mem_append.mp mem with mem | mem
    · obtain ⟨c, inside, rfl⟩ := List.mem_map.mp mem
      exact .inr (Option.some.inj found ▸ inside)
    · rw [List.mem_singleton.mp mem] at found
      exact .inl (Option.some.inj found).symm

theorem nodeCalls_written {path : List Nibble} {blob : Bytes} {internal : List (List Nibble)} :
    ∀ e ∈ nodeCalls keccak options first last path blob internal, ∀ q ∈ e.written, q = path := by
  rcases nodeCalls_cases path blob internal with calls | calls | calls <;> rw [calls]
  · simp
  · simp [Event.written]
  · intro e mem q found
    rcases List.mem_append.mp mem with mem | mem
    · obtain ⟨c, -, rfl⟩ := List.mem_map.mp mem
      cases found
    · rw [List.mem_singleton.mp mem] at found
      exact (Option.some.inj found).symm

theorem nodeCalls_cleaned {path c : List Nibble} {blob : Bytes} {internal : List (List Nibble)}
    (cleaned : .clean c ∈ nodeCalls keccak options first last path blob internal) : c ∈ internal := by
  rcases nodeCalls_cases path blob internal with calls | calls | calls <;> rw [calls] at cleaned
  · cases cleaned
  · simp at cleaned
  · simpa using cleaned

/-- One node's calls commit bottom-up when its cleaner paths lie below it. -/
theorem nodeCalls_before {path : List Nibble} {blob : Bytes} {internal : List (List Nibble)}
    (below : ∀ c ∈ internal, ¬ c <+: path) :
    (nodeCalls keccak options first last path blob internal).Pairwise Event.Before := by
  rcases nodeCalls_cases path blob internal with calls | calls | calls <;> rw [calls]
  · exact .nil
  · exact List.pairwise_singleton _ _
  · refine List.pairwise_append.mpr ⟨List.pairwise_map.mpr (List.pairwise_of_forall fun _ _ => by
      simp [Event.Before, Event.written]), List.pairwise_singleton _ _, ?_⟩
    simp only [List.mem_map, List.mem_singleton]
    rintro _ ⟨c, mem, rfl⟩ _ rfl
    simpa [Event.Before, Event.path, Event.written] using below c mem

theorem nodeCalls_cleansThenWrite {path : List Nibble} {blob : Bytes} {internal : List (List Nibble)}
    (below : ∀ c ∈ internal, path <+: c ∧ path ≠ c) :
    CleansThenWrite (nodeCalls keccak options first last path blob internal) := by
  rcases nodeCalls_cases path blob internal with calls | calls | calls <;> rw [calls]
  · exact CleansThenWrite.nil
  · exact CleansThenWrite.nil.cons (fun c found => by cases found) fun q found => by cases found
  · exact CleansThenWrite.cleans_write below _ _

theorem mem_extInternal {path key c : List Nibble} {child : Trie}
    (inside : c ∈ extInternal keccak options path key child) :
    ∃ i, 1 ≤ i ∧ i < key.length ∧ c = path ++ key.take i := by
  unfold extInternal at inside
  split_ifs at inside
  · obtain ⟨i, bounds, rfl⟩ := List.mem_map.mp inside
    obtain ⟨low, high⟩ := List.mem_range'_1.mp bounds
    exact ⟨i, low, by omega, rfl⟩
  · cases inside

/-- An extension's cleaner paths lie strictly between it and its child. -/
theorem extInternal_below {path key : List Nibble} {child : Trie} :
    ∀ c ∈ extInternal keccak options path key child, path <+: c ∧ path ≠ c := fun c inside => by
  obtain ⟨i, low, high, rfl⟩ := mem_extInternal inside
  refine ⟨List.prefix_append _ _, fun same => ?_⟩
  have := congrArg List.length same
  simp only [List.length_append, List.length_take] at this
  omega

/-- An extension's cleaner paths are shorter than the path of its child. -/
theorem extInternal_shorter {path key : List Nibble} {child : Trie} :
    ∀ c ∈ extInternal keccak options path key child, c.length < (path ++ key).length :=
  fun c inside => by
    obtain ⟨i, low, high, rfl⟩ := mem_extInternal inside
    simp only [List.length_append, List.length_take]
    omega

theorem not_prefix_of_below {path c : List Nibble} (below : path <+: c ∧ path ≠ c) : ¬ c <+: path :=
  fun pre => below.2 (below.1.eq_of_length (Nat.le_antisymm below.1.length_le pre.length_le))

/-- Every call committing `t` at `path` is about a path through `path`. -/
theorem commits_paths (t : Trie) (path : List Nibble) :
    ∀ e ∈ t.commits keccak options first last path, ∀ q ∈ e.path, path <+: q := by
  induction t generalizing path with
  | leaf key val =>
    intro e mem q found
    rcases nodeCalls_paths e mem q found with rfl | absurd
    · exact List.prefix_refl _
    · simp at absurd
  | ext key child ih =>
    simp only [Trie.commits, List.mem_append]
    rintro e (mem | mem) q found
    · exact (List.prefix_append path key).trans (ih _ e mem q found)
    · rcases nodeCalls_paths e mem q found with rfl | inside
      · exact List.prefix_refl _
      · exact (extInternal_below q inside).1
  | branch children ih =>
    simp only [Trie.commits, List.mem_append, List.mem_flatMap]
    rintro e (⟨j, -, mem⟩ | mem) q found
    · cases slot : children j with
      | none => simp [slot, Trie.optCommits] at mem
      | some c =>
        rw [slot, Trie.optCommits] at mem
        exact (List.prefix_append path [j]).trans (ih j c slot _ e mem q found)
    · rcases nodeCalls_paths e mem q found with rfl | absurd
      · exact List.prefix_refl _
      · simp at absurd

theorem optCommits_paths (o : Option Trie) (path : List Nibble) :
    ∀ e ∈ Trie.optCommits keccak options first last o path, ∀ q ∈ e.path, path <+: q := by
  cases o with
  | none => simp [Trie.optCommits]
  | some t => exact commits_paths t path

/-- Committing a canonical trie is bottom-up: no call writes at or below a path
written or cleaned before it. -/
theorem commits_before {t : Trie} (wf : t.WF) (path : List Nibble) :
    (t.commits keccak options first last path).Pairwise Event.Before := by
  induction t generalizing path with
  | leaf key val => exact nodeCalls_before (by simp)
  | ext key child ih =>
    obtain ⟨nonempty, -, wfc⟩ := wf
    refine List.pairwise_append.mpr ⟨ih wfc _, nodeCalls_before fun c inside =>
      not_prefix_of_below (extInternal_below c inside), fun e mem e' mem' p found q found' => ?_⟩
    rw [nodeCalls_written e' mem' q found']
    exact not_prefix_of_extends (commits_paths child _ e mem p found) nonempty
  | branch children ih =>
    refine List.pairwise_append.mpr ⟨List.pairwise_flatMap.mpr ⟨fun j _ => ?_, ?_⟩,
      nodeCalls_before (by simp), fun e mem e' mem' p found q found' => ?_⟩
    · cases slot : children j with
      | none => exact .nil
      | some c => exact ih j c slot (wf.branch_child slot) _
    · -- calls under different slots, left to right
      refine (List.pairwise_lt_finRange 16).imp fun {j j'} lt e mem e' mem' p found q found' =>
        not_prefix_of_slots (ne_of_lt lt) (optCommits_paths _ _ e mem p found)
          (optCommits_paths _ _ e' mem' q (Event.path_of_written found'))
    · rw [nodeCalls_written e' mem' q found']
      obtain ⟨j, -, mem⟩ := List.mem_flatMap.mp mem
      exact not_prefix_of_extends (optCommits_paths _ _ e mem p found) (List.cons_ne_nil _ _)

/-- In the calls committing a trie, each cleaner call comes before every write above
it and leads, through more cleaner calls only, to the write of the extension above it. -/
theorem commits_cleansThenWrite (t : Trie) (path : List Nibble) :
    CleansThenWrite (t.commits keccak options first last path) := by
  induction t generalizing path with
  | leaf key val => exact nodeCalls_cleansThenWrite (by simp)
  | ext key child ih =>
    -- the child's writes are through `path ++ key`, the cleaner paths above it
    refine (ih _).append (nodeCalls_cleansThenWrite extInternal_below) fun e mem q found c cleaned =>
      not_prefix_of_shorter (commits_paths child _ e mem q (Event.path_of_written found))
        (extInternal_shorter c (nodeCalls_cleaned cleaned))
  | branch children ih =>
    refine (CleansThenWrite.flatMap (fun j _ => ?_) ?_).append (nodeCalls_cleansThenWrite (by simp))
      fun _ _ _ _ c cleaned => absurd (nodeCalls_cleaned cleaned) (List.not_mem_nil c)
    · cases slot : children j with
      | none => exact CleansThenWrite.nil
      | some c => exact ih j c slot _
    · -- writes under one slot, cleaner calls under a later one
      exact (List.pairwise_lt_finRange 16).imp fun {j j'} lt e mem q found c cleaned =>
        not_prefix_of_slots (ne_of_lt lt) (optCommits_paths _ _ e mem q (Event.path_of_written found))
          (optCommits_paths _ _ _ cleaned c rfl)

end Order

/-! ## What one update touches -/

namespace StackTrie

variable {keccak : Bytes → Ronin.Hash} (st : StackTrie)

/-- Every call `hash` makes at `path` is about a path through `path`. -/
theorem hash_paths (n : StNode) (path : List Nibble) :
    ∀ e ∈ (st.hash keccak n path).2, ∀ q ∈ e.path, path <+: q := by
  induction n generalizing path with
  | emptyNode => simp [hash]
  | hashedNode v => simp
  | leafNode key val =>
    intro e mem q found
    simp only [hash, commit_calls] at mem
    rcases nodeCalls_paths e mem q found with rfl | absurd
    · exact List.prefix_refl _
    · simp at absurd
  | extNode key child ih =>
    simp only [hash, commit_calls, List.mem_append]
    rintro e (mem | mem) q found
    · exact (List.prefix_append _ _).trans (ih _ e mem q found)
    · rcases nodeCalls_paths e mem q found with rfl | inside
      · exact List.prefix_refl _
      · split_ifs at inside
        · obtain ⟨i, -, rfl⟩ := List.mem_map.mp inside
          exact List.prefix_append _ _
        · simp at inside
  | branchNode children ih =>
    simp only [hash, commit_calls, List.mem_append, List.mem_flatMap]
    rintro e (⟨j, -, mem⟩ | mem) q found
    · cases slot : children j with
      | none => simp [slot, hashChild] at mem
      | some c =>
        simp only [slot, hashChild] at mem
        exact (List.prefix_append path [j]).trans (ih j c slot _ e mem q found)
    · rcases nodeCalls_paths e mem q found with rfl | absurd
      · exact List.prefix_refl _
      · simp at absurd

/-- A subtree hashed at `path ++ [o]` lies left of a key that goes on at `m > o`. -/
theorem leftOf_hashed {path q r : List Nibble} {o m : Nibble} (lt : o < m)
    (through : path ++ [o] <+: q) : LeftOf q (path ++ m :: r) := by
  obtain ⟨s, rfl⟩ := through
  exact ⟨path, o, m, s, r, lt, by simp, rfl⟩

/-- An insert right of the live path writes and cleans only paths left of its key:
the subtrees it hashes are closed off. -/
theorem insert_leftOf {n : StNode} {k key : List Nibble} (front : n.Frontier k) (left : LeftOf k key)
    (value : Bytes) (path : List Nibble) :
    ∀ e ∈ (st.insert keccak n key value path).events, ∀ q ∈ e.path, LeftOf q (path ++ key) := by
  induction n generalizing k key path with
  | emptyNode => simp [StNode.Frontier] at front
  | hashedNode v => simp [StNode.Frontier] at front
  | leafNode nkey val =>
    simp only [StNode.Frontier] at front
    subst front
    obtain ⟨p, o, m, kr, keyr, lt, rfl, rfl⟩ := left
    rw [insert_leafNode_split _ _ (ne_of_lt lt)]
    intro e mem q found
    have := st.hash_paths _ _ e mem q found
    rw [← List.append_assoc] at this
    simpa using leftOf_hashed lt this
  | extNode nkey child ih =>
    obtain ⟨-, -, rest, rfl, front⟩ := front
    rcases left.append_cases with ⟨rest', rfl, onward⟩ | ⟨p, o, m, kr, keyr, lt, rfl, rfl⟩
    · rw [insert_extNode_full]
      simpa using ih front onward (path ++ nkey)
    · rw [insert_extNode_split _ _ (ne_of_lt lt)]
      intro e mem q found
      have := st.hash_paths _ _ e mem q found
      rw [← List.append_assoc] at this
      simpa using leftOf_hashed lt this
  | branchNode children ih =>
    cases k with
    | nil => simp [StNode.Frontier] at front
    | cons i rest =>
      cases key with
      | nil => exact absurd left LeftOf.nil_right
      | cons idx rest' =>
        obtain ⟨live, -, settled, above⟩ := front
        obtain ⟨c, found⟩ : ∃ c, children i = some c :=
          Option.ne_none_iff_exists'.mp fun empty => by simp [empty] at live
        rw [found, StNode.optFrontier_some] at live
        rw [insert_branchNode_cons]
        rcases LeftOf.cons_iff.mp left with lt | ⟨rfl, onward⟩
        · -- the path child is hashed whole; the new leaf calls nothing
          rw [st.hashElder_live lt found live.not_hashed (fun j right _ => above j right)]
          simp only [Function.update_noteq (ne_of_gt lt), above idx lt, insertChild_none,
            List.append_nil]
          exact fun e mem q found => leftOf_hashed lt (st.hash_paths _ _ e mem q found)
        · rw [st.hashElder_settled settled path]
          simp only [found, insertChild_some, List.nil_append]
          simpa using ih i c found live onward (path ++ [i])

/-! ## Sorted runs -/

/-- A run of increasing, prefix-free keys with values, then `Hash`: the writer and
cleaner calls never write at or below a path written or cleaned before (so writes go
bottom-up and an extension's cleaner calls follow every write below them); each
cleaner call comes before every write at or above its path and leads, through more
cleaner calls only, to the write of the extension above it; and every update writes and cleans only paths smaller than its key's and
not on it. -/
theorem commit_order_of_sorted (options : StackTrieOptions) (kvs : List (Bytes × Bytes))
    (sorted : (kvs.map Prod.fst).Pairwise (· < ·))
    (prefixFree : (kvs.map Prod.fst).Pairwise fun a b => ¬ a <+: b ∧ ¬ b <+: a)
    (nonempty : ∀ kv ∈ kvs, kv.2 ≠ []) :
    (((newStackTrie options).tryUpdateAll keccak kvs).2.1 ++
        (((newStackTrie options).tryUpdateAll keccak kvs).1.Hash keccak).2.2).Pairwise
        Event.Before ∧
      CleansThenWrite (((newStackTrie options).tryUpdateAll keccak kvs).2.1 ++
        (((newStackTrie options).tryUpdateAll keccak kvs).1.Hash keccak).2.2) ∧
      ∀ pre kv post, kvs = pre ++ kv :: post →
        ∀ e ∈ (((newStackTrie options).tryUpdateAll keccak pre).1.tryUpdate keccak kv.1 kv.2).2.1,
          ∀ q ∈ e.path, q < keybytesToHex kv.1 ∧ ¬ q <+: keybytesToHex kv.1 := by
  have keys := leftOf_of_sorted sorted prefixFree
  obtain ⟨mpt, canonical, calls⟩ := @tryUpdateAll_Hash_commits keccak (newStackTrie options)
    (newStackTrie_settled options) none [] (by simp [StNode.RepresentsRoot, newStackTrie]) rfl kvs
    keys (by simp [newStackTrie]) nonempty
  simp only [committed, List.nil_append] at calls canonical
  rw [calls]
  refine ⟨?_, ?_, ?_⟩
  · cases mpt with
    | none => exact .nil
    | some t => exact commits_before canonical.1 []
  · cases mpt with
    | none => exact CleansThenWrite.nil
    | some t => exact commits_cleansThenWrite t []
  · -- the update of `kv`, from the state the updates before it left
    rintro pre kv post rfl e mem q found
    rw [List.map_append, List.pairwise_append] at keys
    obtain ⟨-, settled, last⟩ := @tryUpdateAll_settled keccak (newStackTrie options)
      (newStackTrie_settled options) pre keys.1 (by simp [newStackTrie])
      fun kv' mem => nonempty kv' (by simp [mem])
    simp only [tryUpdate, nonempty kv (by simp), if_false] at mem
    unfold Settled at settled
    split at settled
    · simp [settled.1] at mem
    · rename_i k final
      obtain ⟨kv', found'⟩ : ∃ kv', pre.getLast? = some kv' := by
        cases h : pre.getLast? with
        | some kv' => exact ⟨kv', rfl⟩
        | none => simp [List.getLast?_eq_none_iff.mp h, tryUpdateAll, newStackTrie] at final
      rw [last kv' found', Option.some.injEq] at final
      have right : LeftOf k (keybytesToHex kv.1) := final ▸ keys.2.2 kv'.1
        (List.mem_map_of_mem _ (List.mem_of_getLast?_eq_some found')) kv.1 (by simp)
      have touched := insert_leftOf _ settled.1 right kv.2 [] e mem q found
      exact ⟨touched.lt, touched.incomparable.1⟩

/-- The same two keys, with a writer and a cleaner. -/
theorem commit_order_of_sorted_two_keys :
    ([[0x10], [0x12]] : List Bytes).Pairwise (· < ·) ∧
      ([[0x10], [0x12]] : List Bytes).Pairwise (fun a b => ¬ a <+: b ∧ ¬ b <+: a) ∧
      (((newStackTrie { writer := true, cleaner := true }).tryUpdateAll bytesToHash
          [([0x10], [1]), ([0x12], [2])]).2.1 ++
        (((newStackTrie { writer := true, cleaner := true }).tryUpdateAll bytesToHash
          [([0x10], [1]), ([0x12], [2])]).1.Hash bytesToHash).2.2).Pairwise Event.Before ∧
      CleansThenWrite (((newStackTrie { writer := true, cleaner := true }).tryUpdateAll bytesToHash
          [([0x10], [1]), ([0x12], [2])]).2.1 ++
        (((newStackTrie { writer := true, cleaner := true }).tryUpdateAll bytesToHash
          [([0x10], [1]), ([0x12], [2])]).1.Hash bytesToHash).2.2) ∧
      ∀ pre kv post, [([0x10], [1]), ([0x12], [2])] = pre ++ kv :: post →
        ∀ e ∈ (((newStackTrie { writer := true, cleaner := true }).tryUpdateAll bytesToHash
            pre).1.tryUpdate bytesToHash kv.1 kv.2).2.1,
          ∀ q ∈ e.path, q < keybytesToHex kv.1 ∧ ¬ q <+: keybytesToHex kv.1 :=
  ⟨List.pairwise_pair.mpr (List.Lex.rel (by decide)), by decide,
    @commit_order_of_sorted bytesToHash { writer := true, cleaner := true }
      [([0x10], [1]), ([0x12], [2])] (List.pairwise_pair.mpr (List.Lex.rel (by decide))) (by decide)
      (by decide)⟩

end StackTrie

end Ronin
