import Egos.Lib.RadixTree

/-!
# Free Lists in a Pointer Graph

A free list is a chain of nodes linked through reference `0`; every other non-null
reference of a node is a free address too, and so is the node itself.

- `entries` are the free addresses a node refers to.
- `Chain refs b L` says that the chain from `b` is finite and that `L` holds, with
  multiplicity, its nodes and their entries.

An address is taken out of a chain in one of two ways, `Chain.take` (an entry of the
first node is cleared) and `Chain.pop` (the first node is used up). Both leave a chain
that holds exactly the rest.
-/

namespace Egos.Lib.FreeList

open Finset Egos.Lib.RadixTree

variable {A : Type} [DecidableEq A] [Zero A] {k : ℕ} [NeZero k]

/-- The address `x` as a multiset, nothing if it is null. -/
def entry (x : A) : Multiset A := if x = 0 then 0 else {x}

/-- The free addresses a node refers to: its non-null references from slot `1` on. -/
def entries (node : Fin k → A) : Multiset A :=
  ∑ i ∈ univ.erase 0, entry (node i)

/-- The chain from `b` is finite and holds the free addresses `L`. -/
inductive Chain (refs : A → Fin k → A) : A → Multiset A → Prop where
  | nil : Chain refs 0 0
  | node {b : A} {L : Multiset A} (hb : b ≠ 0) (htail : Chain refs (refs b 0) L) :
      Chain refs b (b ::ₘ (entries (refs b) + L))

variable {refs refs' : A → Fin k → A} {b x : A} {L : Multiset A}

@[simp] theorem entry_null : entry (0 : A) = 0 := by
  simp [entry]

theorem entry_of_ne (hx : x ≠ 0) : entry x = {x} := by
  simp [entry, hx]

theorem ne_zero_of_mem_entry {y : A} (h : y ∈ entry x) : y ≠ 0 := by
  by_cases hx : x = 0
  · simp [hx] at h
  · rw [entry_of_ne hx, Multiset.mem_singleton] at h
    exact h ▸ hx

theorem ne_zero_of_mem_entries {node : Fin k → A} (h : x ∈ entries node) : x ≠ 0 := by
  rw [entries, Multiset.mem_sum] at h
  obtain ⟨i, -, hi⟩ := h
  exact ne_zero_of_mem_entry hi

theorem Chain.ne_zero_of_mem (h : Chain refs b L) (hx : x ∈ L) : x ≠ 0 := by
  induction h with
  | nil => simp at hx
  | node hb _ ih =>
    rw [Multiset.mem_cons, Multiset.mem_add] at hx
    rcases hx with rfl | hx | hx
    · exact hb
    · exact ne_zero_of_mem_entries hx
    · exact ih hx

/-- The first node of a non-empty chain is one of its addresses. -/
theorem Chain.head_mem (h : Chain refs b L) (hb : b ≠ 0) : b ∈ L := by
  cases h with
  | nil => exact absurd rfl hb
  | node _ _ => exact Multiset.mem_cons_self _ _

/-- The null chain holds no addresses. -/
theorem Chain.eq_zero_of_null (h : Chain refs b L) (hb : b = 0) : L = 0 := by
  cases h with
  | nil => rfl
  | node hne _ => exact absurd hb hne

theorem Chain.null_of_eq_zero (h : Chain refs b L) (hL : L = 0) : b = 0 := by
  by_contra hb
  have hmem := h.head_mem hb
  rw [hL] at hmem
  exact absurd hmem (Multiset.notMem_zero b)

/-- A chain is unchanged when the references of all its addresses are. -/
theorem Chain.congr (h : Chain refs b L) (hrefs : ∀ y ∈ L, refs' y = refs y) :
    Chain refs' b L := by
  induction h with
  | nil => exact Chain.nil
  | @node b L hb _ ih =>
    have hroot : refs' b = refs b := hrefs b (Multiset.mem_cons_self _ _)
    have htail : Chain refs' (refs' b 0) L := by
      rw [hroot]
      apply ih
      intro y hy
      exact hrefs y (Multiset.mem_cons_of_mem (Multiset.mem_add.mpr (Or.inr hy)))
    have hnode := Chain.node hb htail
    rwa [hroot] at hnode

theorem mem_entries {node : Fin k → A} {i : Fin k} (hi : i ≠ 0) (hx : node i ≠ 0) :
    node i ∈ entries node := by
  rw [entries, Multiset.mem_sum]
  exact ⟨i, mem_erase.mpr ⟨hi, mem_univ i⟩, by rw [entry_of_ne hx]; exact Multiset.mem_singleton_self _⟩

/-- The last address of a chain refers to nothing: it is a node without entries and without
    a successor. -/
theorem Chain.null_of_singleton (h : Chain refs b L) (hL : L = {x}) (i : Fin k) :
    refs x i = 0 := by
  cases h with
  | nil => exact absurd hL.symm (Multiset.singleton_ne_zero x)
  | @node _ L hb htail =>
    obtain ⟨rfl, hrest⟩ := (Multiset.singleton_eq_cons_iff _).mp hL.symm
    obtain ⟨hentries, htailL⟩ := add_eq_zero.mp hrest
    by_cases hi : i = 0
    · rw [hi]
      exact htail.null_of_eq_zero htailL
    · by_contra hne
      have hmem := mem_entries hi hne
      rw [hentries] at hmem
      exact absurd hmem (Multiset.notMem_zero _)

/-- Clearing slot `i` of a node takes exactly its address out of the entries. -/
theorem entries_clear {node : Fin k → A} {i : Fin k} (hi : i ≠ 0) (hx : node i ≠ 0) :
    entries node = node i ::ₘ entries (Function.update node i 0) := by
  have hmem : i ∈ (univ : Finset (Fin k)).erase 0 := mem_erase.mpr ⟨hi, mem_univ i⟩
  have hrest : ∑ j ∈ (univ.erase (0 : Fin k)).erase i, entry (Function.update node i 0 j) =
      ∑ j ∈ (univ.erase (0 : Fin k)).erase i, entry (node j) := by
    apply sum_congr rfl
    intro j hj
    rw [Function.update_of_ne (ne_of_mem_erase hj)]
  rw [entries, entries, ← add_sum_erase _ _ hmem,
    ← add_sum_erase _ (fun j => entry (Function.update node i 0 j)) hmem, hrest,
    Function.update_self, entry_null, zero_add, entry_of_ne hx, Multiset.singleton_add]

/-- Taking the address in slot `i` of the first node. -/
theorem Chain.take {i : Fin k} (h : Chain refs b L) (hb : b ≠ 0) (hnodup : L.Nodup)
    (hi : i ≠ 0) (hx : refs b i ≠ 0) (hrefs : refs' b = Function.update (refs b) i 0)
    (hframe : ∀ y, y ≠ b → refs' y = refs y) :
    ∃ L', L = refs b i ::ₘ L' ∧ Chain refs' b L' := by
  cases h with
  | nil => exact absurd rfl hb
  | @node _ L hb htail =>
    refine ⟨b ::ₘ (entries (Function.update (refs b) i 0) + L), ?_, ?_⟩
    · rw [entries_clear hi hx, Multiset.cons_add, Multiset.cons_swap]
    · have hbL : b ∉ L := by
        intro hmem
        exact (Multiset.nodup_cons.mp hnodup).1 (Multiset.mem_add.mpr (Or.inr hmem))
      have hzero : refs' b 0 = refs b 0 := by
        rw [hrefs, Function.update_of_ne (fun h => hi h.symm)]
      have htail' : Chain refs' (refs' b 0) L := by
        rw [hzero]
        exact htail.congr fun y hy => hframe y (fun hyb => hbL (hyb ▸ hy))
      have hnode := Chain.node hb htail'
      rwa [hrefs] at hnode

/-- Using up a first node that has no entries left. -/
theorem Chain.pop (h : Chain refs b L) (hb : b ≠ 0) (hempty : ∀ i ≠ 0, refs b i = 0) :
    ∃ L', L = b ::ₘ L' ∧ Chain refs (refs b 0) L' := by
  cases h with
  | nil => exact absurd rfl hb
  | @node _ L hb htail =>
    refine ⟨L, ?_, htail⟩
    have hentries : entries (refs b) = 0 := by
      apply sum_eq_zero
      intro i hi
      rw [hempty i (ne_of_mem_erase hi), entry_null]
    rw [hentries, zero_add]

end Egos.Lib.FreeList
