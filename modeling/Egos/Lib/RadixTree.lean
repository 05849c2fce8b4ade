import Mathlib.Algebra.Ring.Nat
import Mathlib.Algebra.BigOperators.Group.Finset.Basic
import Mathlib.Algebra.Order.BigOperators.Group.Finset
import Mathlib.Algebra.Order.Group.Multiset
import Mathlib.Data.Fintype.BigOperators
import Mathlib.Data.Nat.Log

/-!
# Radix Trees in a Pointer Graph

A pointer graph `refs : A → Fin k → A` gives every address `k` references; the address
`0` is the null reference. A radix tree of depth `n` below `b` is the part of the graph
that can be reached from `b` in at most `n` steps: an offset is turned into a path by
its base-`k` digits, most significant first, and a null reference is a hole.

- `digit k n off` is digit `n` of `off` in base `k`.
- `leaf refs n b off` is the address at the end of the path of `off`, or `0`.
- `nodes refs n b` is the multiset of all addresses of the tree, with multiplicity.
- `Route P refs off n b x` is a path without holes, through addresses of `P`, to `x`.
- `follow refs b path` follows an explicit index path.

The frame lemmas `nodes_congr` and `leaf_congr` say that a tree only depends on the
references of its own nodes. `nodes_graft` and `nodes_addRoot` are the two ways a tree
changes: one child is replaced, or a new root is put on top.
-/

namespace Egos.Lib.RadixTree

open Finset

/-! ## Digits -/

section Digits

variable (k : ℕ) [NeZero k]

/-- Digit `n` of `off` in base `k`. -/
def digit (n off : ℕ) : Fin k :=
  ⟨off / k ^ n % k, Nat.mod_lt _ (Nat.pos_of_ne_zero (NeZero.ne k))⟩

theorem digit_mod (n off : ℕ) : digit k n (off % k ^ (n + 1)) = digit k n off := by
  apply Fin.ext
  show off % k ^ (n + 1) / k ^ n % k = off / k ^ n % k
  rw [pow_succ, Nat.mod_mul_right_div_self, Nat.mod_mod]

/-- Two offsets with the same residue modulo `k ^ (n + 1)` have the same digit `n`. -/
theorem digit_eq_of_mod_eq {n off off' : ℕ}
    (h : off % k ^ (n + 1) = off' % k ^ (n + 1)) : digit k n off = digit k n off' := by
  rw [← digit_mod, h, digit_mod]

/-- A residue modulo `k ^ (n + 1)` is digit `n` and the residue modulo `k ^ n`. -/
theorem mod_pow_succ_eq_iff {n off off' : ℕ} :
    off % k ^ (n + 1) = off' % k ^ (n + 1) ↔
      digit k n off = digit k n off' ∧ off % k ^ n = off' % k ^ n := by
  have hsplit : ∀ x, x % k ^ (n + 1) = x % k ^ n + k ^ n * (x / k ^ n % k) := by
    intro x
    rw [pow_succ, Nat.mod_mul]
  constructor
  · intro h
    refine ⟨digit_eq_of_mod_eq k h, ?_⟩
    have hdvd : k ^ n ∣ k ^ (n + 1) := pow_dvd_pow k (Nat.le_succ n)
    rw [← Nat.mod_mod_of_dvd off hdvd, h, Nat.mod_mod_of_dvd off' hdvd]
  · rintro ⟨hdigit, hmod⟩
    have hd : off / k ^ n % k = off' / k ^ n % k := congrArg Fin.val hdigit
    rw [hsplit, hsplit, hd, hmod]

/-- Offsets below `k ^ n` have a zero in digit `n`. -/
theorem digit_eq_zero_of_lt {n off : ℕ} (h : off < k ^ n) : (digit k n off : ℕ) = 0 := by
  show off / k ^ n % k = 0
  rw [Nat.div_eq_of_lt h, Nat.zero_mod]

/-- Offsets from `k ^ n` up to `k ^ (n + 1)` have a non-zero digit `n`. -/
theorem digit_ne_zero_of_le {n off : ℕ} (hle : k ^ n ≤ off) (hlt : off < k ^ (n + 1)) :
    (digit k n off : ℕ) ≠ 0 := by
  show off / k ^ n % k ≠ 0
  have hpos : 0 < k ^ n := Nat.pow_pos (Nat.pos_of_ne_zero (NeZero.ne k))
  have hq : off / k ^ n < k := by
    apply Nat.div_lt_of_lt_mul
    rwa [← pow_succ]
  rw [Nat.mod_eq_of_lt hq]
  exact (Nat.div_pos hle hpos).ne'

end Digits

/-! ## Trees -/

section Trees

variable {A : Type} [DecidableEq A] [Zero A] {k : ℕ}

/-- The address at the end of the path of `off` in the tree of depth `n` below `b`,
    `0` if the path meets a hole. -/
def leaf [NeZero k] (refs : A → Fin k → A) : ℕ → A → ℕ → A
  | 0, b, _ => b
  | n + 1, b, off => if b = 0 then 0 else leaf refs n (refs b (digit k n off)) off

/-- All addresses of the tree of depth `n` below `b`, with multiplicity. -/
def nodes (refs : A → Fin k → A) : ℕ → A → Multiset A
  | 0, b => if b = 0 then 0 else {b}
  | n + 1, b => if b = 0 then 0 else b ::ₘ ∑ i, nodes refs n (refs b i)

variable {refs refs' : A → Fin k → A}

@[simp] theorem leaf_null [NeZero k] (n off : ℕ) : leaf refs n 0 off = 0 := by
  cases n <;> simp [leaf]

@[simp] theorem nodes_null (n : ℕ) : nodes refs n 0 = 0 := by
  cases n <;> simp [nodes]

theorem leaf_succ [NeZero k] {n : ℕ} {b : A} (hb : b ≠ 0) (off : ℕ) :
    leaf refs (n + 1) b off = leaf refs n (refs b (digit k n off)) off := by
  simp [leaf, hb]

theorem nodes_zero {b : A} (hb : b ≠ 0) : nodes refs 0 b = {b} := by
  simp [nodes, hb]

theorem nodes_succ {n : ℕ} {b : A} (hb : b ≠ 0) :
    nodes refs (n + 1) b = b ::ₘ ∑ i, nodes refs n (refs b i) := by
  simp [nodes, hb]

theorem root_mem_nodes {n : ℕ} {b : A} (hb : b ≠ 0) : b ∈ nodes refs n b := by
  cases n with
  | zero => simp [nodes_zero hb]
  | succ n => simp [nodes_succ hb]

theorem nodes_child_le {n : ℕ} {b : A} (hb : b ≠ 0) (i : Fin k) :
    nodes refs n (refs b i) ≤ nodes refs (n + 1) b := by
  have hsum : nodes refs n (refs b i) ≤ ∑ j, nodes refs n (refs b j) :=
    single_le_sum (f := fun j => nodes refs n (refs b j))
      (fun _ _ => Multiset.zero_le _) (mem_univ i)
  rw [nodes_succ hb]
  exact hsum.trans (Multiset.le_cons_self _ b)

theorem ne_zero_of_mem_nodes {n : ℕ} {b x : A} (hx : x ∈ nodes refs n b) : x ≠ 0 := by
  induction n generalizing b with
  | zero =>
    by_cases hb : b = 0
    · simp [hb] at hx
    · rw [nodes_zero hb, Multiset.mem_singleton] at hx
      exact hx ▸ hb
  | succ n ih =>
    by_cases hb : b = 0
    · simp [hb] at hx
    · rw [nodes_succ hb, Multiset.mem_cons, Multiset.mem_sum] at hx
      rcases hx with rfl | ⟨i, -, hi⟩
      · exact hb
      · exact ih hi

theorem leaf_mem_nodes [NeZero k] {n : ℕ} {b : A} {off : ℕ} (h : leaf refs n b off ≠ 0) :
    leaf refs n b off ∈ nodes refs n b := by
  induction n generalizing b with
  | zero =>
    have hb : b ≠ 0 := h
    simp [leaf, nodes_zero hb]
  | succ n ih =>
    by_cases hb : b = 0
    · simp [hb] at h
    · rw [leaf_succ hb] at h ⊢
      exact Multiset.mem_of_le (nodes_child_le hb _) (ih h)

/-- The sum over all children, with child `s` taken out. -/
theorem sum_children_split {M : Type} [AddCommMonoid M] (f : Fin k → M) (s : Fin k) :
    ∑ i, f i = f s + ∑ i ∈ univ.erase s, f i :=
  (add_sum_erase univ f (mem_univ s)).symm

/-! ## Trees without repeated addresses -/

theorem nodup_child {n : ℕ} {b : A} (hnodup : (nodes refs (n + 1) b).Nodup) (hb : b ≠ 0)
    (i : Fin k) : (nodes refs n (refs b i)).Nodup :=
  Multiset.nodup_of_le (nodes_child_le hb i) hnodup

theorem root_notMem_child {n : ℕ} {b : A} (hnodup : (nodes refs (n + 1) b).Nodup)
    (hb : b ≠ 0) (i : Fin k) : b ∉ nodes refs n (refs b i) := by
  rw [nodes_succ hb, Multiset.nodup_cons] at hnodup
  intro hmem
  exact hnodup.1 (Multiset.mem_sum.mpr ⟨i, mem_univ i, hmem⟩)

theorem notMem_other_child {n : ℕ} {b x : A} (hnodup : (nodes refs (n + 1) b).Nodup)
    (hb : b ≠ 0) {i j : Fin k} (hij : i ≠ j) (hx : x ∈ nodes refs n (refs b i)) :
    x ∉ nodes refs n (refs b j) := by
  rw [nodes_succ hb, Multiset.nodup_cons, sum_children_split _ i] at hnodup
  intro hxj
  have hrest : x ∈ ∑ l ∈ univ.erase i, nodes refs n (refs b l) :=
    Multiset.mem_sum.mpr ⟨j, mem_erase.mpr ⟨hij.symm, mem_univ j⟩, hxj⟩
  exact Multiset.disjoint_left.mp (Multiset.nodup_add.mp hnodup.2).2.2 hx hrest

/-! ## Frame -/

/-- A tree is unchanged when the references of all its nodes are. -/
theorem nodes_congr {n : ℕ} {b : A} (h : ∀ x ∈ nodes refs n b, refs' x = refs x) :
    nodes refs' n b = nodes refs n b := by
  induction n generalizing b with
  | zero => rfl
  | succ n ih =>
    by_cases hb : b = 0
    · simp [hb]
    · have hroot : refs' b = refs b := h b (root_mem_nodes hb)
      rw [nodes_succ hb, nodes_succ hb, hroot]
      congr 1
      apply sum_congr rfl
      intro i _
      exact ih fun x hx => h x (Multiset.mem_of_le (nodes_child_le hb i) hx)

theorem leaf_congr [NeZero k] {n : ℕ} {b : A} (h : ∀ x ∈ nodes refs n b, refs' x = refs x)
    (off : ℕ) : leaf refs' n b off = leaf refs n b off := by
  induction n generalizing b with
  | zero => rfl
  | succ n ih =>
    by_cases hb : b = 0
    · simp [hb]
    · have hroot : refs' b = refs b := h b (root_mem_nodes hb)
      rw [leaf_succ hb, leaf_succ hb, hroot]
      exact ih fun x hx => h x (Multiset.mem_of_le (nodes_child_le hb _) hx)

/-! ## Routes -/

/-- The path of `off` in the tree of depth `n` below `b` meets no hole, stays within `P` and
    ends at `x`. -/
inductive Route [NeZero k] (P : A → Prop) (refs : A → Fin k → A) (off : ℕ) : ℕ → A → A → Prop where
  | last {x : A} (hx : x ≠ 0) (hP : P x) : Route P refs off 0 x x
  | next {n : ℕ} {b x : A} (hb : b ≠ 0) (hP : P b)
      (htail : Route P refs off n (refs b (digit k n off)) x) : Route P refs off (n + 1) b x

section Routes

variable [NeZero k] {P : A → Prop} {n off : ℕ} {b x : A}

omit [DecidableEq A] in
theorem Route.root_ne (h : Route P refs off n b x) : b ≠ 0 := by
  cases h with
  | last hx _ => exact hx
  | next hb _ _ => exact hb

theorem Route.leaf_eq (h : Route P refs off n b x) : leaf refs n b off = x := by
  induction h with
  | last _ _ => rfl
  | next hb _ _ ih => rw [leaf_succ hb, ih]

theorem Route.end_mem (h : Route P refs off n b x) : x ∈ nodes refs n b := by
  induction h with
  | last hx _ => exact root_mem_nodes hx
  | next hb _ _ ih => exact Multiset.mem_of_le (nodes_child_le hb _) ih

/-- A route only depends on the references of the tree. -/
theorem Route.congr (h : Route P refs off n b x) (hrefs : ∀ y ∈ nodes refs n b, refs' y = refs y) :
    Route P refs' off n b x := by
  induction h with
  | last hx hP => exact .last hx hP
  | @next n b x hb hP _ ih =>
    refine .next hb hP ?_
    rw [hrefs b (root_mem_nodes hb)]
    exact ih fun y hy => hrefs y (Multiset.mem_of_le (nodes_child_le hb _) hy)

/-- The path of an offset that is not in a hole is a route. -/
theorem route_of_leaf_ne (hleaf : leaf refs n b off ≠ 0) (hP : ∀ y ∈ nodes refs n b, P y) :
    Route P refs off n b (leaf refs n b off) := by
  induction n generalizing b with
  | zero =>
    have hb : b ≠ 0 := hleaf
    exact .last hb (hP b (root_mem_nodes hb))
  | succ n ih =>
    by_cases hb : b = 0
    · simp [hb] at hleaf
    · rw [leaf_succ hb] at hleaf ⊢
      exact .next hb (hP b (root_mem_nodes hb))
        (ih hleaf fun y hy => hP y (Multiset.mem_of_le (nodes_child_le hb _) hy))

end Routes

/-! ## The two ways a tree changes -/

/-- Replacing child `s` of `b` by `r`: if the other children keep their trees, the
    nodes below `b` change by what changes below `s`. -/
theorem nodes_graft {n : ℕ} {b r : A} {s : Fin k} {L L' : Multiset A} (hb : b ≠ 0)
    (hrefs : refs' b = Function.update (refs b) s r)
    (hother : ∀ i ≠ s, nodes refs' n (refs b i) = nodes refs n (refs b i))
    (hchild : L' + nodes refs' n r = L + nodes refs n (refs b s)) :
    L' + nodes refs' (n + 1) b = L + nodes refs (n + 1) b := by
  have hrest : ∑ i ∈ univ.erase s, nodes refs' n (refs' b i) =
      ∑ i ∈ univ.erase s, nodes refs n (refs b i) := by
    apply sum_congr rfl
    intro i hi
    have his : i ≠ s := ne_of_mem_erase hi
    rw [hrefs, Function.update_of_ne his, hother i his]
  rw [nodes_succ hb, nodes_succ hb, sum_children_split _ s, hrest,
    sum_children_split (fun i => nodes refs n (refs b i)) s, hrefs, Function.update_self,
    Multiset.add_cons, Multiset.add_cons, ← add_assoc, ← add_assoc, hchild]

/-- A new root over a single old one adds exactly itself. -/
theorem nodes_addRoot {n : ℕ} {b r : A} {s : Fin k} (hb : b ≠ 0) (hs : refs b s = r)
    (hother : ∀ i ≠ s, refs b i = 0) : nodes refs (n + 1) b = b ::ₘ nodes refs n r := by
  have hrest : ∑ i ∈ univ.erase s, nodes refs n (refs b i) = 0 := by
    apply sum_eq_zero
    intro i hi
    rw [hother i (ne_of_mem_erase hi), nodes_null]
  rw [nodes_succ hb, sum_children_split _ s, hrest, hs, add_zero]

/-! ## Explicit paths -/

/-- The address reached from `b` along an index path, `0` if the path meets a hole. -/
def follow (refs : A → Fin k → A) : A → List (Fin k) → A
  | b, [] => b
  | b, i :: path => if b = 0 then 0 else follow refs (refs b i) path

@[simp] theorem follow_null (path : List (Fin k)) : follow refs 0 path = 0 := by
  cases path <;> simp [follow]

theorem follow_cons {b : A} (hb : b ≠ 0) (i : Fin k) (path : List (Fin k)) :
    follow refs b (i :: path) = follow refs (refs b i) path := by
  simp [follow, hb]

theorem follow_append (b : A) (path path' : List (Fin k)) :
    follow refs b (path ++ path') = follow refs (follow refs b path) path' := by
  induction path generalizing b with
  | nil => rfl
  | cons i path ih =>
    by_cases hb : b = 0
    · simp [hb]
    · rw [List.cons_append, follow_cons hb, follow_cons hb, ih]

/-- The addresses of a tree are those that some path of at most its depth reaches. -/
theorem mem_nodes_iff {n : ℕ} {b x : A} :
    x ∈ nodes refs n b ↔ x ≠ 0 ∧ ∃ path : List (Fin k), path.length ≤ n ∧
      follow refs b path = x := by
  constructor
  · intro hx
    refine ⟨ne_zero_of_mem_nodes hx, ?_⟩
    induction n generalizing b with
    | zero =>
      by_cases hb : b = 0
      · simp [hb] at hx
      · rw [nodes_zero hb, Multiset.mem_singleton] at hx
        exact ⟨[], le_rfl, hx.symm⟩
    | succ n ih =>
      by_cases hb : b = 0
      · simp [hb] at hx
      · rw [nodes_succ hb, Multiset.mem_cons, Multiset.mem_sum] at hx
        rcases hx with rfl | ⟨i, -, hi⟩
        · exact ⟨[], Nat.zero_le _, rfl⟩
        · obtain ⟨path, hlen, hpath⟩ := ih hi
          exact ⟨i :: path, by simpa using hlen, by rw [follow_cons hb, hpath]⟩
  · rintro ⟨hx, path, hlen, hpath⟩
    induction path generalizing n b with
    | nil =>
      have hbx : b = x := hpath
      exact hbx ▸ root_mem_nodes (hbx ▸ hx)
    | cons i path ih =>
      have hb : b ≠ 0 := by
        rintro rfl
        exact hx (by simpa using hpath.symm)
      obtain ⟨m, rfl⟩ : ∃ m, n = m + 1 := ⟨n - 1, by simp at hlen; omega⟩
      rw [follow_cons hb] at hpath
      exact Multiset.mem_of_le (nodes_child_le hb i) (ih (by simpa using hlen) hpath)

/-- In a tree without repeated addresses, different paths reach different addresses. -/
theorem path_unique {n : ℕ} {b x : A} (hnodup : (nodes refs n b).Nodup) (hx : x ≠ 0)
    {path path' : List (Fin k)} (hlen : path.length ≤ n) (hlen' : path'.length ≤ n)
    (hpath : follow refs b path = x) (hpath' : follow refs b path' = x) :
    path = path' := by
  induction n generalizing b path path' with
  | zero =>
    rw [List.eq_nil_of_length_eq_zero (Nat.le_zero.mp hlen),
      List.eq_nil_of_length_eq_zero (Nat.le_zero.mp hlen')]
  | succ n ih =>
    have hb : b ≠ 0 := by
      rintro rfl
      exact hx (by simpa using hpath.symm)
    -- an address below a child is never the root again
    have hbelow : ∀ (i : Fin k) (p : List (Fin k)), p.length ≤ n →
        follow refs (refs b i) p = x → x ≠ b := by
      rintro i p hp hfollow rfl
      exact root_notMem_child hnodup hb i (mem_nodes_iff.mpr ⟨hx, p, hp, hfollow⟩)
    match path, path' with
    | [], [] => rfl
    | [], j :: q =>
      rw [follow_cons hb] at hpath'
      exact absurd hpath.symm (hbelow j q (by simpa using hlen') hpath')
    | i :: p, [] =>
      rw [follow_cons hb] at hpath
      exact absurd hpath'.symm (hbelow i p (by simpa using hlen) hpath)
    | i :: p, j :: q =>
      rw [follow_cons hb] at hpath hpath'
      have hp : p.length ≤ n := by simpa using hlen
      have hq : q.length ≤ n := by simpa using hlen'
      have hij : i = j := by
        by_contra hne
        exact notMem_other_child hnodup hb hne (mem_nodes_iff.mpr ⟨hx, p, hp, hpath⟩)
          (mem_nodes_iff.mpr ⟨hx, q, hq, hpath'⟩)
      subst hij
      rw [ih (nodup_child hnodup hb i) hp hq hpath hpath']

end Trees

end Egos.Lib.RadixTree
