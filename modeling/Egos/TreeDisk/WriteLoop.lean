import Egos.TreeDisk.Walk

/-!
# The Tree File System: The Write Loop

The loop of `treedisk_write` that walks down the tree, with everything that can be said about
the stores it goes through:

- at its end the tree has the new block, and the path to it has no hole (`Walked`);
- when it panics, the blocks linked so far have not changed what can be read (`Replaced`
  with the old block). The one block that was linked and not written yet is the last of the
  free list, which is all zeros;
- after each of its writes (`Torn`) the paths of the blocks that were there are as before,
  and so are the blocks, except at the offset itself. Blocks that are linked before they
  are written hang below references that were null, where no such path leads.
-/

namespace Egos.TreeDisk

open Egos.Lib Egos.Lib.BlockProg Egos.Lib.FreeList Egos.Lib.RadixTree

/-! ## Between two writes -/

/-- What the store may look like after any write of the loop. -/
structure Torn (valid : BlockNo → Bool) (d : Store) (L : Multiset BlockNo) (n : Nat)
    (parentOff : BlockNo) (parent : Block) (slot : Fin 128) (offset : BlockNo) (d' : Store) :
    Prop where
  nInodeblocks : (d' 0).nInodeblocks = (d 0).nInodeblocks
  /-- The parent block changes in one slot, and only if that slot was empty. -/
  parent_eq : d' parentOff = d parentOff ∨
    parent slot = 0 ∧ ∃ r, d' parentOff = Function.update parent slot r
  route : ∀ off x, Route (fun y => valid y = true) d off n (parent slot) x →
    Route (fun y => valid y = true) d' off n (parent slot) x ∧
      (off % 128 ^ n ≠ offset.toNat % 128 ^ n → d' x = d x)
  frame : ∀ x, x ≠ 0 → x ≠ parentOff → x ∉ L → x ∉ nodes d n (parent slot) → d' x = d x

section Torn

variable {valid : BlockNo → Bool} {d : Store} {s : Snapshot} {L : Multiset BlockNo}
variable {n : Nat} {parentOff : BlockNo} {parent : Block} {slot : Fin 128}
variable {offset : BlockNo} {block : Block}

/-- The writes of an allocation. -/
theorem torn_untouched (h : WalkPre valid d s L n parentOff parent slot) {d' : Store}
    (hu : Untouched d L d') : Torn valid d L n parentOff parent slot offset d' := by
  obtain ⟨hparentL, _, _, _, hdisj⟩ := h.nodup_parts
  have htree : ∀ x ∈ nodes d n (parent slot), d' x = d x := fun x hx =>
    hu.frame x (ne_zero_of_mem_nodes hx) fun hxL => hdisj x hxL hx
  refine ⟨hu.nInodeblocks, Or.inl (hu.frame _ h.parent_ne hparentL), ?_,
    fun x hx0 _ hxL _ => hu.frame x hx0 hxL⟩
  intro off x hroute
  exact ⟨hroute.congr htree, fun _ => htree x hroute.end_mem⟩

/-- Below an empty slot there is nothing to keep. -/
theorem torn_of_null (hslot : parent slot = 0) {r : BlockNo} {d' : Store}
    (hsuper : (d' 0).nInodeblocks = (d 0).nInodeblocks)
    (hparent : d' parentOff = Function.update parent slot r)
    (hframe : ∀ x, x ≠ 0 → x ≠ parentOff → x ∉ L → d' x = d x) :
    Torn valid d L n parentOff parent slot offset d' :=
  ⟨hsuper, Or.inr ⟨hslot, r, hparent⟩, fun _ _ hroute => absurd hslot hroute.root_ne,
    fun x hx0 hxp hxL _ => hframe x hx0 hxp hxL⟩

/-- The write of the parent block after an allocation. -/
theorem torn_linked {b : BlockNo} {d' : Store}
    (h : WalkPre valid d s L n parentOff parent slot) (hslot : parent slot = 0)
    (hu : Untouched d L d') :
    Torn valid d L n parentOff parent slot offset
      (Function.update d' parentOff (Function.update parent slot b)) := by
  apply torn_of_null hslot
  · rw [Function.update_of_ne h.parent_ne.symm]
    exact hu.nInodeblocks
  · exact Function.update_self _ _ d'
  · intro x hx0 hxp hxL
    rw [Function.update_of_ne hxp, hu.frame x hx0 hxL]

/-- The write of a data block that was there. -/
theorem torn_overwrite (hb : parent slot ≠ 0) (hparent : parentOff ≠ parent slot) :
    Torn valid d L 0 parentOff parent slot offset (Function.update d (parent slot) block) := by
  refine ⟨?_, Or.inl (Function.update_of_ne hparent _ d), ?_, ?_⟩
  · rw [Function.update_of_ne hb.symm]
  · intro off x hroute
    cases hroute with
    | last hx hP =>
      -- in a tree of depth 0 there is no other offset
      exact ⟨.last hx hP, fun hne => absurd (by simp [Nat.mod_one]) hne⟩
  · intro x _ _ _ hx
    rw [nodes_zero hb, Multiset.mem_singleton] at hx
    exact Function.update_of_ne hx _ d

/-- The writes of the loop below a block just linked. -/
theorem torn_link {b : BlockNo} {L₁ : Multiset BlockNo} {s₁ : Snapshot} {d₁ d₂ : Store}
    (h : WalkPre valid d s L (n + 1) parentOff parent slot) (hslot : parent slot = 0)
    (ha : Allocated d s L b L₁ s₁ d₁) {idx : Fin 128}
    (ht : Torn valid (Function.update d₁ parentOff (Function.update parent slot b)) L₁ n b
      nullBlock idx offset d₂) :
    Torn valid d L (n + 1) parentOff parent slot offset d₂ := by
  obtain ⟨hparent, hframe⟩ := link_frame h ha ht.frame
  apply torn_of_null hslot _ hparent hframe
  rw [ht.nInodeblocks, Function.update_of_ne h.parent_ne.symm]
  exact (ha.untouched h.free).nInodeblocks

/-- The writes of the loop below an indirect block that exists already: no reference of the
    block that was in use changes, and the trees of its other references are framed out. -/
theorem torn_descend {d' : Store} (h : WalkPre valid d s L (n + 1) parentOff parent slot)
    (hb : parent slot ≠ 0)
    (ht : Torn valid d L n (parent slot) (d (parent slot)) (refIndex offset n) offset d') :
    Torn valid d L (n + 1) parentOff parent slot offset d' := by
  obtain ⟨hparent, hsibling, hframe⟩ := descend_frame h hb ht.frame
  -- a reference in use is the same after the write
  have hkept : ∀ i, d (parent slot) i ≠ 0 → d' (parent slot) i = d (parent slot) i := by
    intro i hi
    rcases ht.parent_eq with heq | ⟨hnull, r, heq⟩
    · rw [heq]
    · have hne : i ≠ refIndex offset n := by
        rintro rfl
        exact hi hnull
      rw [heq, Function.update_of_ne hne]
  refine ⟨ht.nInodeblocks, Or.inl hparent, ?_, hframe⟩
  intro off x hroute
  cases hroute with
  | next _ hP htail =>
    have hchild := hkept _ htail.root_ne
    by_cases hdigit : digit 128 n off = refIndex offset n
    · -- the path goes where the walk goes: what the walk below keeps is kept
      rw [hdigit] at htail hchild
      obtain ⟨hroute', hdata⟩ := ht.route off x htail
      refine ⟨.next hb hP ?_, fun hne => hdata fun hmod => hne ?_⟩
      · rw [hdigit, hchild]
        exact hroute'
      · rw [refIndex_eq_digit] at hdigit
        exact (mod_pow_succ_eq_iff 128).mpr ⟨hdigit, hmod⟩
    · have hsame := hsibling _ hdigit
      refine ⟨.next hb hP ?_, fun _ => hsame x htail.end_mem⟩
      rw [hchild]
      exact htail.congr hsame

end Torn

/-! ## The loop -/

section Loop

variable {valid : BlockNo → Bool} {d : Store} {s : Snapshot} {L : Multiset BlockNo}
variable {n : Nat} {parentOff : BlockNo} {parent : Block} {slot : Fin 128}
variable {offset : BlockNo} {block : Block}

/-- The path of the offset goes on from the slot the loop fills. -/
theorem leaf_of_parent_eq {d' : Store} {b r : BlockNo} {t : Block} (hb : b ≠ 0)
    (hparent : d' b = Function.update t (refIndex offset n) r) :
    leaf d' (n + 1) b offset.toNat = leaf d' n r offset.toNat := by
  rw [leaf_succ hb, hparent, ← refIndex_eq_digit, Function.update_self]

/-- A block that was linked with nothing left on the free list is all zeros. -/
theorem linked_null {b : BlockNo} {L' : Multiset BlockNo} {s' : Snapshot} {d' : Store}
    (h : WalkPre valid d s L n parentOff parent slot) (ha : Allocated d s L b L' s' d')
    (hsame : d' b = d b) (hL' : L' = 0) :
    Function.update d' parentOff (Function.update parent slot b) b = nullBlock := by
  obtain ⟨hparentL, _⟩ := h.nodup_parts
  have hne : b ≠ parentOff := by
    rintro rfl
    exact hparentL (ha.taken ▸ Multiset.mem_cons_self _ L')
  have hlast : L = {b} := by rw [ha.taken, hL', Multiset.cons_zero]
  rw [Function.update_of_ne hne, hsame, h.free.last_null hlast]

/-- The allocation of the loop: if there is no block, the walk ends where it is. -/
theorem wp_alloc_or_stuck {Q : BlockNo × Snapshot → Store → Prop}
    (h : WalkPre valid d s L n parentOff parent slot) (hslot : parent slot = 0)
    (hlast : L = 0 → d parentOff = parent)
    (hQ : ∀ b s' d' L', Allocated d s L b L' s' d' → d' b = d b → Q (b, s') d') :
    (treediskAllocBlock s).wp valid Q
      (fun msg d' => msg = fullMessage ∧ L.card ≤ n ∧ ∃ r, Replaced d L n parentOff parent slot
        offset (fileBlock d n (parent slot) offset.toNat) 0 r d')
      (Torn valid d L n parentOff parent slot offset) d := by
  apply wp_weaken _ (wp_alloc h.free h.nodup_parts.2.2.1 h.valid_zero fun x => h.valid_free)
  · rintro ⟨b, s'⟩ d' ⟨L', ha, hsame⟩
    exact hQ b s' d' L' ha hsame
  · rintro msg d' ⟨hmsg, hL, rfl⟩
    refine ⟨hmsg, by simp [hL], 0, ?_⟩
    have hstuck := replaced_stuck offset h hslot (hlast hL)
    rwa [hL] at hstuck ⊢
  · exact fun d' hu => torn_untouched h hu

/-- The write loop of `treedisk_write`. It panics only when the free list does not hold
    the at most `n + 1` blocks the path may need. -/
theorem wp_writeWalk (h : WalkPre valid d s L n parentOff parent slot)
    (hlast : L = 0 → d parentOff = parent) :
    (treediskWriteWalk offset block n s parentOff parent slot).wp valid
      (fun _ d' => ∃ L' r, Walked d L n parentOff parent slot offset block L' r d' ∧
        leaf d' n r offset.toNat ≠ 0)
      (fun msg d' => msg = fullMessage ∧ L.card ≤ n ∧ ∃ r, Replaced d L n parentOff parent slot
        offset (fileBlock d n (parent slot) offset.toNat) 0 r d')
      (Torn valid d L n parentOff parent slot offset) d := by
  -- one level of the tree for each turn; the buffer of the parent goes along
  induction n generalizing d s L parentOff parent slot with
  | zero =>
    rw [treediskWriteWalk]
    by_cases hslot : parent slot = 0
    · rw [if_pos hslot, wp_bind]
      apply wp_alloc_or_stuck h hslot hlast
      intro b s' d' L' ha _
      have hbL : b ∈ L := ha.taken ▸ Multiset.mem_cons_self b L'
      have hw := walked_leaf offset block h hslot ha
      simp only [wp_bind, wp_writeOrPanic]
      refine ⟨h.valid_parent, torn_linked h hslot (ha.untouched h.free), h.valid_free hbL, ?_,
        L', b, hw, hw.root_ne⟩
      apply torn_of_null hslot hw.nInodeblocks hw.parent_eq
      intro x hx0 hxp hxL
      exact hw.frame x hx0 hxp hxL (by rw [hslot, nodes_null]; exact Multiset.notMem_zero x)
    · have hw := walked_overwrite offset block h hslot
      have hparent : parentOff ≠ parent slot := by
        intro heq
        apply h.nodup_parts.2.1
        rw [heq]
        exact root_mem_nodes hslot
      simp only [hslot, if_false, wp_writeOrPanic]
      exact ⟨h.valid_tree (root_mem_nodes hslot), torn_overwrite hslot hparent, L, parent slot,
        hw, hw.root_ne⟩
  | succ n ih =>
    rw [treediskWriteWalk]
    by_cases hslot : parent slot = 0
    · rw [if_pos hslot, wp_bind]
      apply wp_alloc_or_stuck h hslot hlast
      intro b s' d' L' ha hsame
      have hb := ha.block_ne h.free
      simp only [wp_bind, wp_writeOrPanic]
      refine ⟨h.valid_parent, torn_linked h hslot (ha.untouched h.free), ?_⟩
      -- the buffer below `b` is zeros; on disk `b` is so too if it was the last free block
      apply wp_weaken _ (ih (linked_pre h ha (refIndex offset n)) (linked_null h ha hsame))
      · rintro _ d'' ⟨L'', r, hw, hleaf⟩
        refine ⟨L'', b, (replaced_link h hslot ha hw.replaced).walked hb, ?_⟩
        rwa [leaf_of_parent_eq hb hw.parent_eq]
      · rintro msg d'' ⟨hmsg, hcard, r, hr⟩
        have hnull : nullBlock (refIndex offset n) = 0 := rfl
        rw [hnull, fileBlock_null] at hr
        refine ⟨hmsg, ?_, b, ?_⟩
        · rw [ha.taken, Multiset.card_cons]
          omega
        · have hlinked := replaced_link h hslot ha hr
          rwa [hslot, fileBlock_null]
      · exact fun d'' ht => torn_link h hslot ha ht
    · simp only [hslot, if_false, wp_bind, wp_readOrPanic]
      refine ⟨h.valid_tree (root_mem_nodes hslot), ?_⟩
      apply wp_weaken _ (ih (descend_pre h hslot (refIndex offset n)) fun _ => rfl)
      · rintro _ d' ⟨L', r, hw, hleaf⟩
        refine ⟨L', parent slot, (replaced_descend h hslot hw.replaced).walked hslot, ?_⟩
        rwa [leaf_of_parent_eq hslot hw.parent_eq]
      · rintro msg d' ⟨hmsg, hcard, r, hr⟩
        refine ⟨hmsg, by omega, parent slot, ?_⟩
        rw [fileBlock_succ hslot, ← refIndex_eq_digit]
        exact replaced_descend h hslot hr
      · exact fun d' ht => torn_descend h hslot ht

end Loop

end Egos.TreeDisk
