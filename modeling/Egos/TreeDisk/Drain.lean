import Egos.Lib.Transition
import Egos.TreeDisk.Create

/-!
# The Tree File System: Draining a Fresh Free List

`setup_freelist` and `treedisk_alloc_block` fit together exactly: allocations from a free list
just built hand out every block of it once, in some order, and then the list is empty. The
run of allocations carries one invariant, `Drained`: the blocks handed out and the blocks
still on the chain are together the blocks the list was built from.
-/

namespace Egos.TreeDisk

open Egos.Lib Egos.Lib.BlockProg Egos.Lib.FreeList

/-- A call of `treedisk_alloc_block` that returns `b`. The buffered superblock of the caller
    is the one on disk, as after `treedisk_get_snapshot` or after an earlier allocation. -/
def AllocStep (valid : BlockNo → Bool) (d : Store) (b : BlockNo) (d' : Store) : Prop :=
  ∃ s s' : Snapshot, s.superblock = d 0 ∧
    (treediskAllocBlock s).run valid d = (.returned (b, s'), d')

/-- The blocks `bs` have left the list `L` and the chain holds the others. -/
def Drained (L : Multiset BlockNo) (bs : List BlockNo) (d : Store) : Prop :=
  ∃ rest, L = bs + rest ∧ Chain d (d 0).freeList rest

section Steps

variable {valid : BlockNo → Bool} {L : Multiset BlockNo} {bs : List BlockNo} {d d' : Store}
variable {s : Snapshot}
variable (h : Drained L bs d) (hnodup : L.Nodup) (hvalid0 : valid 0 = true)
  (hvalid : ∀ x ∈ L, valid x = true)

include h hnodup hvalid0 hvalid

/-- One call on a list that is partly drained: the next block, or the panic once nothing is
    left. -/
theorem Drained.wp_alloc (hs : s.superblock = d 0) :
    (treediskAllocBlock s).wp valid
      (fun r d' => bs.length < L.card ∧ Drained L (bs ++ [r.1]) d' ∧ r.2.superblock = d' 0)
      (fun msg d' => msg = fullMessage ∧ L = bs ∧ d' = d) (fun _ => True) d := by
  obtain ⟨rest, hL, hchain⟩ := h
  have hfree : Free d s rest := ⟨hs.symm, hs ▸ hchain⟩
  have hle : rest ≤ L := hL ▸ Multiset.le_add_left rest bs
  apply wp_weaken _ (TreeDisk.wp_alloc hfree (Multiset.nodup_of_le hle hnodup) hvalid0
    fun x hx => hvalid x (Multiset.mem_of_le hle hx))
  · rintro ⟨b, s'⟩ d' ⟨rest', ha, -⟩
    have htaken : rest = b ::ₘ rest' := ha.taken
    refine ⟨?_, ⟨rest', ?_, ?_⟩, ha.free.super.symm⟩
    · rw [hL, htaken, Multiset.card_add, Multiset.card_cons, Multiset.coe_card]
      omega
    · rw [hL, htaken, ← Multiset.coe_add, add_assoc]
      rfl
    · rw [ha.free.super]
      exact ha.free.chain
  · rintro msg d' ⟨hmsg, hrest, hd'⟩
    exact ⟨hmsg, by rw [hL, hrest, add_zero], hd'⟩
  · intros
    trivial

theorem Drained.step {b : BlockNo} (hstep : AllocStep valid d b d') :
    Drained L (bs ++ [b]) d' := by
  obtain ⟨s, s', hs, hrun⟩ := hstep
  exact (post_of_wp (h.wp_alloc hnodup hvalid0 hvalid hs) hrun).2.1

/-- While blocks are left a call returns one, whatever snapshot it is made with. -/
theorem Drained.alloc_returns (hs : s.superblock = d 0) (hleft : bs.length < L.card) :
    ∃ b s' d', (treediskAllocBlock s).run valid d = (.returned (b, s'), d') ∧
      s'.superblock = d' 0 := by
  have hwp := h.wp_alloc hnodup hvalid0 hvalid hs
  match hrun : (treediskAllocBlock s).run valid d with
  | (.returned (b, s'), d') => exact ⟨b, s', d', rfl, (post_of_wp hwp hrun).2.2⟩
  | (.halted msg, d') =>
    have hL : L = bs := (stop_of_wp hwp hrun).2.1
    rw [hL, Multiset.coe_card] at hleft
    exact absurd hleft (lt_irrefl _)

/-- Once every block has been handed out a call panics. -/
theorem Drained.alloc_panics (hs : s.superblock = d 0) (hall : bs.length = L.card) :
    (treediskAllocBlock s).run valid d = (.halted fullMessage, d) := by
  have hwp := h.wp_alloc hnodup hvalid0 hvalid hs
  match hrun : (treediskAllocBlock s).run valid d with
  | (.returned r, d') => exact absurd (post_of_wp hwp hrun).1 (hall ▸ lt_irrefl _)
  | (.halted msg, d') =>
    obtain ⟨rfl, -, rfl⟩ := stop_of_wp hwp hrun
    rfl

end Steps

section Runs

variable {valid : BlockNo → Bool} {L : Multiset BlockNo} {bs : List BlockNo} {d d' : Store}
variable (h : Drained L [] d) (hnodup : L.Nodup) (hvalid0 : valid 0 = true)
  (hvalid : ∀ x ∈ L, valid x = true)

include h hnodup hvalid0 hvalid

/-- The invariant over a run of allocations. -/
theorem Drained.of_run (hrun : Run (AllocStep valid) d bs d') : Drained L bs d' := by
  apply hrun.invariant_log h
  intro bs t b u hD hstep
  exact hD.step hnodup hvalid0 hvalid hstep

/-- As many allocations return as there are blocks on the list. -/
theorem Drained.exists_run :
    ∀ n ≤ L.card, ∃ bs d', Run (AllocStep valid) d bs d' ∧ bs.length = n := by
  apply Run.exists_of_progress
  intro bs d' hrun hlen
  -- a caller that has just read the superblock
  obtain ⟨b, s', d'', hcall, -⟩ := (h.of_run hnodup hvalid0 hvalid hrun).alloc_returns hnodup
    hvalid0 hvalid (s := ⟨d' 0, nullBlock, 0, 0⟩) rfl hlen
  exact ⟨b, d'', _, s', rfl, hcall⟩

/-- A run hands out blocks of the list, each at most once, and all of them if it is as long as
    the list. -/
theorem Drained.handed_out (hrun : Run (AllocStep valid) d bs d') :
    bs.Nodup ∧ (∀ b ∈ bs, b ∈ L) ∧ bs.length ≤ L.card ∧
      (bs.length = L.card → ∀ b ∈ L, b ∈ bs) := by
  obtain ⟨rest, hrest, -⟩ := h.of_run hnodup hvalid0 hvalid hrun
  have hsub : (bs : Multiset BlockNo) ≤ L := hrest ▸ Multiset.le_add_right _ _
  refine ⟨?_, ?_, Multiset.card_le_card hsub, ?_⟩
  · exact Multiset.coe_nodup.mp (Multiset.nodup_of_le hsub hnodup)
  · intro b hb
    exact Multiset.mem_of_le hsub hb
  · intro hall b hb
    have heq : (bs : Multiset BlockNo) = L := Multiset.eq_of_le_of_card_le hsub hall.ge
    rwa [← heq] at hb

end Runs

/-- `setup_freelist` touches only the blocks it puts on the list. -/
theorem setupFreelist_accesses {valid : BlockNo → Bool} {next N : BlockNo} (stale : Block)
    (d : Store) (hpos : 0 < next.toNat) (hle : next.toNat ≤ N.toNat)
    (hvalid : ∀ b, next ≤ b → b < N → valid b = true) :
    ∀ b ∈ (setupFreelist stale next N).accesses valid d, next ≤ b ∧ b < N := by
  -- run it on a store that has these blocks only
  have hwp : (setupFreelist stale next N).wp (fun b => decide (next ≤ b ∧ b < N)) _
      (fun _ _ => True) _ d :=
    wp_setupFreelist stale hpos hle fun b hb hlt => decide_eq_true ⟨hb, hlt⟩
  have hsub : ∀ b, decide (next ≤ b ∧ b < N) = true → valid b = true := by
    intro b hb
    obtain ⟨hge, hlt⟩ := of_decide_eq_true hb
    exact hvalid b hge hlt
  intro b hb
  rw [accesses_eq_of_wp hsub hwp] at hb
  exact of_decide_eq_true (accesses_of_wp hwp b hb)

/-- After `setup_freelist` has returned `h` and the superblock refers to `h`, allocations
    return each block from `next_free` to `nblocks - 1` once, as many as there are, and then
    panic. Nothing is assumed about blocks outside that range but that the superblock can be
    accessed, so the inode blocks may have been cleared in between. -/
theorem setupFreelist_alloc_inverse (stale : Block) (next N : BlockNo) (valid : BlockNo → Bool)
    (d : Store) (hpos : 1 ≤ next.toNat) (hle : next.toNat ≤ N.toNat) (hvalid0 : valid 0 = true)
    (hvalid : ∀ b, next ≤ b → b < N → valid b = true) :
    ∃ h d₁, (setupFreelist stale next N).run valid d = (.returned h, d₁) ∧
      (∀ b ∈ (setupFreelist stale next N).accesses valid d, next ≤ b ∧ b < N) ∧
      ∀ d₀ : Store, (d₀ 0).freeList = h → (∀ x, next ≤ x → x < N → d₀ x = d₁ x) →
        (∀ n ≤ N.toNat - next.toNat,
          ∃ bs d', Run (AllocStep valid) d₀ bs d' ∧ bs.length = n) ∧
        ∀ bs d', Run (AllocStep valid) d₀ bs d' →
          bs.Nodup ∧ (∀ b ∈ bs, next ≤ b ∧ b < N) ∧
          bs.length ≤ N.toNat - next.toNat ∧
          (bs.length < N.toNat - next.toNat → ∀ s : Snapshot, s.superblock = d' 0 →
            ∃ b s' d'', (treediskAllocBlock s).run valid d' = (.returned (b, s'), d'') ∧
              s'.superblock = d'' 0) ∧
          (bs.length = N.toNat - next.toNat →
            (∀ b, next ≤ b → b < N → b ∈ bs) ∧
            ∀ s : Snapshot, s.superblock = d' 0 →
              (treediskAllocBlock s).run valid d' = (.halted fullMessage, d')) := by
  obtain ⟨h, d₁, hrun, hchain, -⟩ := returns_of_wp
    (wp_setupFreelist (d := d) (E := fun _ _ => False) stale hpos hle hvalid)
  refine ⟨h, d₁, hrun, setupFreelist_accesses stale d hpos hle hvalid, ?_⟩
  intro d₀ hhead hsame
  have hN := N.toNat_lt
  generalize hL : blockRange next.toNat (N.toNat - next.toNat) = L at hchain
  have hmem : ∀ b, b ∈ L ↔ next ≤ b ∧ b < N := by
    intro b
    rw [← hL, mem_blockRange (by omega), UInt32.le_iff_toNat_le, UInt32.lt_iff_toNat_lt]
    omega
  have hnodup : L.Nodup := hL ▸ nodup_blockRange (by omega)
  have hcard : L.card = N.toNat - next.toNat := by
    rw [← hL, blockRange, Multiset.card_map, Multiset.card_range]
  have hvalidL : ∀ x ∈ L, valid x = true := by
    intro x hx
    obtain ⟨hge, hlt⟩ := (hmem x).mp hx
    exact hvalid x hge hlt
  -- nothing has been handed out yet, and the superblock refers to the chain
  have hstart : Drained L [] d₀ := by
    refine ⟨L, by simp, ?_⟩
    rw [hhead]
    apply hchain.congr
    intro x hx
    obtain ⟨hge, hlt⟩ := (hmem x).mp hx
    exact hsame x hge hlt
  rw [← hcard]
  refine ⟨hstart.exists_run hnodup hvalid0 hvalidL, ?_⟩
  intro bs d' hruns
  have hD := hstart.of_run hnodup hvalid0 hvalidL hruns
  obtain ⟨hbs, hin, hlen, hall⟩ := hstart.handed_out hnodup hvalid0 hvalidL hruns
  refine ⟨hbs, fun b hb => (hmem b).mp (hin b hb), hlen, ?_, ?_⟩
  · intro hleft s hs
    exact hD.alloc_returns hnodup hvalid0 hvalidL hs hleft
  · intro heq
    refine ⟨fun b hge hlt => hall heq b ((hmem b).mpr ⟨hge, hlt⟩), ?_⟩
    intro s hs
    exact hD.alloc_panics hnodup hvalid0 hvalidL hs heq

/-- On a store of five blocks, the free list built from block 2 on has three blocks to give. -/
theorem setupFreelist_alloc_inverse_five :
    ∃ h d₁, (setupFreelist nullBlock 2 5).run (inRange 5) (fun _ => nullBlock) =
        (.returned h, d₁) ∧
      ∀ d₀ : Store, (d₀ 0).freeList = h → (∀ x, 2 ≤ x → x < 5 → d₀ x = d₁ x) →
        ∃ bs d', Run (AllocStep (inRange 5)) d₀ bs d' ∧ bs.length = 3 := by
  obtain ⟨h, d₁, hrun, -, hdrain⟩ := setupFreelist_alloc_inverse nullBlock 2 5 (inRange 5)
    (fun _ => nullBlock) (by decide) (by decide) (by decide) fun _ _ hb => inRange_iff.mpr hb
  exact ⟨h, d₁, hrun, fun d₀ hhead hsame => (hdrain d₀ hhead hsame).1 3 (by decide)⟩

end Egos.TreeDisk
