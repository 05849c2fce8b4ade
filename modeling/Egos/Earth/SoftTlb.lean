import Egos.Earth.Code
import Egos.Lib.Transition

/-!
# The Earth Layer: One Memory per Process

All processes use the same virtual pages. `soft_tlb_switch` copies the pages of the process
that leaves to their physical pages, and those of the process that comes back. So the truth
about a page is in the user address space while its process is switched in, and in the
physical page otherwise: `Tlb.view`.

- `TlbEvent.after` is the abstract model: every process has pages of its own, and a switch
  does nothing.
- `view_step`: every operation does to the view what it does to the abstract pages.
- `soft_tlb_isolates`: over whole runs, whoever is switched in finds in its pages what was
  last stored there for it.
-/

namespace Egos.Earth

open Egos.Lib

variable {π : Type} {s s' s₀ : Tlb π} {p q : Int} {v w : Nat} {i j : PageId}

/-! ## States -/

/-- A process has a virtual page at most once, and below the physical pages. -/
structure WellFormed (s : Tlb π) : Prop where
  unique : ∀ i j, (s.pageInfoTable i).pid ≠ 0 → s.pageInfoTable j = s.pageInfoTable i → j = i
  below : ∀ i, (s.pageInfoTable i).pid ≠ 0 → (s.pageInfoTable i).vpageNo < appsPagesBase

/-- The physical page of a virtual page. -/
def Tlb.find (s : Tlb π) (p : Int) (v : Nat) : Option PageId :=
  pageIds.find? fun i => s.pageInfoTable i = ⟨p, v⟩

/-- The content of a virtual page of a process, wherever it is at the moment. -/
def Tlb.view (s : Tlb π) (p : Int) (v : Nat) : Option π :=
  (s.find p v).map fun i => if p = s.currVmPid then s.mem v else s.mem (pageOfId i)

theorem find_some (h : s.find p v = some i) : s.pageInfoTable i = ⟨p, v⟩ := by
  have hi := List.find?_some h
  simpa only [decide_eq_true_eq] using hi

theorem find_none (h : s.find p v = none) (i : PageId) : s.pageInfoTable i ≠ ⟨p, v⟩ := by
  have hi := List.find?_eq_none.mp h i (mem_pageIds i)
  simpa only [decide_eq_true_eq] using hi

theorem WellFormed.find_eq (h : WellFormed s) (hp : p ≠ 0) (hi : s.pageInfoTable i = ⟨p, v⟩) :
    s.find p v = some i := by
  cases hfind : s.find p v with
  | none => exact absurd hi (find_none hfind i)
  | some j =>
    have hj := find_some hfind
    rw [h.unique i j (by rw [hi]; exact hp) (hj.trans hi.symm)]

/-- The view depends on the table through `find`. -/
theorem find_congr (h : ∀ i, s'.pageInfoTable i = ⟨p, v⟩ ↔ s.pageInfoTable i = ⟨p, v⟩) :
    s'.find p v = s.find p v := by
  unfold Tlb.find
  congr 1
  funext i
  exact decide_eq_decide.mpr (h i)

/-- A page is as it was if it is mapped as it was and its content is. -/
theorem view_congr (hfind : s'.find p v = s.find p v)
    (hcontent : ∀ i, s.find p v = some i →
      (if p = s'.currVmPid then s'.mem v else s'.mem (pageOfId i)) =
        if p = s.currVmPid then s.mem v else s.mem (pageOfId i)) :
    s'.view p v = s.view p v := by
  unfold Tlb.view
  rw [hfind]
  cases hi : s.find p v with
  | none => rfl
  | some i => exact congrArg some (hcontent i hi)

theorem pageOfId_inj (h : pageOfId i = pageOfId j) : i = j := by
  apply Fin.ext
  unfold pageOfId at h
  omega

/-- Virtual pages are no physical pages. -/
theorem ne_pageOfId (hv : v < appsPagesBase) (i : PageId) : v ≠ pageOfId i := by
  unfold pageOfId
  omega

theorem WellFormed.ne_pageOfId (h : WellFormed s) (hp : p ≠ 0)
    (hi : s.pageInfoTable i = ⟨p, v⟩) (j : PageId) : v ≠ pageOfId j := by
  have hbelow := h.below i (by rw [hi]; exact hp)
  rw [hi] at hbelow
  exact Egos.Earth.ne_pageOfId hbelow j

/-! ## Switching -/

section Switch

variable (h : WellFormed s)

include h in
/-- The first loop saves the pages of the process that leaves. -/
theorem WellFormed.unmapCurr_curr (hp : p ≠ 0) (hi : s.pageInfoTable i = ⟨p, v⟩)
    (hcurr : p = s.currVmPid) : s.unmapCurr.mem (pageOfId i) = s.mem v := by
  have hsource : (s.pageInfoTable i).vpageNo = v := by rw [hi]
  rw [← hsource]
  unfold Tlb.unmapCurr
  apply copyLoop_dst (mem_pageIds i)
  · simp only [hi, hcurr, decide_true]
  · exact fun j _ _ hj => pageOfId_inj hj
  · intro j _ _
    rw [hsource]
    exact h.ne_pageOfId hp hi j

/-- It leaves the other physical pages alone. -/
theorem unmapCurr_other (hi : (s.pageInfoTable i).pid ≠ s.currVmPid) :
    s.unmapCurr.mem (pageOfId i) = s.mem (pageOfId i) := by
  unfold Tlb.unmapCurr
  apply copyLoop_of_not_dst
  intro j _ hselected heq
  obtain rfl := pageOfId_inj heq
  exact hi (of_decide_eq_true hselected)

include h in
/-- The second loop writes to virtual pages. -/
theorem WellFormed.ne_vpageNo (hp : p ≠ 0) (i j : PageId)
    (hj : decide ((s.pageInfoTable j).pid = p) = true) :
    pageOfId i ≠ (s.pageInfoTable j).vpageNo := by
  have hpid : (s.pageInfoTable j).pid ≠ 0 := by
    rw [of_decide_eq_true hj]
    exact hp
  exact (Egos.Earth.ne_pageOfId (h.below j hpid) i).symm

include h in
/-- The second loop leaves all physical pages alone. -/
theorem WellFormed.mapIn_page (hp : p ≠ 0) (i : PageId) :
    (s.mapIn p).mem (pageOfId i) = s.mem (pageOfId i) := by
  unfold Tlb.mapIn
  exact copyLoop_of_not_dst fun j _ hj => h.ne_vpageNo hp i j hj

include h in
/-- It brings in the pages of the process that comes. -/
theorem WellFormed.mapIn_user (hp : p ≠ 0) (hi : s.pageInfoTable i = ⟨p, v⟩) :
    (s.mapIn p).mem v = s.mem (pageOfId i) := by
  have hdst : v = (s.pageInfoTable i).vpageNo := by rw [hi]
  rw [hdst]
  unfold Tlb.mapIn
  apply copyLoop_dst (mem_pageIds i)
  · simp only [hi, decide_true]
  · -- a process has a virtual page once, so no other turn writes it
    intro j _ hj heq
    have hpid : (s.pageInfoTable j).pid = (s.pageInfoTable i).pid := by
      rw [of_decide_eq_true hj, hi]
    refine h.unique i j ?_ (PageInfo.ext hpid heq)
    rw [hi]
    exact hp
  · exact fun j _ hj => h.ne_vpageNo hp i j hj

end Switch

theorem WellFormed.congr (h : WellFormed s) (htable : s'.pageInfoTable = s.pageInfoTable) :
    WellFormed s' := by
  refine ⟨?_, ?_⟩
  · rw [htable]
    exact h.unique
  · rw [htable]
    exact h.below

@[simp]
theorem softTlbSwitch_pageInfoTable (s : Tlb π) (p : Int) :
    (s.softTlbSwitch p).pageInfoTable = s.pageInfoTable := by
  unfold Tlb.softTlbSwitch
  split_ifs <;> rfl

@[simp]
theorem softTlbSwitch_currVmPid (s : Tlb π) (p : Int) : (s.softTlbSwitch p).currVmPid = p := by
  unfold Tlb.softTlbSwitch
  split_ifs with heq
  · exact heq.symm
  · rfl

theorem softTlbSwitch_bitmap (s : Tlb π) (p : Int) : (s.softTlbSwitch p).bitmap = s.bitmap := by
  unfold Tlb.softTlbSwitch
  split_ifs <;> rfl

theorem softTlbSwitch_mem (hne : q ≠ s.currVmPid) :
    (s.softTlbSwitch q).mem = (s.unmapCurr.mapIn q).mem := by
  simp only [Tlb.softTlbSwitch, if_neg hne]

/-- Switching changes no page of any process. -/
theorem WellFormed.view_softTlbSwitch (h : WellFormed s) (hq : q ≠ 0) (hp : p ≠ 0) (v : Nat) :
    (s.softTlbSwitch q).view p v = s.view p v := by
  have hfind : (s.softTlbSwitch q).find p v = s.find p v := by
    apply find_congr
    simp only [softTlbSwitch_pageInfoTable, implies_true]
  apply view_congr hfind
  intro i hfind
  have hi := find_some hfind
  rw [softTlbSwitch_currVmPid]
  by_cases hsame : q = s.currVmPid
  · rw [Tlb.softTlbSwitch, if_pos hsame, hsame]
  rw [softTlbSwitch_mem hsame]
  have hunmap : WellFormed s.unmapCurr := h.congr rfl
  have hi' : s.unmapCurr.pageInfoTable i = ⟨p, v⟩ := hi
  have hother : p ≠ s.currVmPid → s.unmapCurr.mem (pageOfId i) = s.mem (pageOfId i) := by
    intro hne
    apply unmapCurr_other
    rw [hi]
    exact hne
  by_cases hpq : p = q
  · -- the page comes from its physical page, which the first loop left alone
    subst hpq
    rw [if_pos rfl, if_neg hsame]
    exact (hunmap.mapIn_user hp hi').trans (hother hsame)
  · rw [if_neg hpq]
    refine (hunmap.mapIn_page hq i).trans ?_
    split_ifs with hcurr
    · exact h.unmapCurr_curr hp hi hcurr
    · exact hother hcurr

/-! ## Freeing -/

/-- What freeing `q` does to an entry of the table. -/
def PageInfo.release (q : Int) (info : PageInfo) : PageInfo :=
  if info.pid = q then { info with pid := 0 } else info

theorem PageInfo.release_release (q : Int) (info : PageInfo) :
    (info.release q).release q = info.release q := by
  unfold PageInfo.release
  split_ifs <;> rfl

theorem PageInfo.release_pid (q : Int) (info : PageInfo) :
    (info.release q).pid = if info.pid = q then 0 else info.pid := by
  unfold PageInfo.release
  split_ifs <;> rfl

/-- Entries of other processes stay, and none is added. -/
theorem PageInfo.release_eq {info : PageInfo} (hp : p ≠ 0) (hq : p ≠ q) :
    info.release q = ⟨p, v⟩ ↔ info = ⟨p, v⟩ := by
  unfold PageInfo.release
  split_ifs with hinfo
  · constructor
    · exact fun h => absurd (congrArg PageInfo.pid h).symm hp
    · intro h
      rw [h] at hinfo
      exact absurd hinfo hq
  · rfl

theorem PageInfo.release_ne {info : PageInfo} (hq : q ≠ 0) : (info.release q).pid ≠ q := by
  rw [PageInfo.release_pid]
  split_ifs with hinfo
  · exact hq.symm
  · exact hinfo

/-- One turn of the loop. -/
theorem freePage_pageInfoTable (q : Int) (s : Tlb π) (i : PageId) :
    (s.freePage q i).pageInfoTable =
      Function.update s.pageInfoTable i ((s.pageInfoTable i).release q) := by
  unfold Tlb.freePage PageInfo.release
  split_ifs with hq
  · rfl
  · rw [Function.update_eq_self]

theorem freePage_mem (q : Int) (s : Tlb π) (i : PageId) : (s.freePage q i).mem = s.mem := by
  unfold Tlb.freePage
  split_ifs <;> rfl

theorem freePage_currVmPid (q : Int) (s : Tlb π) (i : PageId) :
    (s.freePage q i).currVmPid = s.currVmPid := by
  unfold Tlb.freePage
  split_ifs <;> rfl

section Loop

variable (q : Int) (is : List PageId) (s : Tlb π)

/-- The loop, over any part of the table. -/
theorem freePages_pageInfoTable (j : PageId) :
    (is.foldl (Tlb.freePage q) s).pageInfoTable j =
      if j ∈ is then (s.pageInfoTable j).release q else s.pageInfoTable j := by
  induction is generalizing s with
  | nil => rfl
  | cons i is ih =>
    rw [List.foldl_cons, ih, freePage_pageInfoTable]
    by_cases hji : j = i
    · subst hji
      rw [Function.update_self, if_pos List.mem_cons_self, PageInfo.release_release, ite_self]
    · rw [Function.update_of_ne hji]
      simp only [List.mem_cons, hji, false_or]

theorem freePages_mem : (is.foldl (Tlb.freePage q) s).mem = s.mem := by
  induction is generalizing s with
  | nil => rfl
  | cons i is ih => rw [List.foldl_cons, ih, freePage_mem]

theorem freePages_currVmPid : (is.foldl (Tlb.freePage q) s).currVmPid = s.currVmPid := by
  induction is generalizing s with
  | nil => rfl
  | cons i is ih => rw [List.foldl_cons, ih, freePage_currVmPid]

end Loop

theorem softTlbFree_pageInfoTable (s : Tlb π) (q : Int) (j : PageId) :
    (s.softTlbFree q).pageInfoTable j = (s.pageInfoTable j).release q := by
  have hloop : s.softTlbFree q = pageIds.foldl (Tlb.freePage q) s := rfl
  rw [hloop, freePages_pageInfoTable, if_pos (mem_pageIds j)]

/-- Freeing a process leaves the pages of the others as they are. -/
theorem view_softTlbFree_other (hp : p ≠ 0) (hq : p ≠ q) (v : Nat) :
    (s.softTlbFree q).view p v = s.view p v := by
  have hmem : (s.softTlbFree q).mem = s.mem := freePages_mem q _ s
  have hcurr : (s.softTlbFree q).currVmPid = s.currVmPid := freePages_currVmPid q _ s
  apply view_congr
  · apply find_congr
    intro i
    rw [softTlbFree_pageInfoTable]
    exact PageInfo.release_eq hp hq
  · intro i _
    rw [hmem, hcurr]

/-- A process that has been freed has no page. -/
theorem view_softTlbFree_self (hp : p ≠ 0) (v : Nat) : (s.softTlbFree p).view p v = none := by
  unfold Tlb.view
  cases hfind : (s.softTlbFree p).find p v with
  | none => rfl
  | some i =>
    have hi := find_some hfind
    rw [softTlbFree_pageInfoTable] at hi
    exact absurd (congrArg PageInfo.pid hi) (PageInfo.release_ne hp)

theorem WellFormed.softTlbFree (h : WellFormed s) (q : Int) : WellFormed (s.softTlbFree q) := by
  -- an entry that still belongs to somebody is as it was
  have hkept : ∀ i, ((s.softTlbFree q).pageInfoTable i).pid ≠ 0 →
      (s.softTlbFree q).pageInfoTable i = s.pageInfoTable i := by
    intro i hi
    rw [softTlbFree_pageInfoTable] at hi ⊢
    unfold PageInfo.release at hi ⊢
    split_ifs at hi ⊢ with hq
    · exact absurd rfl hi
    · rfl
  refine ⟨?_, ?_⟩
  · intro i j hi heq
    have hj := hkept j (by rw [heq]; exact hi)
    have hi' := hkept i hi
    rw [hi'] at hi heq
    exact h.unique i j hi (hj.symm.trans heq)
  · intro i hi
    have hi' := hkept i hi
    rw [hi'] at hi ⊢
    exact h.below i hi

/-! ## Mapping and storing -/

theorem softTlbMap_pageInfoTable_self (s : Tlb π) (p : Int) (v : Nat) (i : PageId) :
    (s.softTlbMap p v i).pageInfoTable i = ⟨p, v⟩ := Function.update_self ..

theorem softTlbMap_pageInfoTable_of_ne (s : Tlb π) (p : Int) (v : Nat) (hji : j ≠ i) :
    (s.softTlbMap p v i).pageInfoTable j = s.pageInfoTable j := Function.update_of_ne hji ..

section Map

variable (h : WellFormed s) (hp : p ≠ 0) (hv : v < appsPagesBase)
  (hfree : (s.pageInfoTable i).pid = 0) (hnew : ∀ j, s.pageInfoTable j ≠ ⟨p, v⟩)

include h hv hnew in
theorem WellFormed.softTlbMap : WellFormed (s.softTlbMap p v i) := by
  refine ⟨?_, ?_⟩
  · intro j l hj heq
    by_cases hji : j = i
    · subst hji
      by_contra hlj
      rw [softTlbMap_pageInfoTable_self, softTlbMap_pageInfoTable_of_ne s p v hlj] at heq
      exact hnew l heq
    · rw [softTlbMap_pageInfoTable_of_ne s p v hji] at hj heq
      by_cases hli : l = i
      · subst hli
        rw [softTlbMap_pageInfoTable_self] at heq
        exact absurd heq.symm (hnew j)
      · rw [softTlbMap_pageInfoTable_of_ne s p v hli] at heq
        exact h.unique j l hj heq
  · intro j hj
    by_cases hji : j = i
    · subst hji
      rw [softTlbMap_pageInfoTable_self]
      exact hv
    · rw [softTlbMap_pageInfoTable_of_ne s p v hji] at hj ⊢
      exact h.below j hj

include hfree in
/-- Mapping a free page changes no other page. -/
theorem view_softTlbMap_other {r : Int} {w : Nat} (hr : r ≠ 0) (hne : ¬ (p = r ∧ v = w)) :
    (s.softTlbMap p v i).view r w = s.view r w := by
  apply view_congr
  · apply find_congr
    intro j
    by_cases hji : j = i
    · subst hji
      rw [softTlbMap_pageInfoTable_self]
      constructor
      · intro heq
        injection heq with hpr hvw
        exact absurd ⟨hpr, hvw⟩ hne
      · intro heq
        rw [heq] at hfree
        exact absurd hfree hr
    · rw [softTlbMap_pageInfoTable_of_ne s p v hji]
  · exact fun _ _ => rfl

include h hp hv hnew in
/-- The new page holds what the physical page held. -/
theorem WellFormed.view_softTlbMap_self (hcurr : p ≠ s.currVmPid) :
    (s.softTlbMap p v i).view p v = some (s.mem (pageOfId i)) := by
  have hfind := (h.softTlbMap hv hnew).find_eq hp (softTlbMap_pageInfoTable_self s p v i)
  unfold Tlb.view
  rw [hfind, Option.map_some]
  exact congrArg some (if_neg hcurr)

end Map

/-- A store that hits neither a page's virtual nor its physical place leaves it alone. -/
theorem view_store_of_ne {a : Nat} {c : π}
    (hne : ∀ i, s.find p v = some i → (if p = s.currVmPid then v else pageOfId i) ≠ a) :
    (s.store a c).view p v = s.view p v := by
  have hfind : (s.store a c).find p v = s.find p v := rfl
  apply view_congr hfind
  intro i hi
  have hne := hne i hi
  show (if p = s.currVmPid then Function.update s.mem a c v
    else Function.update s.mem a c (pageOfId i)) = _
  split_ifs at hne ⊢ <;> exact Function.update_of_ne hne ..

/-- A store to the place where a page is at the moment. -/
theorem view_store_self {a : Nat} {c : π} (hfind : s.find p v = some i)
    (ha : (if p = s.currVmPid then v else pageOfId i) = a) :
    (s.store a c).view p v = some c := by
  have hfind' : (s.store a c).find p v = some i := hfind
  unfold Tlb.view
  rw [hfind', Option.map_some]
  show some (if p = s.currVmPid then Function.update s.mem a c v
    else Function.update s.mem a c (pageOfId i)) = _
  split_ifs at ha ⊢ <;> rw [ha, Function.update_self]

theorem WellFormed.store (h : WellFormed s) (a : Nat) (c : π) : WellFormed (s.store a c) :=
  h.congr rfl

/-! ## Runs -/

/-- What happens to the memory. `map`, `fill` and `store` give the content a page of a process
    gets. -/
inductive TlbEvent (π : Type) where
  | switch (p : Int)
  /-- A free physical page is written. -/
  | prepare
  | map (p : Int) (v : Nat) (content : π)
  /-- A page is written through its physical address. -/
  | fill (p : Int) (v : Nat) (content : π)
  | store (p : Int) (v : Nat) (content : π)
  | free (p : Int)

/-- The operations on the memory, with the conditions under which the kernel uses them. -/
inductive TlbStep : Tlb π → TlbEvent π → Tlb π → Prop where
  | switch {s : Tlb π} {p : Int} (hp : p ≠ 0) : TlbStep s (.switch p) (s.softTlbSwitch p)
  | translate {s : Tlb π} {p : Int} (hp : p ≠ 0) (vaddr : UInt32) :
      TlbStep s (.switch p) (s.softTlbTranslate p vaddr).2
  | prepare {s : Tlb π} {i : PageId} (hfree : (s.pageInfoTable i).pid = 0) (c : π) :
      TlbStep s .prepare (s.store (pageOfId i) c)
  | map {s : Tlb π} {p : Int} {v : Nat} {i : PageId} (hp : p ≠ 0) (hcurr : p ≠ s.currVmPid)
      (hv : v < appsPagesBase) (hfree : (s.pageInfoTable i).pid = 0)
      (hnew : ∀ j, s.pageInfoTable j ≠ ⟨p, v⟩) :
      TlbStep s (.map p v (s.mem (pageOfId i))) (s.softTlbMap p v i)
  | fill {s : Tlb π} {p : Int} {v : Nat} {i : PageId} (hp : p ≠ 0) (hcurr : p ≠ s.currVmPid)
      (hi : s.pageInfoTable i = ⟨p, v⟩) (c : π) :
      TlbStep s (.fill p v c) (s.store (pageOfId i) c)
  | store {s : Tlb π} {p : Int} {v : Nat} {i : PageId} (hp : p ≠ 0) (hcurr : p = s.currVmPid)
      (hi : s.pageInfoTable i = ⟨p, v⟩) (c : π) : TlbStep s (.store p v c) (s.store v c)
  | free {s : Tlb π} {p : Int} (hp : p ≠ 0) (hcurr : p ≠ s.currVmPid) :
      TlbStep s (.free p) (s.softTlbFree p)

theorem WellFormed.step {e : TlbEvent π} (h : WellFormed s) (he : TlbStep s e s') :
    WellFormed s' := by
  cases he with
  | switch hp => exact h.congr (softTlbSwitch_pageInfoTable s _)
  | translate hp vaddr => exact h.congr (softTlbSwitch_pageInfoTable s _)
  | prepare hfree c => exact h.store _ c
  | map hp hcurr hv hfree hnew => exact h.softTlbMap hv hnew
  | fill hp hcurr hi c => exact h.store _ c
  | store hp hcurr hi c => exact h.store _ c
  | free hp hcurr => exact h.softTlbFree _

/-- The content an event gives to the page `v` of `p`. -/
def TlbEvent.content (p : Int) (v : Nat) : TlbEvent π → Option π
  | .map q w c | .fill q w c | .store q w c => if q = p ∧ w = v then some c else none
  | .switch _ | .prepare | .free _ => none

/-- The page `v` of `p` after an event, had every process a memory of its own. -/
def TlbEvent.after (p : Int) (v : Nat) (c : Option π) (e : TlbEvent π) : Option π :=
  match e with
  | .free q => if q = p then none else c
  | e => (e.content p v).or c

/-- A store to a page of a process, wherever it is, stores to no page of another. -/
theorem WellFormed.view_store_page (h : WellFormed s) (hq : q ≠ 0)
    (hi : s.pageInfoTable i = ⟨q, w⟩) (hp : p ≠ 0) (v : Nat) (c : π) :
    (s.store (if q = s.currVmPid then w else pageOfId i) c).view p v =
      if q = p ∧ w = v then some c else s.view p v := by
  by_cases hsame : q = p ∧ w = v
  · rw [if_pos hsame]
    obtain ⟨rfl, rfl⟩ := hsame
    exact view_store_self (h.find_eq hq hi) rfl
  · rw [if_neg hsame]
    apply view_store_of_ne
    intro j hfind heq
    have hj := find_some hfind
    split_ifs at heq with hpcurr hqcurr hqcurr
    · -- both are in the user address space, so it is the same process
      exact hsame ⟨hqcurr.trans hpcurr.symm, heq.symm⟩
    · exact h.ne_pageOfId hp hj i heq
    · exact h.ne_pageOfId hq hi j heq.symm
    · -- the same physical page, so the same entry of the table
      obtain rfl := pageOfId_inj heq
      injection hi.symm.trans hj with hqp hwv
      exact hsame ⟨hqp, hwv⟩

/-- Writing a free physical page changes no page of a process. -/
theorem WellFormed.view_store_free (h : WellFormed s) (hfree : (s.pageInfoTable i).pid = 0)
    (hp : p ≠ 0) (v : Nat) (c : π) : (s.store (pageOfId i) c).view p v = s.view p v := by
  apply view_store_of_ne
  intro j hfind heq
  have hj := find_some hfind
  split_ifs at heq with hcurr
  · exact h.ne_pageOfId hp hj i heq
  · obtain rfl := pageOfId_inj heq
    rw [hj] at hfree
    exact hp hfree

/-- Every operation does to a page of a process what it does to a memory of its own. -/
theorem view_step {e : TlbEvent π} (h : WellFormed s) (he : TlbStep s e s') (hp : p ≠ 0)
    (v : Nat) : s'.view p v = e.after p v (s.view p v) := by
  cases he with
  | switch hq => exact h.view_softTlbSwitch hq hp v
  | translate hq vaddr => exact h.view_softTlbSwitch hq hp v
  | prepare hfree c => exact h.view_store_free hfree hp v c
  | map hq hcurr hw hfree hnew =>
    simp only [TlbEvent.after, TlbEvent.content]
    split_ifs with hsame
    · obtain ⟨rfl, rfl⟩ := hsame
      exact h.view_softTlbMap_self hq hw hnew hcurr
    · exact view_softTlbMap_other hfree hp hsame
  | fill hq hcurr hi c =>
    have hstore := h.view_store_page hq hi hp v c
    rw [if_neg hcurr] at hstore
    rw [hstore]
    simp only [TlbEvent.after, TlbEvent.content]
    split_ifs <;> rfl
  | store hq hcurr hi c =>
    have hstore := h.view_store_page hq hi hp v c
    rw [if_pos hcurr] at hstore
    rw [hstore]
    simp only [TlbEvent.after, TlbEvent.content]
    split_ifs <;> rfl
  | free hq hcurr =>
    simp only [TlbEvent.after]
    split_ifs with hqp
    · subst hqp
      exact view_softTlbFree_self hp v
    · exact view_softTlbFree_other hp (Ne.symm hqp) v

/-- Over a run, the software TLB is a memory for every process. -/
theorem view_run {events : List (TlbEvent π)} (h : WellFormed s₀) (hrun : Run TlbStep s₀ events s)
    (hp : p ≠ 0) (v : Nat) :
    WellFormed s ∧ s.view p v = events.foldl (TlbEvent.after p v) (s₀.view p v) := by
  apply hrun.simulate (R := fun s c => WellFormed s ∧ s.view p v = c) ⟨h, rfl⟩
  rintro t e u c ⟨ht, rfl⟩ he
  exact ⟨ht.step he, view_step ht he hp v⟩

/-- Unless an event takes the page away, it gives it its content or leaves it alone. -/
theorem TlbEvent.after_eq (p : Int) (v : Nat) (c : Option π) (e : TlbEvent π) :
    e.after p v c = none ∨ e.after p v c = (e.content p v).or c := by
  cases e with
  | free q =>
    simp only [TlbEvent.after]
    split_ifs
    · exact .inl rfl
    · exact .inr rfl
  | _ => exact .inr rfl

/-- A page that is there holds what it was last given. -/
theorem foldl_after {events : List (TlbEvent π)} {c₀ : Option π} {c : π}
    (h : events.foldl (TlbEvent.after p v) c₀ = some c) :
    some c = (events.filterMap (TlbEvent.content p v)).getLast?.or c₀ := by
  induction events generalizing c₀ with
  | nil => exact h.symm
  | cons e events ih =>
    have hlast : ((e :: events).filterMap (TlbEvent.content p v)).getLast? =
        (events.filterMap (TlbEvent.content p v)).getLast?.or (e.content p v) := by
      cases he : e.content p v with
      | none => rw [List.filterMap_cons_none he, Option.or_none]
      | some d =>
        rw [List.filterMap_cons_some he, List.getLast?_cons]
        cases (events.filterMap (TlbEvent.content p v)).getLast? <;> rfl
    have hc := ih h
    rw [hlast, Option.or_assoc]
    rcases e.after_eq p v c₀ with hnone | hafter
    · -- the page was taken away, so a later event has given it its content
      rw [hnone, Option.or_none] at hc
      rw [← hc, Option.some_or]
    · rw [← hafter]
      exact hc

/-- Whenever a process is switched in, every page of its holds the content that was last put
    there for it, or the one it had at the start. Stores by others are not in that list. -/
theorem soft_tlb_isolates {events : List (TlbEvent π)} (h : WellFormed s₀)
    (hrun : Run TlbStep s₀ events s) (hp : p ≠ 0) (hcurr : s.currVmPid = p)
    (hi : s.pageInfoTable i = ⟨p, v⟩) :
    some (s.mem v) =
      (events.filterMap (TlbEvent.content p v)).getLast?.or (s₀.view p v) := by
  obtain ⟨hs, hview⟩ := view_run h hrun hp v
  apply foldl_after
  rw [← hview]
  unfold Tlb.view
  rw [hs.find_eq hp hi, Option.map_some, if_pos hcurr.symm]

/-! Two processes with the same virtual page, the first of which comes back. -/

/-- No page is mapped, and nobody is switched in. -/
def emptyTlb : Tlb Nat :=
  { mem := fun _ => 0, pageInfoTable := fun _ => ⟨0, 0⟩, currVmPid := -1, bitmap := fun _ => 0 }

/-- Processes 1 and 2 have the page `0x80100`. -/
def mappedTlb : Tlb Nat := (emptyTlb.softTlbMap 1 0x80100 0).softTlbMap 2 0x80100 1

/-- Process 1 stores 7, process 2 stores 9, and process 1 is switched in again. -/
def sharedTlb : Tlb Nat :=
  ((((mappedTlb.softTlbSwitch 1).store 0x80100 7).softTlbSwitch 2).store 0x80100 9).softTlbSwitch 1

theorem wellFormed_emptyTlb : WellFormed emptyTlb :=
  ⟨fun _ _ hpid => absurd rfl hpid, fun _ hpid => absurd rfl hpid⟩

theorem emptyTlb_ne (hp : p ≠ 0) (j : PageId) : emptyTlb.pageInfoTable j ≠ ⟨p, v⟩ :=
  fun h => hp (congrArg PageInfo.pid h).symm

theorem sharedTlb_pageInfoTable : sharedTlb.pageInfoTable = mappedTlb.pageInfoTable := by
  unfold sharedTlb
  rw [softTlbSwitch_pageInfoTable]
  show (Tlb.softTlbSwitch _ 2).pageInfoTable = _
  rw [softTlbSwitch_pageInfoTable]
  show (Tlb.softTlbSwitch _ 1).pageInfoTable = _
  rw [softTlbSwitch_pageInfoTable]

theorem soft_tlb_isolates_shared : sharedTlb.mem 0x80100 = 7 := by
  let s₁ := mappedTlb.softTlbSwitch 1
  let s₂ := (s₁.store 0x80100 7).softTlbSwitch 2
  have hmap₁ : TlbStep emptyTlb (.map 1 0x80100 0) (emptyTlb.softTlbMap 1 0x80100 0) :=
    .map (by decide) (by decide) (by decide) rfl (emptyTlb_ne (by decide))
  have hmap₂ : TlbStep (emptyTlb.softTlbMap 1 0x80100 0) (.map 2 0x80100 0) mappedTlb := by
    refine .map (by decide) (by decide) (by decide) rfl fun j => ?_
    by_cases hj : j = 0
    · subst hj
      decide
    · rw [softTlbMap_pageInfoTable_of_ne _ _ _ hj]
      exact emptyTlb_ne (by decide) j
  have hpage₁ : s₁.pageInfoTable 0 = ⟨1, 0x80100⟩ := softTlbSwitch_pageInfoTable mappedTlb 1 ▸ rfl
  have hstore₁ : TlbStep s₁ (.store 1 0x80100 7) (s₁.store 0x80100 7) :=
    .store (by decide) (softTlbSwitch_currVmPid _ 1).symm hpage₁ 7
  have hpage₂ : s₂.pageInfoTable 1 = ⟨2, 0x80100⟩ := by
    rw [softTlbSwitch_pageInfoTable (s₁.store 0x80100 7) 2]
    exact softTlbSwitch_pageInfoTable mappedTlb 1 ▸ rfl
  have hstore₂ : TlbStep s₂ (.store 2 0x80100 9) (s₂.store 0x80100 9) :=
    .store (by decide) (softTlbSwitch_currVmPid _ 2).symm hpage₂ 9
  have hrun : Run TlbStep emptyTlb
      [.map 1 0x80100 0, .map 2 0x80100 0, .switch 1, .store 1 0x80100 7, .switch 2,
        .store 2 0x80100 9, .switch 1] sharedTlb :=
    .cons hmap₁ (.cons hmap₂ (.cons (.switch (by decide)) (.cons hstore₁
      (.cons (.switch (by decide)) (.cons hstore₂ (.cons (.switch (by decide)) .nil))))))
  have hlast := soft_tlb_isolates wellFormed_emptyTlb hrun (p := 1) (i := 0) (v := 0x80100)
    (by decide) (softTlbSwitch_currVmPid _ 1) (by rw [sharedTlb_pageInfoTable]; rfl)
  exact Option.some.inj hlast

end Egos.Earth
