import GarretOS.Mm.DupFailure
import GarretOS.Proc.ForkState

/-!
# When `do_fork` runs out of memory

`alloc_pages` returns `NULL` when no suitable run of pages is free.  `do_fork` has three ways to
clean up after that, but not all of its allocations lead to one of them: `malloc` passes the null
pointer to `page2va`, `copy_range` asserts that it has got a page, and `free_range` does not free
tables of leaf entries.

* `ForkPoint`, `FailsAt` : the allocations of `do_fork`, and at which of them it gets `NULL`;
* `Unchanged` : the system is as it was before;
* `do_fork_atomic` : at which allocations `do_fork` returns an error and leaves the system
  unchanged.
-/

namespace GarretOS

open Radix

/-- The allocations of `do_fork`. -/
inductive ForkPoint where
  /-- `malloc` in `alloc_proc` -/
  | pcb
  /-- `alloc_pages` in `alloc_kernel_stack` -/
  | kernelStack
  /-- `malloc` in `init_vmm` -/
  | vmManager
  /-- `alloc_page` in `alloc_gpt` -/
  | rootTable
  /-- `malloc` in `init_vma`, for the copy of the area `v` -/
  | vma (v : Vma)
  /-- `alloc_page` in `get_pte`, for a table of the child at the address `a` in the area `v` -/
  | pageTable (v : Vma) (a : ℕ)
  /-- `alloc_page` in `copy_range`, for the page at the address `a` in the area `v` -/
  | page (v : Vma) (a : ℕ)

namespace ForkState

variable {κ : Type} [DecidableEq κ]

section

variable (s : ForkState κ) (bpt : ℕ) (cloneVm : Bool)

/-! ### How far `do_fork` has got -/

/-- `do_fork` has allocated `proc`, and calls `alloc_kernel_stack` in the state `t`. -/
def AtStack (t : ForkState κ) (proc : ℕ) : Prop :=
  ¬ maxProcess < s.table.numProc ∧ ∃ s₀, s.allocProc bpt = .ok (s₀, proc) ∧
    t = { s₀ with table := s₀.table.setParent proc (some s₀.curr) } ∧
    (t.sched.pcb t.curr).waitState = waitNone

/-- `do_fork` has allocated the kernel stack of `proc`, and calls `copy_vmm` in the state `t`. -/
def AtVmm (t : ForkState κ) (proc : ℕ) : Prop :=
  ∃ s₁, s.AtStack bpt s₁ proc ∧ s₁.allocKernelStack proc = .ok (t, 0)

/-- `copy_vmm` duplicates `oldVmm`; it has allocated `vmm`, and calls `alloc_gpt`. -/
def AtGpt (t : ForkState κ) (proc oldVmm : ℕ) (vmm : VmManager) : Prop :=
  cloneVm = false ∧ ∃ s₂, s.AtVmm bpt s₂ proc ∧ s₂.vmm s₂.curr = some oldVmm ∧
    s₂.initVmm = .ok (t, vmm)

/-- `copy_vmm` has allocated the root table of `vmm` and has locked `oldVmm`, and calls
`dup_vmm`. -/
def AtDup (t : ForkState κ) (proc oldVmm : ℕ) (vmm : VmManager) : Prop :=
  ∃ s₃ vmm₀ mm, s.AtGpt bpt cloneVm s₃ proc oldVmm vmm₀ ∧
    allocGpt bpt s₃.mm vmm₀ = .ok (mm, vmm, 0) ∧
    ({ s₃ with mm } : ForkState κ).lockVmm oldVmm = .ok t

/-- `copy_range` has come to the address `a` in the area `v`, in the memory `m`; the page table of
the parent is `fr`, that of the child is `tr`. -/
def AtPage (k : ℕ) (m : Mm) (fr tr : ℕ) (v : Vma) (a : ℕ) : Prop :=
  ∃ t proc oldVmm vmm to_ rest, s.AtDup bpt cloneVm t proc oldVmm vmm ∧
    (t.space oldVmm).pGpt = some fr ∧ vmm.pGpt = some tr ∧
    DupAt k (t.space oldVmm) vmm fr tr t.mm v a m to_ rest

/-- `do_fork` gets `NULL` from an allocation. -/
def FailsAt (k : ℕ) : ForkPoint → Prop
  | .pcb => ¬ maxProcess < s.table.numProc ∧
      ∃ mm, s.mm.allocPages (Mm.numPages pcbSize) = .ok (mm, none)
  | .kernelStack => ∃ t proc mm, s.AtStack bpt t proc ∧
      t.mm.allocPages kernelStackPage = .ok (mm, none)
  | .vmManager => cloneVm = false ∧ ∃ t proc oldVmm mm, s.AtVmm bpt t proc ∧
      t.vmm t.curr = some oldVmm ∧ t.mm.allocPages (Mm.numPages VmManager.size) = .ok (mm, none)
  | .rootTable => ∃ t proc oldVmm vmm mm, s.AtGpt bpt cloneVm t proc oldVmm vmm ∧
      t.mm.allocPage = .ok (mm, none)
  | .vma v => ∃ t proc oldVmm vmm m rest to_ mm, s.AtDup bpt cloneVm t proc oldVmm vmm ∧
      DupReaches k (t.space oldVmm) t.mm (t.space oldVmm).vmaList.reverse vmm m (v :: rest) to_ ∧
      m.allocPages (Mm.numPages Vma.size) = .ok (mm, none)
  | .pageTable v a => ∃ m fr tr mm, s.AtPage bpt cloneVm k m fr tr v a ∧ m.entry fr a ≠ none ∧
      m.getPte tr a true = .ok (mm, none)
  | .page v a => ∃ m fr tr m₁ q mm, s.AtPage bpt cloneVm k m fr tr v a ∧ m.entry fr a ≠ none ∧
      m.getPte tr a true = .ok (m₁, some q) ∧ m₁.allocPage = .ok (mm, none)

/-! ### What is left behind -/

/-- The processes, semaphores and structures `vm_manager` outside of the frames `F` are as they
were. -/
structure Kept (t : ForkState κ) (F : Set ℕ) : Prop where
  /-- `g_proc_list` -/
  procList : ∀ l : Option ℕ, (∀ p ∈ l, p ∉ F) →
    t.table.procList.next l = s.table.procList.next l ∧
      t.table.procList.prev l = s.table.procList.prev l
  /-- `g_num_proc` -/
  numProc : t.table.numProc = s.table.numProc
  /-- The links between parents, children and siblings. -/
  family : ∀ p, p ∉ F → t.table.parent p = s.table.parent p ∧ t.table.child p = s.table.child p ∧
    t.table.younger p = s.table.younger p ∧ t.table.older p = s.table.older p
  curr : t.curr = s.curr
  /-- The semaphores: their values, and the ends of their wait queues. -/
  sem : ∀ k : κ ⊕ ℕ, (∀ v, k = .inr v → v ∉ F) → t.sched.sem.value k = s.sched.sem.value k ∧
    t.sched.sem.link.next (.queue k) = s.sched.sem.link.next (.queue k) ∧
    t.sched.sem.link.prev (.queue k) = s.sched.sem.link.prev (.queue k)
  vmm : ∀ p, p ∉ F → t.vmm p = s.vmm p
  /-- The address spaces, with their reference counters. -/
  space : ∀ v, v ∉ F → t.space v = s.space v

/-- The system is as it was: the same pages are free, nothing is different outside of them, and the
running process has the same mappings. -/
structure Unchanged (t : ForkState κ) : Prop extends s.Kept t s.mm.pmm.freePages where
  freePages : t.mm.pmm.freePages = s.mm.pmm.freePages
  mem : s.mm.WritesOnly t.mm s.mm.pmm.freePages
  mappings : ∀ v, s.vmm s.curr = some v → ∀ r, (s.space v).pGpt = some r → ∀ a < userEnd,
    t.mm.lookup r a = s.mm.lookup r a

/-- `do_fork` returns a negative error and leaves the system unchanged. -/
def Atomic (k : ℕ) (cloneVm : Bool) : Prop :=
  ∃ t ret, s.doFork bpt k cloneVm = .ok (t, ret) ∧ ret < 0 ∧ s.Unchanged t

end

/-- The failures from which `do_fork` recovers: no kernel stack, no root table, or no table for the
first page that is copied. -/
def Recovers (s : ForkState κ) : ForkPoint → Prop
  | .kernelStack => True
  | .rootTable => True
  | .pageTable v a => ∀ oldVmm r, s.vmm s.curr = some oldVmm → (s.space oldVmm).pGpt = some r →
      ∀ b < userEnd, ((∃ w ∈ (s.space oldVmm).vmaList, w.holds b) ∧ v.vmEnd ≤ b ∨
        v.vmStart ≤ b ∧ b < a) → s.mm.lookup r b = .ok none
  | _ => False

/-- The state in which a process calls `do_fork`: page tables and areas are in order, and where the
lock of its address space is free no process waits for it. -/
structure ForkReady (s : ForkState κ) (bpt : ℕ) (R D F : Set ℕ) : Prop where
  consistent : s.mm.Consistent R userEntries D F
  kernel : ∀ i ∈ userEntries, ¬ isValid (s.mm.mem bpt i)
  curr : s.curr ∉ F
  parent : ∀ v, s.vmm s.curr = some v → v ∉ F ∧ (∃ r ∈ R, (s.space v).pGpt = some r) ∧
    VmasOk (s.space v).vmaList
  lock : ∀ v, s.vmm s.curr = some v → 0 < s.sched.sem.value (.inr v) →
    s.sched.sem.waitQueueFirst (.inr v) = none ∧ s.sched.sem.value (.inr v) < 2 ^ 31

variable {s t : ForkState κ} {bpt k proc oldVmm : ℕ} {cloneVm : Bool} {R D F F' : Set ℕ}
  {vmm : VmManager}

section

omit [DecidableEq κ]

theorem Kept.of_mm (h : s.Kept t F) (mm : Mm) : s.Kept { t with mm } F :=
  ⟨h.procList, h.numProc, h.family, h.curr, h.sem, h.vmm, h.space⟩

/-- `alloc_proc` changes nothing outside of the new structure. -/
theorem allocProc_kept (h : s.allocProc bpt = .ok (t, proc)) (hp : proc ∈ F) (q : Option ℕ) :
    s.Kept { t with table := t.table.setParent proc q } F := by
  obtain ⟨⟨mm, va⟩, -, h⟩ := bind_eq_ok.1 h
  obtain ⟨rfl, rfl⟩ := Prod.mk.inj (Except.ok.inj h)
  have hne : ∀ p, p ∉ F → p ≠ va := fun p hpF he => hpF (he ▸ hp)
  refine ⟨fun l hl => ?_, rfl, fun p hpF => ?_, rfl, fun _ _ => ⟨rfl, rfl, rfl⟩, fun p hpF => ?_,
    fun _ _ => rfl⟩
  · have hlva : l ≠ some va := fun he => hl va he hp
    simp [ProcTable.setParent, ProcTable.allocProc, Links.initList, hlva]
  · simp [ProcTable.setParent, ProcTable.allocProc, ProcTable.setPid, ProcTable.setChild,
      ProcTable.setYounger, ProcTable.setOlder, hne p hpF]
  · simp [hne p hpF]

/-- The structure of the new process is a page that was free. -/
theorem AtStack.spec (h : s.ForkReady bpt R D F) (hs : s.AtStack bpt t proc) :
    proc ∈ F ∧ s.Kept t F ∧ t.mm.Consistent R userEntries D (F \ {proc}) ∧
      t.mm.mem = s.mm.mem := by
  obtain ⟨-, s₀, halloc, rfl, -⟩ := hs
  have hkept := fun hp => allocProc_kept (F := F) halloc hp (some s₀.curr)
  obtain ⟨⟨mm, va⟩, h1, h2⟩ := bind_eq_ok.1 halloc
  obtain ⟨rfl, rfl⟩ := Prod.mk.inj (Except.ok.inj h2)
  obtain ⟨ha, -⟩ := (Mm.malloc_sat h.consistent.tables.free
    (show Mm.numPages pcbSize = 1 by decide)).of_ok h1
  exact ⟨ha.mem_free, hkept ha.mem_free, h.consistent.take ha, ha.mem⟩

/-- The new process `proc` has its structure and its kernel stack, and nothing else has changed;
the pages in `F'` are still free. -/
structure Begun (s t : ForkState κ) (R D F F' : Set ℕ) (proc : ℕ) : Prop where
  kept : s.Kept t F
  mem_free : proc ∈ F
  stack : Set.Ico (t.kernelStack proc) (t.kernelStack proc + kernelStackPage) ⊆ F \ {proc}
  free : F' = (F \ {proc}) \ Set.Ico (t.kernelStack proc) (t.kernelStack proc + kernelStackPage)
  consistent : t.mm.Consistent R userEntries D F'
  mem : t.mm.mem = s.mm.mem

theorem AtVmm.begun (h : s.ForkReady bpt R D F) (hs : s.AtVmm bpt t proc) :
    ∃ F', Begun s t R D F F' proc := by
  obtain ⟨s₁, hs₁, hstack⟩ := hs
  obtain ⟨hp, hkept, hc, hmem⟩ := hs₁.spec h
  obtain ⟨⟨mm, o⟩, h1, h2⟩ := bind_eq_ok.1 hstack
  have hal := (Mm.allocPages_sat hc.tables.free (n := kernelStackPage) (by decide)).of_ok h1
  cases o with
  | none => exact absurd (congrArg Prod.snd (Except.ok.inj h2)) (show ¬ -eNoMem = 0 by decide)
  | some page =>
    obtain ⟨hsub, hfree, hmem', href, -⟩ := hal
    obtain ⟨va, h3, hres⟩ := bind_eq_ok.1 h2
    obtain ⟨rfl, -⟩ := (page2va_sat page).of_ok h3
    obtain rfl := congrArg Prod.fst (Except.ok.inj hres)
    refine ⟨_, ⟨hkept.procList, hkept.numProc, hkept.family, hkept.curr, hkept.sem, hkept.vmm,
      hkept.space⟩, hp, ?_, rfl, ?_, hmem'.trans hmem⟩
    · simpa using hsub
    · simpa using hc.shrink hmem' href hfree Set.sdiff_subset

/-! ### Cleaning up -/

/-- The structure of a process is freed. -/
theorem freeProc_eq (hfree : FreeSet t.mm.pmm F') (hpool : poolBegin ≤ proc ∧ proc < poolEnd)
    (hproc : proc ∉ F') : ∃ mm, t.freeProc proc = .ok { t with mm } ∧
      FreeSet mm.pmm (insert proc F') ∧ mm.mem = t.mm.mem := by
  have hsize : Mm.numPages pcbSize = 1 := by decide
  obtain ⟨mm, h1, h2, h3⟩ := Mm.free_record hfree hsize hpool hproc
  exact ⟨mm, by rw [freeProc, h1]; rfl, h2, h3⟩

/-- When all pages have been given back, everything is as it was. -/
theorem Kept.unchanged (h : s.ForkReady bpt R D F) (hkept : s.Kept t F)
    (hfree : FreeSet t.mm.pmm F) (hw : s.mm.WritesOnly t.mm F) : s.Unchanged t := by
  have hF := h.consistent.tables.free.freePages_eq
  refine ⟨hF.symm ▸ hkept, by rw [hF, hfree.freePages_eq], hF.symm ▸ hw, fun v hv r hr a ha => ?_⟩
  obtain ⟨-, ⟨r', hr', hgpt⟩, -⟩ := h.parent v hv
  obtain rfl := Option.some.inj (hgpt.symm.trans hr)
  exact h.consistent.tables.lookup_frame (fun f hf _ => hw f hf) hfree hr' (getGptx_user ha)

end

theorem not_atomic {e : Fault} (h : s.doFork bpt k cloneVm = .error e) :
    ¬ s.Atomic bpt k cloneVm := by
  rintro ⟨t, ret, hok, -⟩
  rw [h] at hok
  cases hok

theorem AtStack.doFork_eq (hs : s.AtStack bpt t proc) : s.doFork bpt k cloneVm = (do
    let (s, ret) ← t.allocKernelStack proc
    if ret = -eNoMem then
      let s ← s.freeProc proc
      return (s, -eNoMem)
    else
      let (s, ret) ← s.copyVmm bpt k proc cloneVm
      if ret = -eNoMem then
        let s ← s.freeKernelStack proc
        let s ← s.freeProc proc
        return (s, -eNoMem)
      else s.enter k proc) := by
  obtain ⟨hnum, s₀, halloc, rfl, hwait⟩ := hs
  rw [doFork, if_neg hnum, halloc, ok_bind]
  simp only [assert_of hwait, ok_bind]

theorem AtVmm.doFork_eq (hs : s.AtVmm bpt t proc) : s.doFork bpt k cloneVm = (do
    let (s, ret) ← t.copyVmm bpt k proc cloneVm
    if ret = -eNoMem then
      let s ← s.freeKernelStack proc
      let s ← s.freeProc proc
      return (s, -eNoMem)
    else s.enter k proc) := by
  obtain ⟨s₁, hs₁, hstack⟩ := hs
  rw [hs₁.doFork_eq, hstack, ok_bind]
  exact if_neg (by decide)

/-- **A failure inside `copy_vmm`** : the kernel stack and the structure of the new process are
freed, and nothing is left behind if `copy_vmm` has given back all that it has taken. -/
theorem Begun.atomic_iff (h : s.ForkReady bpt R D F) {F₂ : Set ℕ} (hb : Begun s t R D F F₂ proc)
    (hs : s.AtVmm bpt t proc) {t' : ForkState κ}
    (hcopy : t.copyVmm bpt k proc cloneVm = .ok (t', -eNoMem)) (hkept : s.Kept t' F)
    (hstack : t'.kernelStack proc = t.kernelStack proc) (hfree : FreeSet t'.mm.pmm F')
    (hsub : F' ⊆ F₂) (hw : s.mm.WritesOnly t'.mm F) : s.Atomic bpt k cloneVm ↔ F' = F₂ := by
  have hpool : ∀ f ∈ F, poolBegin ≤ f ∧ f < poolEnd := fun f hf =>
    h.consistent.tables.free.mem_pool hf
  obtain ⟨stk, hstk⟩ : ∃ stk, stk = t.kernelStack proc := ⟨_, rfl⟩
  have hstackF := hb.stack
  have hF₂ := hb.free
  rw [← hstk] at hstack hstackF hF₂
  have hlo := hpool stk (hstackF ⟨le_rfl, by simp [kernelStackPage]⟩).1
  have hhi := hpool (stk + 1) (hstackF ⟨by omega, by simp [kernelStackPage]⟩).1
  have hprocS : proc ∉ Set.Ico stk (stk + kernelStackPage) := fun hm => (hstackF hm).2 rfl
  have hprocF : proc ∉ F' := fun hm => (hF₂ ▸ hsub hm : proc ∈ (F \ {proc}) \ _).1.2 rfl
  have hdisj : Disjoint (Set.Ico stk (stk + kernelStackPage)) F' :=
    Set.disjoint_left.2 fun f hf hm => (hF₂ ▸ hsub hm : f ∈ (F \ {proc}) \ _).2 hf
  obtain ⟨m₁, h1, h2, h3⟩ := Mm.freePages_eq hfree (n := kernelStackPage) (by decide) hlo.1
    (by simp only [kernelStackPage]; omega) hdisj
  obtain ⟨m₂, h4, h5, h6⟩ := freeProc_eq (t := { t' with mm := m₁ }) h2 (hpool proc hb.mem_free)
    (fun hm => hm.elim hprocF hprocS)
  have hstackFree : t'.freeKernelStack proc = .ok { t' with mm := m₁ } := by
    rw [freeKernelStack, hstack, va2page, assert_of hlo, ok_bind]
    simp only [pure, Except.pure, ok_bind, h1]
  have hfork : s.doFork bpt k cloneVm = .ok ({ t' with mm := m₂ }, -eNoMem) := by
    rw [hs.doFork_eq, hcopy, ok_bind]
    simp only [if_true, hstackFree, ok_bind, h4]
    rfl
  -- the pages that are free in the end
  have hall : insert proc (F₂ ∪ Set.Ico stk (stk + kernelStackPage)) = F := by
    rw [hF₂, Set.sdiff_union_of_subset hstackF, Set.insert_sdiff_singleton,
      Set.insert_eq_of_mem hb.mem_free]
  constructor
  · rintro ⟨u, ret, hok, -, hun⟩
    obtain ⟨rfl, -⟩ := Prod.mk.inj (Except.ok.inj (hfork.symm.trans hok))
    have heq : insert proc (F' ∪ Set.Ico stk (stk + kernelStackPage)) = F := by
      rw [← h.consistent.tables.free.freePages_eq, ← hun.freePages, h5.freePages_eq]
    refine Set.Subset.antisymm hsub fun f hf => ?_
    have hfF : f ∈ F ∧ f ≠ proc ∧ f ∉ Set.Ico stk (stk + kernelStackPage) := by
      rw [hF₂] at hf
      exact ⟨hf.1.1, hf.1.2, hf.2⟩
    rcases heq.superset hfF.1 with he | hm | hm
    · exact absurd he hfF.2.1
    · exact hm
    · exact absurd hm hfF.2.2
  · rintro rfl
    rw [hall] at h5
    refine ⟨_, _, hfork, by decide, (hkept.of_mm m₂).unchanged h h5 (hw.trans (.of_eq ?_))⟩
    exact h6.trans h3

/-! ### Inside `copy_vmm` -/

theorem Begun.initVmm {F₂ : Set ℕ} (hb : Begun s t R D F F₂ proc)
    {t₃ : ForkState κ} (hinit : t.initVmm = .ok (t₃, vmm)) :
    GarretOS.initVmm t.mm = .ok (t₃.mm, vmm) ∧ t.mm.Allocated t₃.mm F₂ vmm.frame ∧
      vmm.vmaList = [] ∧ s.Kept t₃ F ∧ t₃.kernelStack = t.kernelStack := by
  obtain ⟨⟨mm, vmm'⟩, h1, h2⟩ := bind_eq_ok.1 hinit
  obtain ⟨rfl, rfl⟩ := Prod.mk.inj (Except.ok.inj h2)
  obtain ⟨ha, hvmas, -⟩ := (malloc_record hb.consistent).of_ok h1
  have hF : vmm'.frame ∈ F := by
    have := ha.mem_free
    rw [hb.free] at this
    exact this.1.1
  refine ⟨h1, ha, hvmas, ⟨hb.kept.procList, hb.kept.numProc, hb.kept.family, hb.kept.curr,
    fun k hk => ?_, hb.kept.vmm, hb.kept.space⟩, rfl⟩
  -- the semaphore of the new structure is another one
  have hne : k ≠ .inr vmm'.frame := fun he => hk _ he hF
  simpa [SemState.initSem, Links.initList, hne] using hb.kept.sem k hk

/-- `copy_vmm` when it allocates an address space. -/
theorem AtGpt.copyVmm_eq {t₃ : ForkState κ} (hs : s.AtGpt bpt cloneVm t₃ proc oldVmm vmm) :
    ∃ t, s.AtVmm bpt t proc ∧ t.vmm t.curr = some oldVmm ∧ t.initVmm = .ok (t₃, vmm) ∧
      ∀ k, t.copyVmm bpt k proc cloneVm = (do
        let (mm, vmm, ret) ← allocGpt bpt t₃.mm vmm
        if ret ≠ 0 then
          let mm ← delVmm mm vmm
          return ({ t₃ with mm }, -eNoMem)
        else ({ t₃ with mm } : ForkState κ).fillVmm k proc oldVmm vmm) := by
  obtain ⟨rfl, t, hat, hold, hinit⟩ := hs
  refine ⟨t, hat, hold, hinit, fun k => ?_⟩
  simp only [copyVmm, hold, hinit, ok_bind]
  rfl

/-- After `unlock_vmm` the semaphore is as it was before `lock_vmm`. -/
theorem unlock_lock {v : ℕ} {u : ForkState κ} (hlock : t.lockVmm v = .ok u)
    (hfree : 0 < t.sched.sem.value (.inr v) →
      t.sched.sem.waitQueueFirst (.inr v) = none ∧ t.sched.sem.value (.inr v) < 2 ^ 31) :
    u.mm = t.mm ∧ u.space = t.space ∧
      ∀ k mm, ({ u with mm } : ForkState κ).unlockVmm k v = .ok { t with mm } := by
  obtain ⟨⟨sched, granted⟩, h1, h2⟩ := bind_eq_ok.1 hlock
  cases granted with
  | false => cases h2
  | true =>
    obtain rfl := Except.ok.inj h2
    obtain ⟨⟨sem, granted⟩, h3, h4⟩ := bind_eq_ok.1 h1
    obtain ⟨rfl, rfl⟩ := Prod.mk.inj (Except.ok.inj h4)
    rw [SemState.down] at h3
    split_ifs at h3 with hv
    · obtain ⟨hfirst, hlt⟩ := hfree hv
      obtain rfl := congrArg Prod.fst (Except.ok.inj h3)
      refine ⟨rfl, rfl, fun k mm => ?_⟩
      have hback : i32 (i32 (t.sched.sem.value (.inr v) - 1) + 1) = t.sched.sem.value (.inr v) := by
        rw [i32_of_lt (x := t.sched.sem.value (.inr v) - 1) (by omega) (by omega), sub_add_cancel,
          i32_of_lt (by omega) hlt]
      set sem : SemState (κ ⊕ ℕ) ℕ := { t.sched.sem with
        value := Function.update t.sched.sem.value (.inr v)
          (i32 (t.sched.sem.value (.inr v) - 1)) } with hsem
      have hup : sem.up (.inr v) = .ok (t.sched.sem, none) := by
        have hfirst' : sem.waitQueueFirst (.inr v) = none := hfirst
        rw [SemState.up, hfirst', hsem]
        simp only [Function.update_self, hback, Function.update_idem, Function.update_eq_self]
      rw [unlockVmm, Sched.up]
      simp only [hup, ok_bind]
      rfl
    · obtain ⟨s', -, h5⟩ := bind_eq_ok.1 h3
      exact absurd (congrArg Prod.snd (Except.ok.inj h5)) (by simp)

/-- **No page for the root table** : the structure `vm_manager` is freed again. -/
theorem AtGpt.atomic (h : s.ForkReady bpt R D F) (hs : s.AtGpt bpt cloneVm t proc oldVmm vmm)
    {mm : Mm} (hfail : t.mm.allocPage = .ok (mm, none)) : s.Atomic bpt k cloneVm := by
  obtain ⟨u, hu, -, hinit, hcopy⟩ := hs.copyVmm_eq
  obtain ⟨F₂, hb⟩ := hu.begun h
  obtain ⟨-, ha, hnil, hkept, hstack⟩ := hb.initVmm hinit
  have hfree := (hb.consistent.take ha).tables.free
  obtain rfl : mm = t.mm := (Mm.allocPage_sat hfree).of_ok hfail
  obtain ⟨m', h1, h2, h3⟩ := Mm.free_record hfree (show Mm.numPages VmManager.size = 1 by decide)
    (hb.consistent.tables.free.mem_pool ha.mem_free) (fun hm => hm.2 rfl)
  rw [Set.insert_sdiff_singleton, Set.insert_eq_of_mem ha.mem_free] at h2
  refine (hb.atomic_iff h hu ?_ (hkept.of_mm m') (congrFun hstack proc) h2 subset_rfl
    (.of_eq (h3.trans (ha.mem.trans hb.mem)))).2 rfl
  have hdel : delVmm t.mm vmm = .ok m' := by
    rw [delVmm, hnil]
    exact h1
  rw [hcopy, allocGpt, hfail]
  simp only [ok_bind, pure, Except.pure, hdel]
  rfl

/-- What is known when `copy_vmm`, which has been called in the state `u`, calls `dup_vmm` in the
state `t`. -/
structure Filling (s u t : ForkState κ) (R D F F₂ F₃ : Set ℕ) (fr tr bpt proc oldVmm : ℕ)
    (cloneVm : Bool) (vmm : VmManager) : Prop where
  begun : Begun s u R D F F₂ proc
  parent : s.vmm s.curr = some oldVmm
  space : t.space oldVmm = s.space oldVmm
  gpt : (s.space oldVmm).pGpt = some fr ∧ vmm.pGpt = some tr
  root : fr ∈ R ∧ tr ∈ F₂
  nil : vmm.vmaList = []
  consistent : t.mm.Consistent (insert tr R) userEntries D F₃
  free : F₃ ⊆ F₂
  mem : s.mm.WritesOnly t.mm F₂
  copying : Copying t.mm t.mm R D F₃ F₂ fr tr vmm ∅
  /-- An error in `dup_vmm` is one of `copy_vmm`. -/
  copyVmm_error : ∀ k e, dupVmm k t.mm (s.space oldVmm) vmm = .error e →
    u.copyVmm bpt k proc cloneVm = .error e
  /-- When `dup_vmm` fails the lock is given back, and the child is torn down. -/
  copyVmm_fails : ∀ k m vmm' m', dupVmm k t.mm (s.space oldVmm) vmm = .ok (m, vmm', -eNoMem) →
    teardown k m vmm' = .ok m' → ∃ t', u.copyVmm bpt k proc cloneVm = .ok (t', -eNoMem) ∧
      s.Kept t' F ∧ t'.kernelStack proc = u.kernelStack proc ∧ t'.mm = m'

theorem AtDup.filling (h : s.ForkReady bpt R D F)
    (hs : s.AtDup bpt cloneVm t proc oldVmm vmm) : ∃ u F₂ F₃ fr tr, s.AtVmm bpt u proc ∧
      Filling s u t R D F F₂ F₃ fr tr bpt proc oldVmm cloneVm vmm := by
  obtain ⟨s₃, vmm₀, mm, hgpt, halloc, hlock⟩ := hs
  obtain ⟨u, hu, hold, hinit, hcopy⟩ := hgpt.copyVmm_eq
  obtain ⟨F₂, hb⟩ := hu.begun h
  obtain ⟨hinit', -, -, hkept, hstack⟩ := hb.initVmm hinit
  have hcurr := hb.kept.curr
  rw [hcurr, hb.kept.vmm _ h.curr] at hold
  obtain ⟨hvF, ⟨fr, hfr, hpgpt⟩, -⟩ := h.parent oldVmm hold
  -- the lock can be given back
  obtain ⟨hvalue, hnext, -⟩ := hkept.sem (.inr oldVmm) (by rintro v ⟨⟩; exact hvF)
  obtain ⟨hmm, hspace, hunlock⟩ := unlock_lock hlock fun hv => by
    obtain ⟨h1, h2⟩ := h.lock oldVmm hold (hvalue ▸ hv)
    refine ⟨?_, hvalue.symm ▸ h2⟩
    rw [SemState.waitQueueFirst] at h1 ⊢
    simp only at hnext ⊢
    rwa [hnext]
  have hspaceV : t.space oldVmm = s.space oldVmm := by
    rw [hspace]
    exact hkept.space oldVmm hvF
  -- the child has an empty page table
  obtain ⟨tr, A, hbuilt, hnil, ⟨F₃, hF₃, hcons⟩, hempty, hw⟩ := built_init hb.consistent
    (fun i hi => by rw [hb.mem]; exact h.kernel i hi) hinit' halloc
  have htr : tr ∈ F₂ := (hbuilt.records tr List.mem_cons_self).1
  refine ⟨u, F₂, F₃, fr, tr, hu, hb, hold, hspaceV, ⟨hpgpt, hbuilt.gpt⟩, ⟨hfr, htr⟩, hnil, ?_, hF₃,
    ?_, ⟨⟨A, ?_⟩, ⟨D, F₃, ?_⟩, ?_⟩, ?_, ?_⟩
  · rw [hmm]
    exact hcons
  · rw [hmm]
    exact (Mm.WritesOnly.of_eq hb.mem).trans hw
  · rw [hmm]
    exact hbuilt
  · rw [hmm]
    exact Mm.copied_start hcons hempty
  · rw [hmm]
    exact fun _ i hi => Mm.child_of_invalid (hempty i hi)
  · intro k e hdup
    rw [hcopy, halloc, ok_bind]
    simp only [ne_eq, not_true_eq_false, if_false, fillVmm, hlock, ok_bind, hspaceV, hdup]
    rfl
  · intro k m vmm' m' hdup htear
    have hret : -eNoMem ≠ (0 : ℤ) := by decide
    refine ⟨{ s₃ with mm := m' }, ?_, hkept.of_mm m', congrFun hstack proc, rfl⟩
    rw [hcopy, halloc, ok_bind]
    simp only [ne_eq, not_true_eq_false, if_false, fillVmm, hlock, ok_bind, hspaceV, hdup, hunlock,
      hret, not_false_eq_true, if_true, htear]
    rfl

theorem AtVmm.not_atomic (hs : s.AtVmm bpt t proc) {e : Fault}
    (hcopy : t.copyVmm bpt k proc cloneVm = .error e) : ¬ s.Atomic bpt k cloneVm := by
  refine ForkState.not_atomic (e := e) ?_
  rw [hs.doFork_eq, hcopy]
  rfl

theorem Filling.ne (h : s.ForkReady bpt R D F) {u : ForkState κ} {F₂ F₃ : Set ℕ} {fr tr : ℕ}
    (hfill : Filling s u t R D F F₂ F₃ fr tr bpt proc oldVmm cloneVm vmm) : fr ≠ tr := by
  rintro rfl
  have hfr : fr ∉ F := (h.consistent.tables.table fr hfill.root.1 [] fr Mm.tablePath_nil rfl).1
  have hF₂ := hfill.root.2
  rw [hfill.begun.free] at hF₂
  exact hfr hF₂.1.1

/-- **What is known when `copy_range` has come to an address.** -/
theorem AtPage.known (h : s.ForkReady bpt R D F) (hk : userEnd / ptSize ≤ k) {m : Mm}
    {fr tr a : ℕ} {v : Vma} (hs : s.AtPage bpt cloneVm k m fr tr v a) :
    ∃ t u proc oldVmm vmm F₂ F₃ to_ rest done, s.AtVmm bpt u proc ∧
      Filling s u t R D F F₂ F₃ fr tr bpt proc oldVmm cloneVm vmm ∧
      DupAt.Known k (s.space oldVmm) vmm t.mm m R D F₃ F₂ fr tr v a to_ rest done := by
  obtain ⟨t, proc, oldVmm, vmm, to_, rest, hdup, hfr, htr, hat⟩ := hs
  obtain ⟨u, F₂, F₃, fr', tr', hu, hfill⟩ := hdup.filling h
  rw [hfill.space] at hfr hat
  obtain rfl := Option.some.inj (hfr.symm.trans hfill.gpt.1)
  obtain rfl := Option.some.inj (htr.symm.trans hfill.gpt.2)
  obtain ⟨-, -, hok⟩ := h.parent oldVmm hfill.parent
  obtain ⟨done, hknown⟩ := hat.known hfill.consistent hfill.root.1 (hfill.ne h) hk hfr hok
    hfill.nil hfill.copying
  exact ⟨t, u, proc, oldVmm, vmm, F₂, F₃, to_, rest, done, hu, hfill, hknown⟩

/-! ### The allocations one by one -/

/-- `malloc` passes the null pointer on to `page2va`, which stops there. -/
theorem malloc_null {m m' : Mm} {n : ℕ} (h : m.allocPages (Mm.numPages n) = .ok (m', none)) :
    ∃ e, m.malloc n = .error e := by
  by_cases hn : 0 < Mm.numPages n ∧ Mm.numPages n < numFreePages
  · exact ⟨_, by rw [Mm.malloc, assert_of hn, ok_bind, h]; rfl⟩
  · exact ⟨_, by rw [Mm.malloc, assert, if_neg hn]; rfl⟩

theorem not_atomic_pcb (hnum : ¬ maxProcess < s.table.numProc) {mm : Mm}
    (hfail : s.mm.allocPages (Mm.numPages pcbSize) = .ok (mm, none)) :
    ¬ s.Atomic bpt k cloneVm := by
  obtain ⟨e, he⟩ := malloc_null hfail
  refine not_atomic (e := e) ?_
  rw [doFork, if_neg hnum, allocProc, he]
  rfl

/-- **No pages for the kernel stack** : the structure of the new process is freed again. -/
theorem AtStack.atomic (h : s.ForkReady bpt R D F) (hs : s.AtStack bpt t proc) {mm : Mm}
    (hfail : t.mm.allocPages kernelStackPage = .ok (mm, none)) : s.Atomic bpt k cloneVm := by
  obtain ⟨hp, hkept, hc, hmem⟩ := hs.spec h
  obtain rfl : mm = t.mm := (Mm.allocPages_sat hc.tables.free (by decide)).of_ok hfail
  have hstack : t.allocKernelStack proc = .ok (t, -eNoMem) := by
    rw [allocKernelStack, hfail]
    rfl
  obtain ⟨m', h1, h2, h3⟩ := freeProc_eq hc.tables.free (h.consistent.tables.free.mem_pool hp)
    (fun hm => hm.2 rfl)
  rw [Set.insert_sdiff_singleton, Set.insert_eq_of_mem hp] at h2
  refine ⟨{ t with mm := m' }, -eNoMem, ?_, by decide,
    (hkept.of_mm m').unchanged h h2 (.of_eq (h3.trans hmem))⟩
  rw [hs.doFork_eq, hstack, ok_bind]
  simp only [if_true, h1, ok_bind]
  rfl

theorem AtVmm.not_atomic_vmManager (hs : s.AtVmm bpt t proc) (hold : t.vmm t.curr = some oldVmm)
    {mm : Mm} (hfail : t.mm.allocPages (Mm.numPages VmManager.size) = .ok (mm, none)) :
    ¬ s.Atomic bpt k false := by
  obtain ⟨e, he⟩ := malloc_null hfail
  refine hs.not_atomic (e := e) ?_
  simp only [copyVmm, hold, initVmm, GarretOS.initVmm, he]
  rfl

theorem Filling.not_atomic_vma {u : ForkState κ} {F₂ F₃ : Set ℕ} {fr tr : ℕ}
    (hfill : Filling s u t R D F F₂ F₃ fr tr bpt proc oldVmm cloneVm vmm)
    (hu : s.AtVmm bpt u proc) {m mm : Mm} {v : Vma} {rest : List Vma} {to_ : VmManager}
    (hat : DupReaches k (s.space oldVmm) t.mm (s.space oldVmm).vmaList.reverse vmm m (v :: rest)
      to_) (hfail : m.allocPages (Mm.numPages Vma.size) = .ok (mm, none)) :
    ¬ s.Atomic bpt k cloneVm := by
  obtain ⟨e, he⟩ := malloc_null hfail
  refine hu.not_atomic (hfill.copyVmm_error k e ?_)
  rw [dupVmm, hat.dupVmas_eq, dupVmas, initVma, he]
  rfl

section

variable {u : ForkState κ} {F₂ F₃ : Set ℕ} {fr tr a : ℕ} {m mm : Mm} {v : Vma}
  {rest done : List Vma} {to_ : VmManager}
  (h : s.ForkReady bpt R D F)
  (hfill : Filling s u t R D F F₂ F₃ fr tr bpt proc oldVmm cloneVm vmm)
  (hknown : DupAt.Known k (s.space oldVmm) vmm t.mm m R D F₃ F₂ fr tr v a to_ rest done)

include h hfill hknown

/-- The address is a user address, and the parent's entry for it is still there. -/
theorem Filling.user : a < userEnd ∧ m.entry fr a = t.mm.entry fr a := by
  obtain ⟨-, -, hok⟩ := h.parent oldVmm hfill.parent
  obtain ⟨-, -, hu⟩ := hok.area v (by simp [hknown.vmas])
  have hau : a < userEnd := lt_of_lt_of_le hknown.place.cursor.lt hu.2.2
  obtain ⟨D', F', hc⟩ := hknown.place.copying.copied
  exact ⟨hau, hc.parent_entry hfill.consistent (Or.inr hfill.root.1) (Or.inl rfl) (hfill.ne h) hau⟩

theorem Filling.not_atomic_page (hu : s.AtVmm bpt u proc) (he : m.entry fr a ≠ none) {m₁ : Mm}
    {q : PtePtr} (hok : m.getPte tr a true = .ok (m₁, some q))
    (hfail : m₁.allocPage = .ok (mm, none)) : ¬ s.Atomic bpt k cloneVm := by
  obtain ⟨hau, -⟩ := hfill.user h hknown
  obtain ⟨D', F', hc⟩ := hknown.place.copying.copied
  obtain ⟨e, hstep⟩ := copyStep_no_page hc.consistent.tables (Or.inr hfill.root.1) hau he hok hfail
  exact hu.not_atomic (hfill.copyVmm_error k e (hknown.dupVmm_error hstep))

/-- **No page for a table of the child** : what is left behind are the tables of leaf entries that
the child has got so far. -/
theorem Filling.atomic_iff (hu : s.AtVmm bpt u proc) (hk : userEnd / ptSize ≤ k)
    (he : m.entry fr a ≠ none) (hfail : m.getPte tr a true = .ok (mm, none)) :
    s.Atomic bpt k cloneVm ↔ s.Recovers (.pageTable v a) := by
  obtain ⟨hau, hentry⟩ := hfill.user h hknown
  have hF₂ : F₂ ⊆ F := by
    rw [hfill.begun.free]
    exact Set.sdiff_subset.trans Set.sdiff_subset
  obtain ⟨D', F', hc⟩ := hknown.place.copying.copied
  have hstep := copyStep_no_table hc.consistent.tables (Or.inr hfill.root.1) hau he hfail
  obtain ⟨m', F'', htear, hfree, hsub, hiff, hw⟩ := hknown.place.copying.teardown hfill.consistent
    (fun f hf => h.consistent.tables.free.mem_pool (hF₂ hf))
    (fun f hf hD => (h.consistent.tables.data f hD).2.2 (hF₂ hf)) hfill.free hk hau
    hknown.mem_vmaEntries hfail
  obtain ⟨t', hcopy, hkept, hstack, rfl⟩ :=
    hfill.copyVmm_fails k _ _ _ (hknown.dupVmm_fails hstep) htear
  rw [hfill.begun.atomic_iff h hu hcopy hkept hstack hfree hsub
    ((hfill.mem.trans hw).mono hF₂), hiff]
  -- the pages that have been copied are the pages of the parent before the address
  obtain ⟨-, -, hok⟩ := h.parent oldVmm hfill.parent
  have ha : a % pageSize = 0 := by
    refine hknown.place.cursor.table.resolve_right fun hnone => he ?_
    rw [hentry, Mm.entry, hnone]
    rfl
  have hnone : ∀ b < userEnd, t.mm.entry fr b = none ↔ s.mm.lookup fr b = .ok none := by
    intro b hb
    rw [Mm.lookup_eq_none_iff h.consistent.tables hfill.root.1 (getGptx_user hb),
      h.consistent.tables.entry_frame (fun f hf _ => hfill.mem.mono hF₂ f hf) hfill.root.1
        (getGptx_user hb)]
  constructor
  · intro hall w r hw hr b hb hbefore
    obtain rfl := Option.some.inj (hfill.parent.symm.trans hw)
    obtain rfl := Option.some.inj (hfill.gpt.1.symm.trans hr)
    exact (hnone b hb).1 (hall b hb ((hknown.mem_pages hok ha b).2 hbefore))
  · intro hall b hb hbS
    exact (hnone b hb).2 (hall oldVmm fr hfill.parent hfill.gpt.1 b hb
      ((hknown.mem_pages hok ha b).1 hbS))

end

/-- **When an allocation of `do_fork` fails** it returns an error and leaves the system unchanged
if it recovers from the failure, and only then. -/
theorem do_fork_atomic (h : s.ForkReady bpt R D F) (hk : userEnd / ptSize ≤ k) {pt : ForkPoint}
    (hf : s.FailsAt bpt cloneVm k pt) : s.Atomic bpt k cloneVm ↔ s.Recovers pt := by
  cases pt with
  | pcb =>
    obtain ⟨hnum, mm, hfail⟩ := hf
    exact iff_of_false (not_atomic_pcb hnum hfail) id
  | kernelStack =>
    obtain ⟨t, proc, mm, hs, hfail⟩ := hf
    exact iff_of_true (hs.atomic h hfail) trivial
  | vmManager =>
    obtain ⟨rfl, t, proc, oldVmm, mm, hs, hold, hfail⟩ := hf
    exact iff_of_false (hs.not_atomic_vmManager hold hfail) id
  | rootTable =>
    obtain ⟨t, proc, oldVmm, vmm, mm, hs, hfail⟩ := hf
    exact iff_of_true (hs.atomic h hfail) trivial
  | vma v =>
    obtain ⟨t, proc, oldVmm, vmm, m, rest, to_, mm, hs, hat, hfail⟩ := hf
    obtain ⟨u, F₂, F₃, fr, tr, hu, hfill⟩ := hs.filling h
    rw [hfill.space] at hat
    exact iff_of_false (hfill.not_atomic_vma hu hat hfail) id
  | pageTable v a =>
    obtain ⟨m, fr, tr, mm, hs, he, hfail⟩ := hf
    obtain ⟨t, u, proc, oldVmm, vmm, F₂, F₃, to_, rest, done, hu, hfill, hknown⟩ := hs.known h hk
    exact hfill.atomic_iff h hknown hu hk he hfail
  | page v a =>
    obtain ⟨m, fr, tr, m₁, q, mm, hs, he, hok, hfail⟩ := hf
    obtain ⟨t, u, proc, oldVmm, vmm, F₂, F₃, to_, rest, done, hu, hfill, hknown⟩ := hs.known h hk
    exact iff_of_false (hfill.not_atomic_page h hknown hu he hok hfail) id

/-- No page is free. -/
def noFree : BestFit := ⟨fun _ => ⟨0, 0, 0⟩, ⟨id, id⟩, 0⟩

/-- A kernel thread calls `do_fork`; `pmm` are the free pages. -/
def kernelThread (pmm : BestFit) : ForkState Unit where
  mm := ⟨pmm, fun _ _ => 0, false⟩
  sched :=
    { sem := ⟨fun _ => 1, ⟨fun a => a, fun a => a⟩, fun p => ⟨p, waitNone, .inl ()⟩,
        fun _ => .running, fun _ => none⟩
      queue := ⟨none, ⟨fun _ => none, fun _ => none, fun _ => none⟩, 0, fun _ => false, fun _ => 0,
        fun _ => 0, fun _ => 1, fun _ => false⟩
      curr := 1
      idle := 1 }
  table := ⟨⟨id, id⟩, fun _ => 1, fun _ => none, fun _ => none, fun _ => none, fun _ => none, 1, 1,
    2⟩
  kernelStack _ := 0
  vmm _ := none
  pGpt _ := none
  space _ := ⟨0, [], none, none, 0, 0⟩

theorem kernelThread_ready {pmm : BestFit} (h : FreeSet pmm F) (href : ∀ p, (pmm.page p).ref = 0) :
    (kernelThread pmm).ForkReady 0x80100 ∅ ∅ F := by
  have hmapped : ∀ p, (kernelThread pmm).mm.mappings ∅ userEntries p = ∅ := fun p =>
    Set.eq_empty_of_forall_notMem fun s ⟨⟨r, hr, _⟩, _⟩ => absurd hr (Set.notMem_empty r)
  refine ⟨⟨⟨h, ⟨fun _ _ => Mm.TablePath.prefix, fun r hr => absurd hr (Set.notMem_empty r)⟩,
    fun r hr => absurd hr (Set.notMem_empty r), fun p hp => absurd hp (Set.notMem_empty p),
    fun p s hs => ?_⟩, fun p hp => absurd hp (Set.notMem_empty p), fun p _ => href p⟩,
    fun i _ => ?_, fun hm => ?_, fun v hv => ?_, fun v hv => ?_⟩
  · rw [hmapped] at hs
    exact hs
  · simp [kernelThread, isValid]
  · have hcurr : (kernelThread pmm).curr = 1 := rfl
    rw [hcurr] at hm
    exact absurd (h.mem_pool hm).1 (by decide)
  · cases hv
  · cases hv

/-- With one free page there is none left for the kernel stack. -/
theorem do_fork_atomic_one_page :
    (kernelThread (FreeSet.oneBlock poolBegin 1)).Atomic 0x80100 (userEnd / ptSize) false := by
  have hfree := FreeSet.freeSet_oneBlock (p := poolBegin) one_pos le_rfl (by decide)
  have h := kernelThread_ready hfree fun p => by
    simp only [FreeSet.oneBlock]
    split_ifs <;> rfl
  have hfail : (kernelThread (FreeSet.oneBlock poolBegin 1)).FailsAt 0x80100 false
      (userEnd / ptSize) .kernelStack := ⟨_, poolBegin, _, ⟨by decide, _, rfl, rfl, rfl⟩, rfl⟩
  exact (do_fork_atomic h le_rfl hfail).2 trivial

/-- With no free page at all `do_fork` stops in `malloc`. -/
theorem do_fork_no_page : (kernelThread noFree).ForkReady 0x80100 ∅ ∅ ∅ ∧
    (kernelThread noFree).FailsAt 0x80100 false (userEnd / ptSize) .pcb ∧
    ¬ (kernelThread noFree).Atomic 0x80100 (userEnd / ptSize) false := by
  have hfree : FreeSet noFree ∅ := by
    refine ⟨[], ⟨⟨?_, by simp⟩, by simp [Extents.Sorted], by simp, by simp, by simp,
      fun _ _ _ _ => ⟨rfl, rfl⟩, rfl⟩, by simp⟩
    simp [Links.Linked, noFree]
  exact ⟨kernelThread_ready hfree fun _ => rfl, ⟨by decide, _, rfl⟩, not_atomic_pcb (by decide) rfl⟩

end ForkState

end GarretOS
