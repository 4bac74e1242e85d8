import GarretOS.Mm.Confined

/-!
# Many address spaces

All address spaces live in one memory with one allocator.  `spaces` is the system of all the
operations on them: they are created by `init_vmm` and `alloc_gpt`, filled by `vm_map`,
`alloc_page_gpte`, `dup_vmm` and page faults, written by the processes, and given up again.  Any
operation may fail half-way.  No page is swapped out, and `use_count` stays `0`: who shares an
address space is the subject of `VmTable`.

`SpacesOk` is the invariant.  An operation on one address space is seen from both sides:

* `Rest s i D₀ F₀` : what the address spaces other than `i` have; the frames `F₀` are not theirs;
* `SpacesOk.rest`, `Built.join` : the state is divided, and put together again;
* `Rest.frame` : an operation that writes only `F₀` changes nothing for the others.
-/

namespace GarretOS

open Radix Mm

/-- The memory, and the address spaces that exist. -/
structure Spaces (ι : Type) where
  mm : Mm
  vmm : ι → Option VmManager

namespace Spaces

variable {ι : Type} (s : Spaces ι)

/-- `vmm` is the address space `i`, and `r` its root table. -/
def Has (i : ι) (vmm : VmManager) (r : ℕ) : Prop := s.vmm i = some vmm ∧ vmm.pGpt = some r

/-- The root tables. -/
def roots : Set ℕ := {r | ∃ i vmm, s.Has i vmm r}

/-- The root tables of the others. -/
def rootsBut (i : ι) : Set ℕ := {r | ∃ j ≠ i, ∃ vmm, s.Has j vmm r}

/-- The leaf entry and the content of the page that the address space `i` has at the address. -/
def page (i : ι) (a : ℕ) : Option (ℕ × (ℕ → ℕ)) := do
  let vmm ← s.vmm i
  let r ← vmm.pGpt
  let pte ← s.mm.entry r a
  return (pte, s.mm.mem (pte2ppn pte))

/-- The address space `i` gets a new value, or ends. -/
def set [DecidableEq ι] (i : ι) (m : Mm) (vmm : Option VmManager) : Spaces ι :=
  ⟨m, Function.update s.vmm i vmm⟩

end Spaces

/-- The operations on address spaces; `ret` and `page` are what they return. -/
inductive SpaceOp (ι : Type) where
  /-- `init_vmm()` and `alloc_gpt(vmm)` -/
  | create (i : ι)
  /-- `init_vmm()`, then `alloc_gpt(vmm)` fails, and `del_vmm(vmm)` -/
  | createFails (i : ι)
  /-- `vm_map(vmm, addr, len, vm_flags, NULL)` -/
  | vmMap (i : ι) (addr len vmFlags : ℕ) (ret : ℤ)
  /-- `alloc_page_gpte(vmm->p_gpt, addr, flags)` -/
  | allocPageGpte (i : ι) (addr flags : ℕ) (page : Option ℕ)
  /-- `dup_vmm(from, vmm)` -/
  | dupVmm (i from_ : ι) (ret : ℤ)
  /-- `handle_page_fault(vmm, addr)` -/
  | pageFault (i : ι) (addr : ℕ) (ret : ℤ)
  /-- A word of a page is written, by the process or by the kernel for it. -/
  | write (i : ι) (addr k v : ℕ)
  /-- `del_vmas(vmm)`, `free_gpt(vmm)`, `del_vmm(vmm)` -/
  | release (i : ι)

/-- The address space that the operation works on. -/
def SpaceOp.space {ι : Type} : SpaceOp ι → ι
  | create i | createFails i | vmMap i .. | allocPageGpte i .. | dupVmm i .. | pageFault i ..
  | write i .. | release i => i

/-- The address spaces with names in `ι`; `bpt` is the frame of `g_bpt`, which is in the image of
the kernel and has no user entries. -/
def spaces (ι : Type) [DecidableEq ι] (bpt : ℕ) : System (Spaces ι) (SpaceOp ι) where
  init s := (∃ F, s.mm.Consistent ∅ userEntries ∅ F) ∧ (∀ i, s.vmm i = none) ∧ bpt < poolBegin ∧
    ∀ i ∈ userEntries, ¬ isValid (s.mm.mem bpt i)
  step s op s' := match op with
    | .create i => s.vmm i = none ∧ ∃ m vmm m' vmm', initVmm s.mm = .ok (m, vmm) ∧
        allocGpt bpt m vmm = .ok (m', vmm', 0) ∧ s' = s.set i m' (some vmm')
    | .createFails i => s.vmm i = none ∧ ∃ m vmm m₁ vmm₁ ret m', initVmm s.mm = .ok (m, vmm) ∧
        allocGpt bpt m vmm = .ok (m₁, vmm₁, ret) ∧ ret ≠ 0 ∧ delVmm m₁ vmm₁ = .ok m' ∧
        s' = s.set i m' none
    | .vmMap i addr len vmFlags ret => ∃ vmm m' vmm', s.vmm i = some vmm ∧
        vmMap s.mm vmm addr len vmFlags = .ok (m', vmm', ret) ∧ s' = s.set i m' (some vmm')
    | .allocPageGpte i addr flags page => UserAddr addr ∧ flags < 1024 ∧ ∃ vmm r m',
        s.vmm i = some vmm ∧ vmm.gpt = .ok r ∧
        s.mm.allocPageGpte r addr flags = .ok (m', page) ∧ s' = s.set i m' (some vmm)
    | .dupVmm i from_ ret => ∃ vmm vmmFrom k m' vmm', s.vmm i = some vmm ∧
        s.vmm from_ = some vmmFrom ∧ GarretOS.dupVmm k s.mm vmmFrom vmm = .ok (m', vmm', ret) ∧
        s' = s.set i m' (some vmm')
    | .pageFault i addr ret => ∃ vmm ide m' vmm', s.vmm i = some vmm ∧
        handlePageFault s.mm vmm addr ide = .ok (m', vmm', ret) ∧ s' = s.set i m' (some vmm')
    | .write i addr k v => addr < userEnd ∧ k < 512 ∧ ∃ vmm r pte, s.vmm i = some vmm ∧
        vmm.gpt = .ok r ∧ s.mm.entry r addr = some pte ∧
        s' = s.set i (s.mm.store (pte2ppn pte, k) v) (some vmm)
    | .release i => ∃ vmm k m', s.vmm i = some vmm ∧ userEnd / ptSize ≤ k ∧
        teardown k s.mm vmm = .ok m' ∧ s' = s.set i m' none

/-! ### The invariant -/

/-- An address space in a memory with the root tables `R`: its records are neither free nor in use
as tables or pages. -/
structure VmmOk (m : Mm) (R D F : Set ℕ) (vmm : VmManager) (r : ℕ) : Prop where
  gpt : vmm.pGpt = some r
  useCount : vmm.useCount = 0
  areas : AreasOk vmm
  nodup : (vmm.records r).Nodup
  records : ∀ f ∈ vmm.records r, (poolBegin ≤ f ∧ f < poolEnd) ∧ f ∉ F ∧ f ∉ D ∧
    ∀ r' ∈ R, f ∉ m.tablesOf r'

/-- Every frame has one owner, and every page is mapped once. -/
structure SpacesOk {ι : Type} (s : Spaces ι) (D F : Set ℕ) : Prop where
  consistent : s.mm.Consistent s.roots userEntries D F
  single : ∀ p ∈ D, s.mm.ref p = 1
  vmm : ∀ i vmm, s.vmm i = some vmm → ∃ r, VmmOk s.mm s.roots D F vmm r
  disjoint : ∀ i j vmm vmm' r r', i ≠ j → s.Has i vmm r → s.Has j vmm' r' →
    ∀ f ∈ vmm.records r, f ∉ vmm'.records r'

/-- What the address spaces other than `i` have; they use the pages `D₀` and none of the
frames `F₀`. -/
structure Rest {ι : Type} (s : Spaces ι) (i : ι) (D₀ F₀ : Set ℕ) : Prop where
  apart : s.mm.Apart (s.rootsBut i) D₀ F₀
  pool : ∀ f ∈ F₀, poolBegin ≤ f ∧ f < poolEnd
  vmm : ∀ j ≠ i, ∀ vmm, s.vmm j = some vmm → ∃ r, VmmOk s.mm (s.rootsBut i) D₀ F₀ vmm r
  disjoint : ∀ j j' vmm vmm' r r', j ≠ i → j' ≠ i → j ≠ j' → s.Has j vmm r → s.Has j' vmm' r' →
    ∀ f ∈ vmm.records r, f ∉ vmm'.records r'

variable {ι : Type} {s s' : Spaces ι} {i j : ι} {D F D₀ F₀ A : Set ℕ} {vmm vmm' : VmManager}
  {m m' : Mm} {r bpt : ℕ}

theorem VmManager.root_mem_records (vmm : VmManager) (r : ℕ) : r ∈ vmm.records r :=
  List.mem_cons_self

namespace Spaces

theorem Has.mem_roots (h : s.Has i vmm r) : r ∈ s.roots := ⟨i, vmm, h⟩

theorem rootsBut_subset (s : Spaces ι) (i : ι) : s.rootsBut i ⊆ s.roots := by
  rintro r ⟨j, -, vmm, h⟩
  exact ⟨j, vmm, h⟩

theorem Has.roots_eq (h : s.Has i vmm r) : s.roots = insert r (s.rootsBut i) := by
  ext f
  constructor
  · rintro ⟨j, vmm', h'⟩
    by_cases hj : j = i
    · subst hj
      obtain rfl := Option.some.inj (h.1.symm.trans h'.1)
      exact Or.inl (Option.some.inj (h'.2.symm.trans h.2))
    · exact Or.inr ⟨j, hj, vmm', h'⟩
  · rintro (rfl | hf)
    · exact h.mem_roots
    · exact s.rootsBut_subset i hf

theorem roots_of_none (h : s.vmm i = none) : s.roots = s.rootsBut i := by
  refine Set.Subset.antisymm ?_ (s.rootsBut_subset i)
  rintro r ⟨j, vmm, hj⟩
  refine ⟨j, ?_, vmm, hj⟩
  rintro rfl
  rw [hj.1] at h
  cases h

theorem page_eq_some {a pte : ℕ} {c : ℕ → ℕ} (h : s.page i a = some (pte, c)) :
    ∃ vmm r, s.Has i vmm r ∧ s.mm.entry r a = some pte := by
  obtain ⟨vmm, hv, h⟩ := Option.bind_eq_some_iff.1 h
  obtain ⟨r, hr, h⟩ := Option.bind_eq_some_iff.1 h
  obtain ⟨pte', he, h⟩ := Option.bind_eq_some_iff.1 h
  obtain ⟨rfl, -⟩ := Prod.mk.inj (Option.some.inj h)
  exact ⟨vmm, r, ⟨hv, hr⟩, he⟩

section Set

variable [DecidableEq ι] {x : Option VmManager}

@[simp] theorem set_mm (s : Spaces ι) : (s.set i m x).mm = m := rfl

theorem set_vmm_self (s : Spaces ι) : (s.set i m x).vmm i = x := Function.update_self ..

theorem set_vmm_of_ne (s : Spaces ι) (hj : j ≠ i) : (s.set i m x).vmm j = s.vmm j :=
  Function.update_of_ne hj ..

theorem set_has_of_ne (hj : j ≠ i) : (s.set i m x).Has j vmm r ↔ s.Has j vmm r := by
  rw [Has, Has, s.set_vmm_of_ne hj]

theorem set_rootsBut (s : Spaces ι) : (s.set i m x).rootsBut i = s.rootsBut i := by
  ext r
  refine exists_congr fun j => and_congr_right fun hj => exists_congr fun vmm => ?_
  exact set_has_of_ne hj

end Set

end Spaces

open Spaces

/-! ### Dividing the state -/

namespace SpacesOk

theorem has (h : SpacesOk s D F) (hv : s.vmm i = some vmm) :
    ∃ r, s.Has i vmm r ∧ VmmOk s.mm s.roots D F vmm r := by
  obtain ⟨r, hok⟩ := h.vmm i vmm hv
  exact ⟨r, ⟨hv, hok.gpt⟩, hok⟩

theorem vmmOk (h : SpacesOk s D F) (hi : s.Has i vmm r) : VmmOk s.mm s.roots D F vmm r := by
  obtain ⟨r', hhas, hok⟩ := h.has hi.1
  obtain rfl := Option.some.inj (hhas.2.symm.trans hi.2)
  exact hok

/-- Different address spaces have different root tables. -/
theorem root_notMem (h : SpacesOk s D F) (hi : s.Has i vmm r) : r ∉ s.rootsBut i := by
  rintro ⟨j, hj, vmm', h'⟩
  exact h.disjoint i j vmm vmm' r r hj.symm hi h' r (vmm.root_mem_records r)
    (vmm'.root_mem_records r)

/-- The state without an address space that does not exist. -/
theorem rest_of_none (h : SpacesOk s D F) (hi : s.vmm i = none) : Rest s i D F := by
  have hroots := roots_of_none hi
  have ht := h.consistent.tables
  refine ⟨⟨?_, ?_, ht.data, ?_, fun p hp => ?_⟩, fun f hf => ht.free.mem_pool hf,
    fun j _ vmm hv => ?_,
    fun j j' vmm vmm' r r' _ _ hne hj hj' => h.disjoint j j' _ _ _ _ hne hj hj'⟩
  · exact hroots ▸ ht.separated
  · exact hroots ▸ ht.table
  · exact hroots ▸ ht.mapped
  · rw [← hroots, ← h.consistent.refs p hp, h.single p hp]
  · exact hroots ▸ h.vmm j vmm hv

/-- The frames that an address space with the root table `r` can use: the free pages, its tables,
its pages, and those of its records. -/
def frames (s : Spaces ι) (D F : Set ℕ) (vmm : VmManager) (r : ℕ) : Set ℕ :=
  (F ∪ s.mm.tablesOf r ∪ D) \ s.mm.others D r ∪ {f | f ∈ vmm.records r}

/-- A frame of another address space is not one of them. -/
theorem notMem_frames {f : ℕ} (hF : f ∉ F) (htab : f ∉ s.mm.tablesOf r) (hD : f ∉ D)
    (hrec : f ∉ vmm.records r) : f ∉ frames s D F vmm r := by
  rintro (⟨(hm | hm) | hm, -⟩ | hm)
  · exact hF hm
  · exact htab hm
  · exact hD hm
  · exact hrec hm

theorem frames_pool (h : SpacesOk s D F) (hi : s.Has i vmm r) {f : ℕ}
    (hf : f ∈ frames s D F vmm r) : poolBegin ≤ f ∧ f < poolEnd := by
  have ht := h.consistent.tables
  rcases hf with ⟨(hm | ⟨p, hne, hp, hw⟩) | hm, -⟩ | hm
  · exact ht.free.mem_pool hm
  · obtain ⟨h1, h2⟩ := (ht.table r hi.mem_roots p f hp hw).2.2 hne
    rw [pageSize_eq, dramEndPa] at h2
    exact ⟨h1, by rw [poolEnd_eq]; omega⟩
  · obtain ⟨h1, h2, -⟩ := ht.data f hm
    exact ⟨h1, h2⟩
  · exact ((h.vmmOk hi).records f hm).1

/-- The tables of the others are not among the frames that one address space can use. -/
theorem table_notMem_frames (h : SpacesOk s D F) (hi : s.Has i vmm r) {r' f : ℕ} {p : List ℕ}
    (hr' : r' ∈ s.rootsBut i) (hp : TablePath userEntries p)
    (hw : walk s.mm.child r' p = some f) : f ∉ frames s D F vmm r := by
  have hroots := hi.roots_eq
  obtain ⟨h1, h2, -⟩ := h.consistent.tables.table r' (s.rootsBut_subset i hr') p f hp hw
  refine notMem_frames h1 ((hroots ▸ h.consistent).notMem_tablesOf (h.root_notMem hi) hr' hp hw)
    h2 fun hm => ?_
  by_cases hne : p = []
  · subst hne
    obtain rfl : r' = f := Option.some.inj hw
    obtain ⟨j, hj, vmm', hhas'⟩ := hr'
    exact h.disjoint i j _ _ _ _ hj.symm hi hhas' r' hm (vmm'.root_mem_records r')
  · exact ((h.vmmOk hi).records f hm).2.2.2 r' (s.rootsBut_subset i hr') ⟨p, hne, hp, hw⟩

/-- **The state without the address space `i`** -/
theorem rest (h : SpacesOk s D F) (hi : s.Has i vmm r) :
    Rest s i (s.mm.others D r) (frames s D F vmm r) := by
  have hroots := hi.roots_eq
  have hc : s.mm.Consistent (insert r (s.rootsBut i)) userEntries D F := hroots ▸ h.consistent
  have ht := h.consistent.tables
  have hnot := h.root_notMem hi
  have hok := h.vmmOk hi
  refine ⟨⟨?_, fun r' hr' p f hp hw => ?_, fun p hp => ?_, fun p t hs =>
    hc.mapped_others hnot h.single hs, fun p hp => hc.single_others h.single hp⟩,
    fun f hf => h.frames_pool hi hf, fun j hj vmm' hv' => ?_,
    fun j j' _ _ _ _ _ _ hne hj hj' => h.disjoint j j' _ _ _ _ hne hj hj'⟩
  · refine ⟨ht.separated.prefix_closed, fun r₂ hr₂ r₃ hr₃ => ?_⟩
    exact ht.separated.unique r₂ (s.rootsBut_subset i hr₂) r₃ (s.rootsBut_subset i hr₃)
  · obtain ⟨-, h2, h3⟩ := ht.table r' (s.rootsBut_subset i hr') p f hp hw
    exact ⟨h.table_notMem_frames hi hr' hp hw, fun hm => h2 hm.1, h3⟩
  · obtain ⟨h1, h2, -⟩ := ht.data p hp.1
    refine ⟨h1, h2, ?_⟩
    rintro (hm | hm)
    · exact hm.2 hp
    · exact (hok.records p hm).2.2.1 hp.1
  · obtain ⟨r', hhas', hok'⟩ := h.has hv'
    refine ⟨r', hok'.gpt, hok'.useCount, hok'.areas, hok'.nodup, fun f hf => ?_⟩
    obtain ⟨h1, h2, h3, h4⟩ := hok'.records f hf
    refine ⟨h1, notMem_frames h2 (h4 r hi.mem_roots) h3 fun hm => ?_, fun hm => h3 hm.1,
      fun r₂ hr₂ => h4 r₂ (s.rootsBut_subset i hr₂)⟩
    exact h.disjoint i j _ _ _ _ hj.symm hi hhas' f hm hf

/-- **The address space `i`**, which has been built from its frames. -/
theorem built (h : SpacesOk s D F) (hi : s.Has i vmm r) :
    Built (s.rootsBut i) (s.mm.others D r) (frames s D F vmm r) s.mm vmm r
      (F ∪ s.mm.tablesOf r ∪ D) := by
  have hroots := hi.roots_eq
  have hok := h.vmmOk hi
  have hsub : s.mm.others D r ⊆ F ∪ s.mm.tablesOf r ∪ D := fun p hp => Or.inr hp.1
  refine ⟨⟨D, F, hroots ▸ h.consistent, Or.inl rfl, rfl, fun p hp => hp.1, fun p hp => hp.2,
    fun p hp h0 _ => ⟨h.single p hp, ?_⟩, fun p hp => absurd hp (Set.notMem_empty p)⟩, hi.2,
    hok.useCount, hok.areas, hok.nodup, fun f hf => ⟨Or.inr hf, ?_⟩, ?_⟩
  · by_contra hm
    exact h0 ⟨hp, hm⟩
  · obtain ⟨-, h1, h2, h3⟩ := hok.records f hf
    rintro ((hm | hm) | hm)
    · exact h1 hm
    · exact h3 r hi.mem_roots hm
    · exact h2 hm
  · rw [frames, Set.union_right_comm (_ \ _), Set.sdiff_union_of_subset hsub]

end SpacesOk

end GarretOS
