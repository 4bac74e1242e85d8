import GarretOS.Mm.Teardown

/-!
# The life of an address space

Runs of the operations that fill a new address space, after `init_vmm` and `alloc_gpt` have
created it: `vm_map`, `alloc_page_gpte`, `copy_range` from another page table, and page faults.
Any of them may fail half-way; the run then goes on from where it stopped, or ends there.

* `Built` : the invariant; all frames that were free before `init_vmm` are accounted for;
* `teardown_restores` : when the teardown `del_vmas`, `free_gpt`, `del_vmm` gives all of them back.
-/

namespace GarretOS

open Radix

/-- An address space under construction. -/
structure Building where
  /-- The memory before `init_vmm`. -/
  before : Mm
  /-- The memory now. -/
  mm : Mm
  /-- The address space. -/
  vmm : VmManager

/-- The operations that fill an address space; `ret` and `page` are what they return. -/
inductive BuildOp where
  /-- `vm_map(vmm, addr, len, vm_flags, NULL)` -/
  | vmMap (addr len vmFlags : ℕ) (ret : ℤ)
  /-- `alloc_page_gpte(vmm->p_gpt, addr, flags)` -/
  | allocPageGpte (addr flags : ℕ) (page : Option ℕ)
  /-- `copy_range(from, vmm->p_gpt, start, end)` -/
  | copyRange (from_ start stop : ℕ) (ret : ℤ)
  /-- `handle_page_fault(vmm, addr)` -/
  | pageFault (addr : ℕ) (ret : ℤ)

/-- The construction of an address space next to those with the root tables `R`; `bpt` is the
frame of `g_bpt`, which has no user entries. -/
def building (bpt : ℕ) (R : Set ℕ) : System Building BuildOp where
  init s := (∃ D F, s.before.Consistent R userEntries D F) ∧
    (∀ i ∈ userEntries, ¬ isValid (s.before.mem bpt i)) ∧
    ∃ m vmm, initVmm s.before = .ok (m, vmm) ∧ allocGpt bpt m vmm = .ok (s.mm, s.vmm, 0)
  step s l s' := s'.before = s.before ∧ match l with
    | .vmMap addr len vmFlags ret =>
      vmMap s.mm s.vmm addr len vmFlags = .ok (s'.mm, s'.vmm, ret)
    | .allocPageGpte addr flags page => UserAddr addr ∧ flags < 1024 ∧ s'.vmm = s.vmm ∧
        ∃ r, s.vmm.gpt = .ok r ∧ s.mm.allocPageGpte r addr flags = .ok (s'.mm, page)
    | .copyRange from_ start stop ret => from_ ∈ R ∧ s'.vmm = s.vmm ∧
        ∃ r k, s.vmm.gpt = .ok r ∧ copyRange k s.mm from_ r start stop = .ok (s'.mm, ret)
    | .pageFault addr ret => ∃ ide, handlePageFault s.mm s.vmm addr ide = .ok (s'.mm, s'.vmm, ret)

/-- The frames of the records of an address space, and its root table. -/
def VmManager.records (vmm : VmManager) (r : ℕ) : List ℕ :=
  r :: vmm.frame :: vmm.vmaList.map Vma.frame

/-- The address space `vmm` with the root table `r` has been built from the free pages `F₀`. -/
structure Built (R D₀ F₀ : Set ℕ) (mm : Mm) (vmm : VmManager) (r : ℕ) (A : Set ℕ) : Prop where
  owned : ∃ D F, mm.Owned (insert r R) D₀ r A ∅ D F
  gpt : vmm.pGpt = some r
  useCount : vmm.useCount = 0
  areas : AreasOk vmm
  /-- No frame is used for two records. -/
  nodup : (vmm.records r).Nodup
  /-- The records are in pages that were free. -/
  records : ∀ f ∈ vmm.records r, f ∈ F₀ ∧ f ∉ A
  /-- Nothing is missing. -/
  total : A ∪ {f | f ∈ vmm.records r} = F₀ ∪ D₀

variable {m m' : Mm} {R D₀ F₀ A D F : Set ℕ} {r bpt : ℕ} {vmm vmm' : VmManager}

/-! ### Creating the address space -/

namespace Mm

/-- A new root table whose entries `U` are empty. -/
theorem Consistent.insertRoot {U : Set ℕ} (h : Consistent m R U D₀ F) {m₁ : Mm}
    (ha : Allocated m m₁ F r) (hmem : ∀ f, f ≠ r → m'.mem f = m₁.mem f) (hpmm : m'.pmm = m₁.pmm)
    (hempty : ∀ i ∈ U, ¬ isValid (m'.mem r i)) :
    Consistent m' (insert r R) U D₀ (F \ {r}) ∧
      (∀ p f, TablePath U p → walk m'.child r p = some f → p = [] ∧ f = r) ∧
      ∀ r' ∈ R, ∀ p, TablePath U p → walk m'.child r' p = walk m.child r' p := by
  have hfree := ha.mem_free
  have hD : r ∉ D₀ := fun hD => (h.tables.data r hD).2.2 hfree
  -- `r` was free, so no table that existed before leads to it
  have hused : ∀ r' ∈ R, ∀ p, TablePath U p → walk m.child r' p ≠ some r :=
    fun r' hr' p hp hw => (h.tables.table r' hr' p r hp hw).1 hfree
  have hmem' : ∀ f, f ≠ r → m'.mem f = m.mem f := fun f hf => by rw [hmem f hf, ha.mem]
  have hold : ∀ r' ∈ R, ∀ p, TablePath U p →
      walk m'.child r' p = walk m.child r' p := by
    intro r' hr' p hp
    refine walk_congr fun q i f hq hf => ?_
    obtain ⟨t, rfl⟩ := hq
    rw [List.append_assoc] at hp
    have hfr : f ≠ r := fun he => hused r' hr' q hp.prefix (he ▸ hf)
    simp only [child, hmem' f hfr]
  -- the new root has no valid entry below `U`, so no path leaves it
  have hnew : ∀ p f, TablePath U p → walk m'.child r p = some f → p = [] ∧ f = r := by
    intro p f hp hw
    cases p with
    | nil => exact ⟨rfl, (Option.some.inj hw).symm⟩
    | cons i p =>
      rw [walk, child_of_invalid (hempty i (hp.2.2 i rfl))] at hw
      cases hw
  have hleaf : ∀ f, m'.IsLeaf (insert r R) U f ↔ m.IsLeaf R U f := by
    intro f
    constructor
    · rintro ⟨r', rfl | hr', i, j, hp, hw⟩
      · exact absurd (hnew _ f hp hw).1 (by simp)
      · exact ⟨r', hr', i, j, hp, (hold r' hr' _ hp).symm.trans hw⟩
    · rintro ⟨r', hr', i, j, hp, hw⟩
      exact ⟨r', Or.inr hr', i, j, hp, (hold r' hr' _ hp).trans hw⟩
  have hmap : ∀ p, m'.mappings (insert r R) U p = m.mappings R U p := by
    intro p
    ext ⟨f, k⟩
    simp only [mappings, Set.mem_ofPred_eq, hleaf]
    refine and_congr_right fun hl => ?_
    obtain ⟨r', hr', i, j, hp, hw⟩ := hl
    have hfr : f ≠ r := fun he => hused r' hr' _ hp (he ▸ hw)
    simp only [child, hmem' f hfr]
  have href : ∀ p, m'.ref p = m.ref p := by
    intro p
    rw [← ha.ref]
    simp only [ref, hpmm]
  refine ⟨⟨⟨hpmm ▸ ha.free, ?_, ?_, fun p hp => ?_, fun p s hs => ?_⟩, fun p hp => ?_,
    fun p hp => ?_⟩, hnew, hold⟩
  · refine ⟨fun p q hp => hp.prefix, ?_⟩
    rintro r₁ (rfl | h₁) r₂ (rfl | h₂) p q f hp hq hw₁ hw₂
    · obtain ⟨rfl, -⟩ := hnew p f hp hw₁
      obtain ⟨rfl, -⟩ := hnew q f hq hw₂
      exact ⟨rfl, rfl⟩
    · obtain ⟨-, rfl⟩ := hnew p f hp hw₁
      exact absurd ((hold r₂ h₂ q hq).symm.trans hw₂) (hused r₂ h₂ q hq)
    · obtain ⟨-, rfl⟩ := hnew q f hq hw₂
      exact absurd ((hold r₁ h₁ p hp).symm.trans hw₁) (hused r₁ h₁ p hp)
    · exact h.tables.separated.unique r₁ h₁ r₂ h₂ p q f hp hq ((hold r₁ h₁ p hp).symm.trans hw₁)
        ((hold r₂ h₂ q hq).symm.trans hw₂)
  · rintro r' (rfl | hr') p f hp hw
    · obtain ⟨rfl, rfl⟩ := hnew p f hp hw
      exact ⟨fun hm => hm.2 rfl, hD, fun hne => absurd rfl hne⟩
    · obtain ⟨h1, h2, h3⟩ := h.tables.table r' hr' p f hp ((hold r' hr' p hp).symm.trans hw)
      exact ⟨fun hm => h1 hm.1, h2, h3⟩
  · obtain ⟨h1, h2, h3⟩ := h.tables.data p hp
    exact ⟨h1, h2, fun hm => h3 hm.1⟩
  · exact h.tables.mapped p s (hmap p ▸ hs)
  · rw [hmap, href, h.refs p hp]
  · rw [href, h.unused p hp.1]

/-- A new root table without user entries. -/
theorem Consistent.newRoot (h : Consistent m R userEntries D₀ F) {m₁ : Mm}
    (ha : Allocated m m₁ F r) (hmem : ∀ f, f ≠ r → m'.mem f = m₁.mem f) (hpmm : m'.pmm = m₁.pmm)
    (hempty : ∀ i ∈ userEntries, ¬ isValid (m'.mem r i)) :
    Owned m' (insert r R) D₀ r (F \ {r} ∪ D₀) ∅ D₀ (F \ {r}) := by
  obtain ⟨hc, hnew, -⟩ := h.insertRoot ha hmem hpmm hempty
  have hmaps : ∀ p, ¬ m'.Maps r p := by
    rintro p ⟨a, hau, pte, he, -⟩
    have hw : walk m'.child r [getGptx a, getMptx a] = none := by
      rw [walk, child_of_invalid (hempty _ (getGptx_user hau))]
      rfl
    simp [entry, slot, hw] at he
  have htables : m'.tablesOf r = ∅ := Set.eq_empty_of_forall_notMem fun f hf => by
    obtain ⟨p, hne, hp, hw⟩ := hf
    exact hne (hnew p f hp hw).1
  refine ⟨hc, Or.inl rfl, ?_, subset_rfl, fun p _ => hmaps p, fun p hp h0 => absurd hp h0,
    fun p hp => absurd hp (Set.notMem_empty p)⟩
  rw [htables, Set.union_empty]

end Mm

theorem malloc_record {F : Set ℕ} (h : m.Consistent R userEntries D F) :
    Sat (initVmm m) fun res => m.Allocated res.1 F res.2.frame ∧ res.2.vmaList = [] ∧
      res.2.vmaCurr = none ∧ res.2.useCount = 0 := by
  refine (Mm.malloc_sat h.tables.free (show Mm.numPages VmManager.size = 1 by decide)).bind ?_
  rintro ⟨m', frame⟩ ⟨ha, -⟩
  exact ⟨ha, rfl, rfl, rfl⟩

/-- **`init_vmm` and `alloc_gpt`** create an empty address space. -/
theorem built_init (h : m.Consistent R userEntries D₀ F₀)
    (hbpt : ∀ i ∈ userEntries, ¬ isValid (m.mem bpt i)) {m₁ : Mm} {vmm₁ : VmManager}
    (h1 : initVmm m = .ok (m₁, vmm₁)) (h2 : allocGpt bpt m₁ vmm₁ = .ok (m', vmm, 0)) :
    ∃ r A, Built R D₀ F₀ m' vmm r A ∧ vmm.vmaList = [] ∧
      (∃ F ⊆ F₀, m'.Consistent (insert r R) userEntries D₀ F) ∧
      (∀ i ∈ userEntries, ¬ isValid (m'.mem r i)) ∧ Mm.WritesOnly m m' F₀ := by
  obtain ⟨ha, hvmas, hcurr, huse⟩ := (malloc_record h).of_ok h1
  have h₁ := h.take ha
  simp only at ha h₁ hvmas hcurr huse
  obtain ⟨⟨m₂, o⟩, h3, h4⟩ := bind_eq_ok.1 h2
  have ha₂ := (Mm.allocPage_sat h₁.tables.free).of_ok h3
  cases o with
  | none =>
    simp only [pure, Except.pure, Except.ok.injEq, Prod.mk.injEq] at h4
    exact absurd h4.2.2 (by decide)
  | some r =>
    have ha₂ : Mm.Allocated m₁ m₂ (F₀ \ {vmm₁.frame}) r := ha₂
    obtain ⟨va, h5, h6⟩ := bind_eq_ok.1 h4
    obtain ⟨rfl, -⟩ := (page2va_sat r).of_ok h5
    simp only [pure, Except.pure, Except.ok.injEq, Prod.mk.injEq, and_true] at h6
    obtain ⟨rfl, rfl⟩ := h6
    have hmem : ∀ f, f ≠ va → (m₂.memcpyPage va bpt).mem f = m₂.mem f := by
      intro f hf
      simp only [Mm.memcpyPage, Function.update_of_ne hf]
    have hempty : ∀ i ∈ userEntries, ¬ isValid ((m₂.memcpyPage va bpt).mem va i) := by
      intro i hi
      simp only [Mm.memcpyPage, Function.update_self, ha₂.mem, ha.mem]
      exact hbpt i hi
    have hne : va ≠ vmm₁.frame := ha₂.mem_free.2
    have hr : va ∈ F₀ := ha₂.mem_free.1
    have hdata : ∀ f ∈ F₀, f ∉ D₀ := fun f hf hD => (h.tables.data f hD).2.2 hf
    have howned := h₁.newRoot ha₂ hmem rfl hempty
    refine ⟨va, _, ⟨⟨_, _, howned⟩, rfl, huse, ⟨?_, ?_⟩, ?_, ?_, ?_⟩, hvmas,
      ⟨_, fun f hf => hf.1.1, howned.consistent⟩, hempty, fun f hf => ?_⟩
    · simp [hvmas]
    · simp [hcurr]
    · simp [VmManager.records, hvmas, hne]
    · simp only [VmManager.records, hvmas, List.map_nil, List.mem_cons, List.not_mem_nil, or_false]
      rintro f (rfl | rfl)
      · exact ⟨hr, fun hA => hA.elim (fun hm => hm.2 rfl) (hdata _ hr)⟩
      · exact ⟨ha.mem_free, fun hA => hA.elim (fun hm => hm.1.2 rfl) (hdata _ ha.mem_free)⟩
    · ext f
      simp only [VmManager.records, hvmas, List.map_nil, List.mem_cons, List.not_mem_nil, or_false,
        Set.mem_union, Set.mem_sdiff, Set.mem_singleton_iff, Set.mem_ofPred_eq]
      have := ha.mem_free
      by_cases h1 : f = va
      · simp [h1, hr]
      · by_cases h2 : f = vmm₁.frame
        · simp [h2, this]
        · simp [h1, h2]
    · rw [hmem f fun he => hf (he ▸ hr), ha₂.mem, ha.mem]

/-! ### Filling the address space -/

namespace Built

/-- The current area does not matter. -/
theorem curr (h : Built R D₀ F₀ m vmm r A) {c : Option Vma} (hc : vmm' = { vmm with vmaCurr := c })
    (hareas : AreasOk vmm') : Built R D₀ F₀ m vmm' r A := by
  subst hc
  exact ⟨h.owned, h.gpt, h.useCount, hareas, h.nodup, h.records, h.total⟩

/-- Operations that keep the account of the frames. -/
theorem fill (h : Built R D₀ F₀ m vmm r A) (howned : ∃ D F, m'.Owned (insert r R) D₀ r A ∅ D F) :
    Built R D₀ F₀ m' vmm r A :=
  ⟨howned, h.gpt, h.useCount, h.areas, h.nodup, h.records, h.total⟩

/-- A new area. -/
theorem newVma (h : Built R D₀ F₀ m vmm r A) {vma : Vma}
    (hvma : vma.vmStart % pageSize = 0 ∧ vma.vmEnd % pageSize = 0 ∧
      userAccess vma.vmStart vma.vmEnd)
    (howned : ∃ D F, m'.Owned (insert r R) D₀ r (A \ {vma.frame}) ∅ D F) (hA : vma.frame ∈ A)
    (hD₀ : vma.frame ∉ D₀) {before after : List Vma} {c : ℕ}
    (hlist : vmm.vmaList = before ++ after)
    (hvmm : vmm' = { vmm with vmaList := before ++ vma :: after, vmaCount := c }) :
    Built R D₀ F₀ m' vmm' r (A \ {vma.frame}) := by
  have hperm : (vmm'.records r).Perm (vma.frame :: vmm.records r) := by
    rw [hvmm]
    simp only [VmManager.records, hlist, List.map_append, List.map_cons]
    exact ((List.perm_middle.cons _).trans (List.Perm.swap ..)).cons _ |>.trans (List.Perm.swap ..)
  have hmem : ∀ f, f ∈ vmm'.records r ↔ f = vma.frame ∨ f ∈ vmm.records r := by
    intro f
    rw [hperm.mem_iff, List.mem_cons]
  have hF₀ : vma.frame ∈ F₀ := by
    have : vma.frame ∈ F₀ ∪ D₀ := h.total ▸ Or.inl hA
    exact this.resolve_right hD₀
  have hareas : AreasOk vmm' := by
    subst hvmm
    refine ⟨fun v hv => ?_, fun v hv => ?_⟩
    · have hv : v = vma ∨ v ∈ vmm.vmaList := by
        rw [hlist]
        simpa [or_left_comm] using hv
      rcases hv with rfl | hv
      · exact hvma
      · exact h.areas.area v hv
    · have := h.areas.curr v hv
      rw [hlist, List.mem_append] at this
      simp only [List.mem_append, List.mem_cons]
      tauto
  refine ⟨howned, ?_, ?_, hareas, ?_, fun f hf => ?_, ?_⟩
  · rw [hvmm]
    exact h.gpt
  · rw [hvmm]
    exact h.useCount
  · exact hperm.nodup_iff.2 (List.nodup_cons.2 ⟨fun hm => (h.records _ hm).2 hA, h.nodup⟩)
  · rcases (hmem f).1 hf with rfl | hf
    · exact ⟨hF₀, fun hm => hm.2 rfl⟩
    · exact ⟨(h.records f hf).1, fun hm => (h.records f hf).2 hm.1⟩
  · rw [← h.total]
    ext f
    simp only [Set.mem_union, Set.mem_sdiff, Set.mem_singleton_iff, Set.mem_ofPred_eq, hmem]
    by_cases hf : f = vma.frame
    · simp [hf, hA]
    · simp [hf]

end Built

/-- **`init_vma` and `add_vma`** add an area to the address space. -/
theorem built_addVma (h : Built R D₀ F₀ m vmm r A) {start stop flags : ℕ}
    (harea : start % pageSize = 0 ∧ stop % pageSize = 0 ∧ userAccess start stop) {vma : Vma}
    (h1 : initVma m start stop flags = .ok (m', vma)) (h2 : addVma vmm vma = .ok vmm') :
    Built R D₀ F₀ m' vmm' r (A \ {vma.frame}) := by
  obtain ⟨D, F, ho⟩ := h.owned
  obtain ⟨ha, htriple⟩ := (initVma_sat ho.consistent.tables.free _ _ _).of_ok h1
  simp only [Vma.triple, Prod.mk.injEq] at ha htriple
  obtain ⟨ht1, ht2, -⟩ := htriple
  obtain ⟨before, after, c, hlist, hvmm⟩ := (addVma_sat vmm vma).of_ok h2
  obtain ⟨ho', hA⟩ := ho.take ha
  have hD₀ : vma.frame ∉ D₀ := fun hD =>
    (ho.consistent.tables.data _ (ho.base hD)).2.2 ha.mem_free
  exact h.newVma (by rwa [ht1, ht2]) ⟨D, _, ho'⟩ hA hD₀ hlist hvmm

/-- **`vm_map`** -/
theorem built_vmMap (h : Built R D₀ F₀ m vmm r A) {addr len vmFlags : ℕ} {ret : ℤ}
    (heq : vmMap m vmm addr len vmFlags = .ok (m', vmm', ret)) : ∃ A, Built R D₀ F₀ m' vmm' r A := by
  obtain ⟨⟨c, hc⟩, hareas, -⟩ := findVma_spec h.areas (rounddown addr pageSize)
  simp only [vmMap] at heq
  cases hv : findVma vmm (rounddown addr pageSize) with
  | mk vmm₁ o =>
    rw [hv] at hc hareas heq
    have h₁ := h.curr hc hareas
    simp only at heq
    split_ifs at heq with hua hov
    · obtain ⟨rfl, rfl, -⟩ := by simpa only [pure, Except.pure, Except.ok.injEq, Prod.mk.injEq]
        using heq
      exact ⟨A, h₁⟩
    · obtain ⟨⟨m₂, vma⟩, h1, heq⟩ := bind_eq_ok.1 heq
      obtain ⟨vmm₂, h2, heq⟩ := bind_eq_ok.1 heq
      obtain ⟨rfl, rfl, -⟩ := by simpa only [pure, Except.pure, Except.ok.injEq, Prod.mk.injEq]
        using heq
      refine ⟨_, built_addVma h₁ ⟨?_, ?_, hua⟩ h1 h2⟩
      · rw [rounddown]
        exact Nat.mul_mod_left _ _
      · rw [roundup]
        exact Nat.mul_mod_left _ _
    · obtain ⟨rfl, rfl, -⟩ := by simpa only [pure, Except.pure, Except.ok.injEq, Prod.mk.injEq]
        using heq
      exact ⟨A, h⟩

/-- **Every operation** keeps the account of the frames. -/
theorem built_step {s s' : Building} {l : BuildOp} (h : Built R D₀ F₀ s.mm s.vmm r A)
    (hl : (building bpt R).step s l s') : ∃ A, Built R D₀ F₀ s'.mm s'.vmm r A := by
  have hgpt : s.vmm.gpt = .ok r := by rw [VmManager.gpt, h.gpt]
  obtain ⟨D, F, ho⟩ := h.owned
  obtain ⟨-, hl⟩ := hl
  cases l with
  | vmMap addr len vmFlags ret => exact built_vmMap h hl
  | allocPageGpte addr flags page =>
    obtain ⟨ha, hf, hvmm, r', hr', hres⟩ := hl
    obtain rfl := Except.ok.inj (hgpt.symm.trans hr')
    rw [hvmm]
    exact ⟨A, h.fill ((Mm.owned_allocPageGpte ho ha.2 hf).of_ok hres)⟩
  | copyRange from_ start stop ret =>
    obtain ⟨hfr, hvmm, r', k, hr', hres⟩ := hl
    obtain rfl := Except.ok.inj (hgpt.symm.trans hr')
    obtain ⟨_, hcheck, hres⟩ := bind_eq_ok.1 hres
    obtain ⟨_, -, hcheck⟩ := bind_eq_ok.1 hcheck
    obtain ⟨-, hlt, hstop⟩ := assert_eq_ok.1 hcheck
    rw [hvmm]
    exact ⟨A, h.fill (Mm.owned_copyLoop (Or.inr hfr) hstop k ho (lt_of_lt_of_le hlt hstop) hres)⟩
  | pageFault addr ret =>
    obtain ⟨ide, hres⟩ := hl
    obtain ⟨⟨c, hc⟩, hareas, howned⟩ :=
      (owned_handlePageFault ho h.areas h.gpt addr ide).of_ok hres
    exact ⟨A, (h.fill howned).curr hc hareas⟩

/-- The account of the frames in every reachable state. -/
theorem building_built {s : Building} (h : (building bpt R).Reachable s) :
    ∃ D₀ F₀ r A, s.before.Consistent R userEntries D₀ F₀ ∧ Built R D₀ F₀ s.mm s.vmm r A := by
  refine h.invariant (I := fun s => ∃ D₀ F₀ r A, s.before.Consistent R userEntries D₀ F₀ ∧
    Built R D₀ F₀ s.mm s.vmm r A) (fun s hs => ?_) ?_
  · obtain ⟨⟨D₀, F₀, hc⟩, hbpt, m, vmm, h1, h2⟩ := hs
    obtain ⟨r, A, hb, -⟩ := built_init hc hbpt h1 h2
    exact ⟨D₀, F₀, r, A, hc, hb⟩
  · rintro s l s' ⟨D₀, F₀, r, A, hc, hb⟩ hl
    obtain ⟨A', hb'⟩ := built_step hb hl
    exact ⟨D₀, F₀, r, A', hl.1.symm ▸ hc, hb'⟩

/-! ### The teardown -/

namespace Mm

/-- What is leaked belongs to the address space. -/
theorem Owned.leaked_subset (h : Owned m R D₀ r A ∅ D F) (vmas : List Vma) :
    m.leaked r vmas ⊆ A \ D₀ := by
  have htable : ∀ p, p ≠ [] → TablePath userEntries p → ∀ f, walk m.child r p = some f →
      f ∈ A \ D₀ := by
    intro p hne hp f hw
    refine ⟨h.total ▸ Or.inl (Or.inr ⟨p, hne, hp, hw⟩), fun h0 => ?_⟩
    exact (h.consistent.tables.table r h.root p f hp hw).2.1 (h.base h0)
  rintro f (⟨i, j, hp, hw⟩ | ⟨i, hi, -, hw⟩ | ⟨a, ha, -, pte, he, rfl⟩)
  · exact htable _ (by simp) hp f hw
  · exact htable [i] (by simp) (tablePath_one hi) f ((walk_one m r i).trans hw)
  · have hD := entry_mem h.consistent.tables h.root (getGptx_user ha) he
    exact ⟨h.total ▸ Or.inr hD, fun h0 => h.others _ h0 ⟨a, ha, pte, he, rfl⟩⟩

/-- Nothing is leaked when there is no table of leaf entries, and no table where there is no
area. -/
theorem leaked_eq_empty (m : Mm) (r : ℕ) (vmas : List Vma) : m.leaked r vmas = ∅ ↔
    (∀ a < userEnd, m.slot r a = none) ∧
      ∀ i ∈ userEntries, m.child r i ≠ none → i ∈ vmaEntries vmas := by
  constructor
  · intro h
    have hnot : ∀ f, f ∉ m.leaked r vmas := by
      intro f hf
      rw [h] at hf
      exact hf
    refine ⟨fun a ha => ?_, fun i hi hne => ?_⟩
    · cases hw : walk m.child r [getGptx a, getMptx a] with
      | none => rw [slot, hw, Option.map_none]
      | some f =>
        exact absurd (Or.inl ⟨_, _, tablePath_addr (getGptx_user ha), hw⟩) (hnot f)
    · by_contra hC
      obtain ⟨f, hf⟩ := Option.ne_none_iff_exists'.1 hne
      exact hnot f (Or.inr (Or.inl ⟨i, hi, hC, hf⟩))
  · rintro ⟨hslot, hcover⟩
    refine Set.eq_empty_of_forall_notMem ?_
    rintro f (⟨i, j, hp, hw⟩ | ⟨i, hi, hC, hf⟩ | ⟨a, ha, -, pte, he, -⟩)
    · have hi : i < 2 := hp.2.2 i rfl
      have hj : j < 512 := hp.2.1 j (by simp)
      have h1 : getGptx (i * 1073741824 + j * 2097152) = i := by
        rw [getGptx_eq]
        omega
      have h2 : getMptx (i * 1073741824 + j * 2097152) = j := by
        rw [getMptx_eq]
        omega
      have := hslot (i * 1073741824 + j * 2097152) (by rw [userEnd]; omega)
      rw [slot, h1, h2, hw] at this
      cases this
    · exact hC (hcover i hi (by simp [hf]))
    · rw [entry, hslot a ha] at he
      cases he

end Mm

/-- **The teardown** of an address space succeeds, writes no page that was in use before the address
space was built, and gives back the pages that it was built from, but for those that are leaked. -/
theorem Built.teardown (h : Built R D₀ F₀ m vmm r A) (hF₀ : ∀ f ∈ F₀, poolBegin ≤ f ∧ f < poolEnd)
    (hD₀ : ∀ f ∈ F₀, f ∉ D₀) {k : ℕ} (hk : userEnd / ptSize ≤ k) :
    ∃ m', GarretOS.teardown k m vmm = .ok m' ∧
      FreeSet m'.pmm (F₀ \ m.leaked r vmm.vmaList) ∧ m.leaked r vmm.vmaList ⊆ F₀ ∧
      Mm.WritesOnly m m' F₀ := by
  obtain ⟨D, F, ho⟩ := h.owned
  obtain ⟨m', h1, h2, h3⟩ := teardown_freePages ho h.areas h.gpt h.useCount h.nodup
    (fun f hf => ⟨hF₀ f (h.records f hf).1, (h.records f hf).2⟩) hk
  have hsub := ho.leaked_subset vmm.vmaList
  have hA : ∀ f, f ∈ A → f ∉ D₀ → f ∈ F₀ := fun f hf h0 =>
    (h.total.subset (Or.inl hf)).resolve_right h0
  have hleaked : m.leaked r vmm.vmaList ⊆ F₀ := fun f hf => hA f (hsub hf).1 (hsub hf).2
  refine ⟨m', h1, ?_, hleaked, h3.mono ?_⟩
  · convert h2 using 1
    ext f
    simp only [Set.mem_sdiff, Set.mem_union, Set.mem_ofPred_eq]
    constructor
    · rintro ⟨hf, hl⟩
      rcases h.total.superset (Or.inl hf) with hm | hm
      · exact Or.inl ⟨⟨hm, hD₀ f hf⟩, hl⟩
      · exact Or.inr hm
    · rintro (⟨⟨hm, h0⟩, hl⟩ | hm)
      · exact ⟨hA f hm h0, hl⟩
      · exact ⟨(h.records f hm).1, fun hl => (h.records f hm).2 (hsub hl).1⟩
  · rintro f (rfl | ⟨p, hne, hp, hw⟩)
    · exact (h.records f List.mem_cons_self).1
    · refine hA f (ho.total ▸ Or.inl (Or.inr ⟨p, hne, hp, hw⟩)) fun h0 => ?_
      exact (ho.consistent.tables.table r ho.root p f hp hw).2.1 (ho.base h0)

/-- **When the teardown restores the free pages.**  It always succeeds; and the free pages are the
ones before `init_vmm` just when the address space has no table of leaf entries, and no table
below the root for addresses without an area. -/
theorem teardown_restores {s : Building} (h : (building bpt R).Reachable s) {k : ℕ}
    (hk : userEnd / ptSize ≤ k) : ∃ r m', s.vmm.gpt = .ok r ∧ teardown k s.mm s.vmm = .ok m' ∧
      (m'.pmm.freePages = s.before.pmm.freePages ↔
        (∀ a < userEnd, s.mm.slot r a = none) ∧
          ∀ i ∈ userEntries, s.mm.child r i ≠ none → i ∈ vmaEntries s.vmm.vmaList) := by
  obtain ⟨D₀, F₀, r, A, hc, hb⟩ := building_built h
  obtain ⟨m', h1, h2, hsub, -⟩ := hb.teardown (fun f hf => hc.tables.free.mem_pool hf)
    (fun f hf h0 => (hc.tables.data f h0).2.2 hf) hk
  refine ⟨r, m', by rw [VmManager.gpt, hb.gpt], h1, ?_⟩
  rw [h2.freePages_eq, hc.tables.free.freePages_eq, ← Mm.leaked_eq_empty, sdiff_eq_left,
    Set.disjoint_left]
  exact ⟨fun h => Set.eq_empty_of_forall_notMem fun f hf => h (hsub hf) hf,
    fun h f _ hf => by rw [h] at hf; exact hf⟩

/-- An address space with one area of one page. -/
theorem building_area : ∃ m vmm, (building 0x80100 ∅).Reachable ⟨emptyTables.mm, m, vmm⟩ ∧
    vmm.gpt = .ok 0x82001 ∧ (∀ i ∈ userEntries, m.child 0x82001 i = none) ∧
    ∃ m₁, m.allocPageGpte 0x82001 userBegin pteR = .ok (m₁, some 0x82003) ∧
      walk m₁.child 0x82001 [0, 1] = some 0x82005 := by
  obtain ⟨m₁, vmm₁, m₂, vmm₂, m₃, vmm₃, m₄, h1, h2, h3, hgpt, hchild, h4, hw⟩ :
      ∃ m₁ vmm₁ m₂ vmm₂ m₃ vmm₃ m₄, initVmm emptyTables.mm = .ok (m₁, vmm₁) ∧
        allocGpt 0x80100 m₁ vmm₁ = .ok (m₂, vmm₂, 0) ∧
        vmMap m₂ vmm₂ userBegin pageSize vmaWrite = .ok (m₃, vmm₃, 0) ∧
        vmm₃.gpt = .ok 0x82001 ∧ (m₃.child 0x82001 0 = none ∧ m₃.child 0x82001 1 = none) ∧
        m₃.allocPageGpte 0x82001 userBegin pteR = .ok (m₄, some 0x82003) ∧
        walk m₄.child 0x82001 [0, 1] = some 0x82005 :=
    ⟨_, _, _, _, _, _, _, rfl, rfl, rfl, rfl, ⟨rfl, rfl⟩, rfl, rfl⟩
  have h₀ : (building 0x80100 ∅).Reachable ⟨emptyTables.mm, m₂, vmm₂⟩ := by
    refine .start ⟨?_, fun i _ => by simp [emptyTables], m₁, vmm₁, h1, h2⟩
    obtain ⟨F, hF⟩ := pageTables_init (emptyTables_init (R := ∅) (by simp))
    exact ⟨∅, F, hF⟩
  have hstep : (building 0x80100 ∅).step ⟨emptyTables.mm, m₂, vmm₂⟩
      (.vmMap userBegin pageSize vmaWrite 0) ⟨emptyTables.mm, m₃, vmm₃⟩ := ⟨rfl, h3⟩
  refine ⟨m₃, vmm₃, h₀.step hstep, hgpt, fun i (hi : i < 2) => ?_, m₄, h4, hw⟩
  obtain rfl | rfl : i = 0 ∨ i = 1 := by omega
  · exact hchild.1
  · exact hchild.2

/-- A process that has mapped one page in its area loses the table of leaf entries. -/
theorem teardown_leaks : ∃ s m', (building 0x80100 ∅).Reachable s ∧
    teardown 4194304 s.mm s.vmm = .ok m' ∧
    m'.pmm.freePages ≠ s.before.pmm.freePages := by
  obtain ⟨m, vmm, hreach, hgpt, -, m₁, halloc, hw⟩ := building_area
  have hstep : (building 0x80100 ∅).step ⟨emptyTables.mm, m, vmm⟩
      (.allocPageGpte userBegin pteR (some 0x82003)) ⟨emptyTables.mm, m₁, vmm⟩ :=
    ⟨rfl, ⟨by decide, by decide⟩, by decide, rfl, 0x82001, hgpt, halloc⟩
  have hreach' := hreach.step hstep
  obtain ⟨D₀, F₀, r, A, hc, hb⟩ := building_built hreach'
  have hr : r = 0x82001 := by
    have := hb.gpt
    rw [VmManager.gpt, this] at hgpt
    exact Except.ok.inj hgpt
  subst hr
  obtain ⟨m', h1, h2, hsub, -⟩ := hb.teardown (fun f hf => hc.tables.free.mem_pool hf)
    (fun f hf h0 => (hc.tables.data f h0).2.2 hf) (k := 4194304) (by decide)
  refine ⟨_, m', hreach', h1, fun heq => ?_⟩
  rw [h2.freePages_eq, hc.tables.free.freePages_eq] at heq
  have hleaked : 0x82005 ∈ m₁.leaked 0x82001 vmm.vmaList :=
    Or.inl ⟨0, 1, ⟨by simp, by simp, by simp [userEntries]⟩, hw⟩
  exact (heq.superset (hsub hleaked)).2 hleaked

/-- A process that has only an area leaves nothing behind. -/
theorem teardown_restores_area : ∃ s m', (building 0x80100 ∅).Reachable s ∧
    teardown 4194304 s.mm s.vmm = .ok m' ∧
    m'.pmm.freePages = s.before.pmm.freePages := by
  obtain ⟨m, vmm, hreach, hgpt, hchild, -⟩ := building_area
  obtain ⟨r, m', hr, h1, h2⟩ := teardown_restores hreach (k := 4194304) (by decide)
  obtain rfl := Except.ok.inj (hgpt.symm.trans hr)
  refine ⟨_, m', hreach, h1, h2.2 ⟨fun a ha => ?_, fun i hi hne => absurd (hchild i hi) hne⟩⟩
  rw [Mm.slot, walk, hchild _ (getGptx_user ha)]
  rfl

end GarretOS
