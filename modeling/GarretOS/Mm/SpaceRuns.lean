import GarretOS.Mm.Released
import GarretOS.Mm.Spaces

/-!
# Isolation of address spaces

An operation on the address space `i` writes only frames that no other address space uses, and
leaves a state in which the rest has not changed (`SpacesOk.step`).  So the address spaces are
isolated from each other:

* `spaces_isolated` : every page is mapped once, over all address spaces; no page that is mapped is
  free, a table or a record; and an address space sees the same entries and the same content of its
  pages after any operations on the others.
-/

namespace GarretOS

open Radix Mm Spaces

variable {ι : Type} {s s' : Spaces ι} {i j : ι} {D F D₀ F₀ A : Set ℕ}
  {vmm vmm' : VmManager} {m m' : Mm} {r bpt : ℕ} {op : SpaceOp ι}

/-! ### The others -/

namespace Rest

section

variable [DecidableEq ι]

/-- **Writing frames that the others do not use** changes nothing for them. -/
theorem frame (h : Rest s i D₀ F₀) (hw : WritesOnly s.mm m' F₀) (x : Option VmManager) :
    Rest (s.set i m' x) i D₀ F₀ := by
  refine ⟨?_, h.pool, fun j hj vmm hv => ?_, fun j j' vmm vmm' r r' hj hj' hne h1 h2 => ?_⟩
  · rw [set_rootsBut]
    exact h.apart.frame hw
  · rw [s.set_vmm_of_ne hj] at hv
    obtain ⟨r, hok⟩ := h.vmm j hj vmm hv
    refine ⟨r, hok.gpt, hok.useCount, hok.areas, hok.nodup, fun f hf => ?_⟩
    obtain ⟨h1, h2, h3, h4⟩ := hok.records f hf
    refine ⟨h1, h2, h3, fun r' hr' => ?_⟩
    rw [set_rootsBut] at hr'
    rw [set_mm, h.apart.tablesOf_eq hw hr']
    exact h4 r' hr'
  · exact h.disjoint j j' _ _ _ _ hj hj' hne ((set_has_of_ne hj).1 h1) ((set_has_of_ne hj').1 h2)

/-- The others see the same pages. -/
theorem page_eq (h : Rest s i D₀ F₀) (hw : WritesOnly s.mm m' F₀) (x : Option VmManager)
    (hj : j ≠ i) {a : ℕ} (ha : a < userEnd) : (s.set i m' x).page j a = s.page j a := by
  unfold page
  rw [s.set_vmm_of_ne hj, set_mm]
  cases hv : s.vmm j with
  | none => rfl
  | some vmm =>
    simp only [Option.bind_eq_bind, Option.bind_some]
    cases hr : vmm.pGpt with
    | none => rfl
    | some r =>
      have hmem : r ∈ s.rootsBut i := ⟨j, hj, vmm, hv, hr⟩
      simp only [Option.bind_some]
      rw [h.apart.entry_eq hw hmem ha]
      cases he : s.mm.entry r a with
      | none => rfl
      | some pte => simp only [Option.bind_some, h.apart.mem_eq hw (h.apart.entry_mem hmem ha he)]

end

/-- **The rest alone**, when the address space `i` does not exist. -/
theorem leave (h : Rest s i D₀ F₀) (hi : s.vmm i = none) (hfree : FreeSet s.mm.pmm F) (hF : F ⊆ F₀)
    (href : ∀ p ∈ D₀, s.mm.ref p = 1) (hunused : ∀ p ∈ F, s.mm.ref p = 0) : SpacesOk s D₀ F := by
  have hroots := roots_of_none hi
  have ha := h.apart
  refine ⟨⟨⟨hfree, hroots ▸ ha.separated, ?_, fun p hp => ?_, hroots ▸ ha.mapped⟩, fun p hp => ?_,
    hunused⟩, href, fun j vmm hv => ?_, fun j j' vmm vmm' r r' hne h1 h2 => ?_⟩
  · rw [hroots]
    intro r hr p f hp hw
    obtain ⟨h1, h2, h3⟩ := ha.table r hr p f hp hw
    exact ⟨fun hm => h1 (hF hm), h2, h3⟩
  · obtain ⟨h1, h2, h3⟩ := ha.data p hp
    exact ⟨h1, h2, fun hm => h3 (hF hm)⟩
  · rw [hroots, href p hp, ha.single p hp]
  · have hj : j ≠ i := by
      rintro rfl
      rw [hi] at hv
      cases hv
    obtain ⟨r, hok⟩ := h.vmm j hj vmm hv
    refine ⟨r, hok.gpt, hok.useCount, hok.areas, hok.nodup, fun f hf => ?_⟩
    obtain ⟨h1, h2, h3, h4⟩ := hok.records f hf
    exact ⟨h1, fun hm => h2 (hF hm), h3, hroots ▸ h4⟩
  · have hne' : ∀ {k vmm r}, s.Has k vmm r → k ≠ i := fun {k vmm r} hk => by
      rintro rfl
      rw [hk.1] at hi
      cases hi
    exact h.disjoint j j' _ _ _ _ (hne' h1) (hne' h2) hne h1 h2

/-- **The rest and the address space `i`** -/
theorem join (h : Rest s i D₀ F₀) (hi : s.vmm i = some vmm)
    (hb : Built (s.rootsBut i) D₀ F₀ s.mm vmm r A) : ∃ D F, SpacesOk s D F := by
  obtain ⟨D, F, ho⟩ := hb.owned
  have hhas : s.Has i vmm r := ⟨hi, hb.gpt⟩
  have hroots := hhas.roots_eq
  have ha := h.apart
  have hA : ∀ f ∈ A, f ∈ F₀ ∨ f ∈ D₀ := fun f hf => hb.total.subset (Or.inl hf)
  have hin : ∀ f, f ∈ F ∨ f ∈ s.mm.tablesOf r ∨ f ∈ D → f ∈ A := by
    intro f hf
    rw [← ho.total]
    rcases hf with hf | hf | hf
    · exact Or.inl (Or.inl hf)
    · exact Or.inl (Or.inr hf)
    · exact Or.inr hf
  refine ⟨D, F, hroots ▸ ho.consistent, fun p hp => ?_, fun j vmm' hv => ?_,
    fun j j' vmm₁ vmm₂ r₁ r₂ hne h1 h2 f hf₁ hf₂ => ?_⟩
  · by_cases h0 : p ∈ D₀
    · rw [ho.consistent.refs p hp, mappings_insert (ho.others p h0), ha.single p h0]
    · exact (ho.single p hp h0 (Set.notMem_empty p)).1
  · by_cases hj : j = i
    · subst hj
      obtain rfl := Option.some.inj (hi.symm.trans hv)
      refine ⟨r, hb.gpt, hb.useCount, hb.areas, hb.nodup, fun f hf => ?_⟩
      obtain ⟨hF₀, hnot⟩ := hb.records f hf
      refine ⟨h.pool f hF₀, fun hm => hnot (hin f (Or.inl hm)),
        fun hm => hnot (hin f (Or.inr (Or.inr hm))), fun r' hr' hm => ?_⟩
      rw [hroots] at hr'
      rcases hr' with rfl | hr'
      · exact hnot (hin f (Or.inr (Or.inl hm)))
      · obtain ⟨p, -, hp, hw⟩ := hm
        exact (ha.table r' hr' p f hp hw).1 hF₀
    · obtain ⟨r', hok⟩ := h.vmm j hj vmm' hv
      refine ⟨r', hok.gpt, hok.useCount, hok.areas, hok.nodup, fun f hf => ?_⟩
      obtain ⟨h1, h2, h3, h4⟩ := hok.records f hf
      have hnot : f ∉ A := fun hm => (hA f hm).elim h2 h3
      refine ⟨h1, fun hm => hnot (hin f (Or.inl hm)), fun hm => hnot (hin f (Or.inr (Or.inr hm))),
        fun r₁ hr₁ hm => ?_⟩
      rw [hroots] at hr₁
      rcases hr₁ with rfl | hr₁
      · exact hnot (hin f (Or.inr (Or.inl hm)))
      · exact h4 r₁ hr₁ hm
  · -- the records of `i` are frames that the others do not use
    have hmine : ∀ {vmm₁ r₁ f}, s.Has i vmm₁ r₁ → f ∈ vmm₁.records r₁ → f ∈ F₀ :=
      fun {vmm₁ r₁ f} hh hf => by
        obtain rfl := Option.some.inj (hi.symm.trans hh.1)
        obtain rfl := Option.some.inj (hb.gpt.symm.trans hh.2)
        exact (hb.records f hf).1
    have htheirs : ∀ {k vmm₁ r₁ f}, k ≠ i → s.Has k vmm₁ r₁ → f ∈ vmm₁.records r₁ → f ∉ F₀ :=
      fun {k vmm₁ r₁ f} hk hh hf => by
        obtain ⟨r', hok⟩ := h.vmm k hk vmm₁ hh.1
        obtain rfl := Option.some.inj (hok.gpt.symm.trans hh.2)
        exact (hok.records f hf).2.1
    by_cases hj : j = i
    · subst hj
      exact htheirs hne.symm h2 hf₂ (hmine h1 hf₁)
    · by_cases hj' : j' = i
      · subst hj'
        exact htheirs hj h1 hf₁ (hmine h2 hf₂)
      · exact h.disjoint j j' _ _ _ _ hj hj' hne h1 h2 f hf₁ hf₂

end Rest

variable [DecidableEq ι]

/-- The step from `s` to `s'` works on the address space `i`, and writes no frames of others. -/
structure Confined (s s' : Spaces ι) (i : ι) : Prop where
  rest : ∃ D₀ F₀, Rest s i D₀ F₀ ∧ WritesOnly s.mm s'.mm F₀
  eq : s' = s.set i s'.mm (s'.vmm i)

/-- What every step has to keep. -/
def StepOk (s s' : Spaces ι) (i : ι) : Prop := Confined s s' i ∧ ∃ D F, SpacesOk s' D F

/-- The address space `i` has been built from frames that the others do not use. -/
theorem Rest.stepOk (h : Rest s i D₀ F₀) (hw : WritesOnly s.mm m' F₀)
    (hb : Built (s.rootsBut i) D₀ F₀ m' vmm' r A) : StepOk s (s.set i m' (some vmm')) i := by
  have hb' : Built ((s.set i m' (some vmm')).rootsBut i) D₀ F₀ m' vmm' r A := by
    rwa [set_rootsBut]
  refine ⟨⟨⟨D₀, F₀, h, hw⟩, ?_⟩, (h.frame hw _).join s.set_vmm_self hb'⟩
  rw [set_vmm_self, set_mm]

theorem Built.zone_subset {R : Set ℕ} (h : Built R D₀ F₀ m vmm r A) : zone r A D₀ ⊆ F₀ := by
  rintro f (rfl | hf)
  · exact (h.records f (vmm.root_mem_records f)).1
  · exact (h.total.subset (Or.inl hf.1)).resolve_right hf.2

theorem Built.gpt_eq {R : Set ℕ} (h : Built R D₀ F₀ m vmm r A) : vmm.gpt = .ok r := by
  rw [VmManager.gpt, h.gpt]

/-! ### Creating -/

/-- **`init_vmm` and `alloc_gpt`** -/
theorem SpacesOk.create (h : SpacesOk s D F) (hi : s.vmm i = none)
    (hbpt : ∀ i ∈ userEntries, ¬ isValid (s.mm.mem bpt i)) (h1 : initVmm s.mm = .ok (m, vmm))
    (h2 : allocGpt bpt m vmm = .ok (m', vmm', 0)) : StepOk s (s.set i m' (some vmm')) i := by
  have hc := h.consistent
  rw [roots_of_none hi] at hc
  obtain ⟨r, A, hb, -, -, -, hw⟩ := built_init hc hbpt h1 h2
  exact (h.rest_of_none hi).stepOk hw hb

/-- `alloc_gpt` fails only where there is no page, and does nothing then. -/
theorem allocGpt_fails (hfree : FreeSet m.pmm F) {ret : ℤ}
    (h : allocGpt bpt m vmm = .ok (m', vmm', ret)) (hret : ret ≠ 0) : m' = m ∧ vmm' = vmm := by
  obtain ⟨⟨m₁, o⟩, h1, h2⟩ := bind_eq_ok.1 h
  have ha := (allocPage_sat hfree).of_ok h1
  cases o with
  | none =>
    obtain rfl : m₁ = m := ha
    simp only [pure, Except.pure, Except.ok.injEq, Prod.mk.injEq] at h2
    exact ⟨h2.1.symm, h2.2.1.symm⟩
  | some page =>
    obtain ⟨va, -, h2⟩ := bind_eq_ok.1 h2
    simp only [pure, Except.pure, Except.ok.injEq, Prod.mk.injEq] at h2
    exact absurd h2.2.2.symm hret

/-- **`init_vmm`, and `alloc_gpt` fails** -/
theorem SpacesOk.createFails (h : SpacesOk s D F) (hi : s.vmm i = none) {m₁ : Mm}
    {vmm₁ : VmManager} {ret : ℤ} (h1 : initVmm s.mm = .ok (m, vmm))
    (h2 : allocGpt bpt m vmm = .ok (m₁, vmm₁, ret)) (hret : ret ≠ 0)
    (h3 : delVmm m₁ vmm₁ = .ok m') : StepOk s (s.set i m' none) i := by
  obtain ⟨ha, hvmas, -⟩ := (malloc_record h.consistent).of_ok h1
  simp only at ha hvmas
  obtain ⟨rfl, rfl⟩ := allocGpt_fails ha.free h2 hret
  have hpool := h.consistent.tables.free.mem_pool ha.mem_free
  have hnot : vmm₁.frame ∉ F \ {vmm₁.frame} := fun hm => hm.2 rfl
  rw [delVmm, hvmas, forVmas, ok_bind] at h3
  obtain ⟨m₂, h4, hfree, hmem⟩ := free_record ha.free (show numPages VmManager.size = 1 by decide)
    hpool hnot
  obtain rfl := Except.ok.inj (h4.symm.trans h3)
  have hidle : Idle s.mm m₁ (F \ {vmm₁.frame}) :=
    ⟨fun p hp => by rw [ha.ref, h.consistent.unused p hp.1], fun p _ => ha.ref p⟩
  have hidle' := hidle.freeRecord ha.free (show numPages VmManager.size = 1 by decide) hpool hnot h4
  have hF : insert vmm₁.frame (F \ {vmm₁.frame}) = F := by
    rw [Set.insert_sdiff_singleton, Set.insert_eq_of_mem ha.mem_free]
  rw [hF] at hfree hidle'
  have hrest := h.rest_of_none hi
  have hw : WritesOnly s.mm m₂ F := .of_eq (hmem.trans ha.mem)
  refine ⟨⟨⟨D, F, hrest, hw⟩, by rw [set_vmm_self, set_mm]⟩, D, F,
    (hrest.frame hw none).leave s.set_vmm_self hfree subset_rfl (fun p hp => ?_) hidle'.free⟩
  rw [set_mm, hidle'.kept p (h.consistent.tables.data p hp).2.2, h.single p hp]

/-! ### Filling -/

theorem initVma_mem {start stop flags : ℕ} {vma : Vma}
    (h : initVma m start stop flags = .ok (m', vma)) : m'.mem = m.mem := by
  obtain ⟨⟨m₁, frame⟩, h1, h2⟩ := bind_eq_ok.1 h
  obtain ⟨rfl, -⟩ := Prod.mk.inj (Except.ok.inj h2)
  obtain ⟨_, -, h1⟩ := bind_eq_ok.1 h1
  obtain ⟨⟨m₂, o⟩, h3, h4⟩ := bind_eq_ok.1 h1
  cases o with
  | none => cases h4
  | some page =>
    obtain ⟨va, -, h4⟩ := bind_eq_ok.1 h4
    obtain ⟨rfl, -⟩ := Prod.mk.inj (Except.ok.inj h4)
    obtain ⟨⟨a, page'⟩, -, h5⟩ := bind_eq_ok.1 h3
    simp only at h5
    split_ifs at h5
    obtain ⟨rfl, -⟩ := Prod.mk.inj (Except.ok.inj h5)
    rfl

/-- `vm_map` writes records only. -/
theorem vmMap_mem {addr len vmFlags : ℕ} {ret : ℤ}
    (h : vmMap m vmm addr len vmFlags = .ok (m', vmm', ret)) : m'.mem = m.mem := by
  simp only [vmMap] at h
  split_ifs at h
  · obtain ⟨rfl, -⟩ := Prod.mk.inj (Except.ok.inj h)
    rfl
  · obtain ⟨⟨m₁, vma⟩, h1, h⟩ := bind_eq_ok.1 h
    obtain ⟨vmm₁, -, h⟩ := bind_eq_ok.1 h
    obtain ⟨rfl, -⟩ := Prod.mk.inj (Except.ok.inj h)
    exact initVma_mem h1
  · obtain ⟨rfl, -⟩ := Prod.mk.inj (Except.ok.inj h)
    rfl

/-- **The loop of `dup_vmm`** -/
theorem built_dupVmas {R : Set ℕ} {k fr : ℕ} {from_ : VmManager} (hfr : fr ∈ insert r R)
    (hgpt : from_.gpt = .ok fr) {ret : ℤ} (vmas : List Vma) :
    ∀ {m : Mm} {vmm : VmManager} {A : Set ℕ}, Built R D₀ F₀ m vmm r A →
      (∀ v ∈ vmas, v.vmStart % pageSize = 0 ∧ v.vmEnd % pageSize = 0 ∧
        userAccess v.vmStart v.vmEnd) →
      dupVmas k m from_ vmas vmm = .ok (m', vmm', ret) →
      (∃ A, Built R D₀ F₀ m' vmm' r A) ∧ WritesOnly m m' F₀ := by
  induction vmas with
  | nil =>
    intro m vmm A hb _ heq
    obtain ⟨rfl, hres⟩ := Prod.mk.inj (Except.ok.inj heq)
    obtain ⟨rfl, -⟩ := Prod.mk.inj hres
    exact ⟨⟨A, hb⟩, .of_eq rfl⟩
  | cons vma vmas ih =>
    intro m vmm A hb hareas heq
    have harea := hareas vma List.mem_cons_self
    obtain ⟨⟨m₁, newVma⟩, h1, heq⟩ := bind_eq_ok.1 heq
    obtain ⟨vmm₁, h2, heq⟩ := bind_eq_ok.1 heq
    have hb₁ := built_addVma hb harea h1 h2
    rw [hgpt, ok_bind, hb₁.gpt_eq, ok_bind] at heq
    obtain ⟨⟨m₂, ret₂⟩, h3, heq⟩ := bind_eq_ok.1 heq
    obtain ⟨D, F, ho⟩ := hb₁.owned
    rw [copyRange, checkRange_eq harea, ok_bind] at h3
    obtain ⟨-, -, -, hlt, hstop⟩ := harea
    have hau := lt_of_lt_of_le hlt hstop
    have hb₂ := hb₁.fill (owned_copyLoop hfr hstop k ho hau h3)
    have hw₂ : WritesOnly m m₂ F₀ := (WritesOnly.of_eq (initVma_mem h1)).trans
      ((Owned.writes_copyLoop hfr hstop k ho hau h3).mono hb₁.zone_subset)
    simp only at heq
    split_ifs at heq
    · obtain ⟨rfl, hres⟩ := Prod.mk.inj (Except.ok.inj heq)
      obtain ⟨rfl, -⟩ := Prod.mk.inj hres
      exact ⟨⟨_, hb₂⟩, hw₂⟩
    · obtain ⟨hb', hw'⟩ := ih hb₂ (fun v hv => hareas v (List.mem_cons_of_mem vma hv)) heq
      exact ⟨hb', hw₂.trans hw'⟩

namespace SpacesOk

/-- An operation on an existing address space, from what it does to the construction of it. -/
theorem stepOk_of_built (h : SpacesOk s D F) (hi : s.Has i vmm r)
    (hstep : ∀ {D₀ F₀ A}, Built (s.rootsBut i) D₀ F₀ s.mm vmm r A →
      (∃ A, Built (s.rootsBut i) D₀ F₀ m' vmm' r A) ∧ WritesOnly s.mm m' F₀) :
    StepOk s (s.set i m' (some vmm')) i := by
  obtain ⟨⟨A, hb⟩, hw⟩ := hstep (h.built hi)
  exact (h.rest hi).stepOk hw hb

/-- **`dup_vmm`** -/
theorem dupVmm (h : SpacesOk s D F) (hi : s.Has i vmm r) {from_ : VmManager}
    (hj : s.vmm j = some from_) {k : ℕ} {ret : ℤ}
    (heq : GarretOS.dupVmm k s.mm from_ vmm = .ok (m', vmm', ret)) :
    StepOk s (s.set i m' (some vmm')) i := by
  obtain ⟨fr, hfr, hok⟩ := h.has hj
  refine h.stepOk_of_built hi fun hb => ?_
  have hmem : fr ∈ insert r (s.rootsBut i) := hi.roots_eq ▸ hfr.mem_roots
  have hgpt : from_.gpt = .ok fr := by rw [VmManager.gpt, hok.gpt]
  exact built_dupVmas hmem hgpt _ hb (fun v hv => hok.areas.area v (List.mem_reverse.1 hv)) heq

/-- **`alloc_page_gpte`** -/
theorem allocPageGpte (h : SpacesOk s D F) (hi : s.Has i vmm r) {addr flags : ℕ}
    {page : Option ℕ} (ha : UserAddr addr) (hf : flags < 1024)
    (heq : s.mm.allocPageGpte r addr flags = .ok (m', page)) :
    StepOk s (s.set i m' (some vmm)) i := by
  refine h.stepOk_of_built hi fun hb => ?_
  obtain ⟨D₁, F₁, ho⟩ := hb.owned
  exact ⟨⟨_, hb.fill ((owned_allocPageGpte ho ha.2 hf).of_ok heq)⟩,
    ((ho.writes_allocPageGpte ha.2 hf).of_ok heq).mono hb.zone_subset⟩

/-- **`handle_page_fault`** -/
theorem pageFault (h : SpacesOk s D F) (hi : s.Has i vmm r) {addr : ℕ} {ide : ℕ → ℕ → ℕ} {ret : ℤ}
    (heq : handlePageFault s.mm vmm addr ide = .ok (m', vmm', ret)) :
    StepOk s (s.set i m' (some vmm')) i := by
  refine h.stepOk_of_built hi fun hb => ?_
  obtain ⟨D₁, F₁, ho⟩ := hb.owned
  obtain ⟨⟨c, hc⟩, hareas, howned⟩ :=
    (owned_handlePageFault ho hb.areas hb.gpt addr ide).of_ok heq
  exact ⟨⟨_, (hb.fill howned).curr hc hareas⟩,
    ((writes_handlePageFault ho hb.areas hb.gpt addr ide).of_ok heq).mono hb.zone_subset⟩

/-- **A word of a page is written.** -/
theorem write (h : SpacesOk s D F) (hi : s.Has i vmm r) {addr k v pte : ℕ} (ha : addr < userEnd)
    (he : s.mm.entry r addr = some pte) :
    StepOk s (s.set i (s.mm.store (pte2ppn pte, k) v) (some vmm)) i := by
  refine h.stepOk_of_built hi fun hb => ?_
  obtain ⟨D₁, F₁, ho⟩ := hb.owned
  have hD := Mm.entry_mem ho.consistent.tables ho.root (getGptx_user ha) he
  have h0 := (ho.maps_single hD ⟨addr, ha, pte, he, rfl⟩).1
  have hw := WritesOnly.store s.mm (pte2ppn pte, k) v
  refine ⟨⟨_, hb.fill ⟨D₁, F₁, ho.data_write hD (fun f hf => hw f hf) rfl⟩⟩, hw.mono ?_⟩
  rintro f rfl
  exact hb.zone_subset (ho.data_zone hD h0)

/-- **`del_vmas`, `free_gpt` and `del_vmm`** -/
theorem release (h : SpacesOk s D F) (hi : s.Has i vmm r) {k : ℕ} (hk : userEnd / ptSize ≤ k)
    (heq : teardown k s.mm vmm = .ok m') : StepOk s (s.set i m' none) i := by
  have hrest := h.rest hi
  have hb := h.built hi
  obtain ⟨D₁, F₁, ho⟩ := hb.owned
  have hrecords : ∀ f ∈ vmm.records r,
      (poolBegin ≤ f ∧ f < poolEnd) ∧ f ∉ F ∪ s.mm.tablesOf r ∪ D :=
    fun f hf => ⟨hrest.pool f (hb.records f hf).1, (hb.records f hf).2⟩
  have hD₀ : ∀ f ∈ frames s D F vmm r, f ∉ s.mm.others D r :=
    fun f hf h0 => (hrest.apart.data f h0).2.2 hf
  obtain ⟨m₁, h1, hfree, hleaked, hw⟩ := hb.teardown hrest.pool hD₀ hk
  obtain rfl := Except.ok.inj (h1.symm.trans heq)
  obtain ⟨m₂, D₂, F₂, ho₂, hw₂, G, hfree', hidle⟩ :=
    teardown_idle ho hb.areas hb.gpt hb.nodup hrecords hk heq
  obtain rfl := hfree'.unique hfree
  refine ⟨⟨⟨_, _, hrest, hw⟩, by rw [set_vmm_self, set_mm]⟩, _, _,
    (hrest.frame hw none).leave s.set_vmm_self hfree Set.sdiff_subset (fun p hp => ?_) hidle.free⟩
  -- the pages of the others have the references that they had
  have hw₀ : WritesOnly s.mm m₂ (frames s D F vmm r) := hw₂.mono fun f hf =>
    hb.zone_subset (Or.inr ⟨Or.inl (Or.inr hf), fun h0 => by
      obtain ⟨q, -, hq, hwq⟩ := hf
      exact (ho.consistent.tables.table r ho.root q f hq hwq).2.1 (ho.base h0)⟩)
  rw [set_mm, hidle.kept p fun hm => (hrest.apart.data p hp).2.2 hm.1,
    ho₂.consistent.refs p (ho₂.base hp), mappings_insert (ho₂.others p hp),
    hrest.apart.mappings_eq hw₀, hrest.apart.single p hp]

/-- **Every step** works on one address space, and keeps the invariant. -/
theorem step (h : SpacesOk s D F) (hbpt : ∀ i ∈ userEntries, ¬ isValid (s.mm.mem bpt i))
    (hl : (spaces ι bpt).step s op s') : StepOk s s' op.space := by
  cases op with
  | create i =>
    obtain ⟨hi, m, vmm, m', vmm', h1, h2, rfl⟩ := hl
    exact h.create hi hbpt h1 h2
  | createFails i =>
    obtain ⟨hi, m, vmm, m₁, vmm₁, ret, m', h1, h2, hret, h3, rfl⟩ := hl
    exact h.createFails hi h1 h2 hret h3
  | vmMap i addr len vmFlags ret =>
    obtain ⟨vmm, m', vmm', hv, heq, rfl⟩ := hl
    obtain ⟨r, hi, -⟩ := h.has hv
    exact h.stepOk_of_built hi fun hb => ⟨built_vmMap hb heq, .of_eq (vmMap_mem heq)⟩
  | allocPageGpte i addr flags page =>
    obtain ⟨ha, hf, vmm, r, m', hv, hgpt, heq, rfl⟩ := hl
    obtain ⟨r', hi, hok⟩ := h.has hv
    rw [VmManager.gpt, hok.gpt] at hgpt
    obtain rfl := Except.ok.inj hgpt
    exact h.allocPageGpte hi ha hf heq
  | dupVmm i from_ ret =>
    obtain ⟨vmm, vmmFrom, k, m', vmm', hv, hj, heq, rfl⟩ := hl
    obtain ⟨r, hi, -⟩ := h.has hv
    exact h.dupVmm hi hj heq
  | pageFault i addr ret =>
    obtain ⟨vmm, ide, m', vmm', hv, heq, rfl⟩ := hl
    obtain ⟨r, hi, -⟩ := h.has hv
    exact h.pageFault hi heq
  | write i addr k v =>
    obtain ⟨ha, -, vmm, r, pte, hv, hgpt, he, rfl⟩ := hl
    obtain ⟨r', hi, hok⟩ := h.has hv
    rw [VmManager.gpt, hok.gpt] at hgpt
    obtain rfl := Except.ok.inj hgpt
    exact h.write hi ha he
  | release i =>
    obtain ⟨vmm, k, m', hv, hk, heq, rfl⟩ := hl
    obtain ⟨r, hi, -⟩ := h.has hv
    exact h.release hi hk heq

end SpacesOk

/-! ### Runs -/

/-- **The invariant** holds in every reachable state; the boot table keeps its user entries. -/
theorem spaces_ok (h : (spaces ι bpt).Reachable s) : (∃ D F, SpacesOk s D F) ∧
    bpt < poolBegin ∧ ∀ i ∈ userEntries, ¬ isValid (s.mm.mem bpt i) := by
  refine h.invariant (I := fun s => (∃ D F, SpacesOk s D F) ∧ bpt < poolBegin ∧
    ∀ i ∈ userEntries, ¬ isValid (s.mm.mem bpt i)) ?_ ?_
  · rintro s ⟨⟨F, hc⟩, hnone, hbpt, hempty⟩
    have hno : ∀ i vmm r, ¬ s.Has i vmm r := by
      intro i vmm r hi
      rw [Has, hnone i] at hi
      cases hi.1
    have hroots : s.roots = ∅ := Set.eq_empty_of_forall_notMem fun r hr => by
      obtain ⟨i, vmm, hi⟩ := hr
      exact hno i vmm r hi
    refine ⟨⟨∅, F, ⟨hroots ▸ hc, fun p hp => absurd hp (Set.notMem_empty p), fun i vmm hv => ?_,
      fun i j vmm vmm' r r' _ hi => absurd hi (hno i vmm r)⟩⟩, hbpt, hempty⟩
    rw [hnone i] at hv
    cases hv
  · rintro s op s' ⟨⟨D, F, hok⟩, hbpt, hempty⟩ hl
    obtain ⟨⟨⟨D₀, F₀, hrest, hw⟩, -⟩, hok'⟩ := hok.step hempty hl
    have hmem : s'.mm.mem bpt = s.mm.mem bpt := hw bpt fun hm => by
      have := (hrest.pool bpt hm).1
      omega
    exact ⟨hok', hbpt, fun i hi => hmem.symm ▸ hempty i hi⟩

/-- Steps on other address spaces. -/
theorem Confined.page_eq (h : Confined s s' i) (hj : j ≠ i) :
    s'.vmm j = s.vmm j ∧ ∀ a < userEnd, s'.page j a = s.page j a := by
  obtain ⟨⟨D₀, F₀, hrest, hw⟩, heq⟩ := h
  refine ⟨?_, fun a ha => ?_⟩
  · rw [heq, s.set_vmm_of_ne hj]
  · rw [heq, hrest.page_eq hw _ hj ha]

/-- **Address spaces are isolated.**  In every reachable state, every page is mapped by one address
space and at one page of addresses; no page that is mapped is free, the table of an address space or
one of its records; and any further run of operations on other address spaces leaves the areas of an
address space, its entries and the content of its pages as they are. -/
theorem spaces_isolated (h : (spaces ι bpt).Reachable s) :
    (∀ i j a b pte pte' c c', a < userEnd → b < userEnd → s.page i a = some (pte, c) →
      s.page j b = some (pte', c') → pte2ppn pte = pte2ppn pte' →
      i = j ∧ a / pageSize = b / pageSize) ∧
    (∀ i a pte c, a < userEnd → s.page i a = some (pte, c) → pte2ppn pte ∉ s.mm.pmm.freePages ∧
      ∀ j vmm r, s.Has j vmm r → pte2ppn pte ∉ s.mm.tablesOf r ∧ pte2ppn pte ∉ vmm.records r) ∧
    ∀ ops s' j, ((spaces ι bpt).startAt s).Run ops s' → (∀ op ∈ ops, op.space ≠ j) →
      s'.vmm j = s.vmm j ∧ ∀ a < userEnd, s'.page j a = s.page j a := by
  obtain ⟨⟨D, F, hok⟩, -⟩ := spaces_ok h
  have hc := hok.consistent
  refine ⟨fun i j a b pte pte' c c' ha hb h1 h2 heq => ?_, fun i a pte c ha h1 => ?_,
    fun ops s' j hrun => ?_⟩
  · obtain ⟨vmm, r, hi, he⟩ := page_eq_some h1
    obtain ⟨vmm', r', hj, he'⟩ := page_eq_some h2
    have hD := Mm.entry_mem hc.tables hi.mem_roots (getGptx_user ha) he
    obtain ⟨hr, hab⟩ := maps_unique hc hi.mem_roots hj.mem_roots ha hb he he' heq (hok.single _ hD)
    refine ⟨?_, hab⟩
    by_contra hne
    exact hok.root_notMem hi ⟨j, fun hji => hne hji.symm, vmm', hr ▸ hj⟩
  · obtain ⟨vmm, r, hi, he⟩ := page_eq_some h1
    have hD := Mm.entry_mem hc.tables hi.mem_roots (getGptx_user ha) he
    refine ⟨?_, fun j vmm' r' hj => ⟨?_, fun hm => ((hok.vmmOk hj).records _ hm).2.2.1 hD⟩⟩
    · rw [hc.tables.free.freePages_eq]
      exact (hc.tables.data _ hD).2.2
    · rintro ⟨p, -, hp, hw⟩
      exact (hc.tables.table r' hj.mem_roots p _ hp hw).2.1 hD
  · induction hrun with
    | start hs =>
      intro _
      rw [show _ = s from hs]
      exact ⟨rfl, fun _ _ => rfl⟩
    | @step ops s₁ s₂ op hrun hl ih =>
      intro hops
      obtain ⟨hv, hp⟩ := ih fun op' hop => hops op' (List.mem_append_left _ hop)
      obtain ⟨⟨D₁, F₁, hok₁⟩, -, hempty⟩ := spaces_ok (hrun.of_startAt h)
      have hne : j ≠ op.space := (hops op (by simp)).symm
      obtain ⟨hv', hp'⟩ := (hok₁.step hempty hl).1.page_eq hne
      exact ⟨hv'.trans hv, fun a ha => (hp' a ha).trans (hp a ha)⟩

/-- Sixteen free pages, and no address space. -/
def noSpaces : Spaces Bool := ⟨⟨FreeSet.oneBlock 0x82000 16, fun _ _ => 0, false⟩, fun _ => none⟩

theorem noSpaces_init : (spaces Bool 0x80100).init noSpaces := by
  refine ⟨?_, fun _ => rfl, by decide, fun i _ => by simp [noSpaces]⟩
  refine pageTables_init (s := ⟨noSpaces.mm, ∅⟩) ⟨rfl, ⟨_, FreeSet.freeSet_oneBlock (p := 0x82000)
    (k := 16) (by decide) (by decide) (by decide), fun p _ => ?_, fun r hr => ?_⟩, fun r hr => ?_⟩
  · simp only [Mm.ref, noSpaces, FreeSet.oneBlock]
    split_ifs <;> rfl
  · exact absurd hr (Set.notMem_empty r)
  · exact absurd hr (Set.notMem_empty r)

/-- One address space has a page; another one is created, gets a page, and writes to it. -/
theorem spaces_isolated_write : ∃ s s' : Spaces Bool, (spaces Bool 0x80100).Reachable s ∧
    s.page false userBegin ≠ none ∧ ((spaces Bool 0x80100).startAt s).Run [.create true,
      .allocPageGpte true userBegin 0xa (some 0x82007), .write true userBegin 3 7] s' ∧
    s'.page false userBegin = s.page false userBegin := by
  obtain ⟨m₁, vmm₁, m₂, vmm₂, m₃, pte, h1, h2, hg, h3, hp⟩ : ∃ m₁ vmm₁ m₂ vmm₂ m₃ pte,
      initVmm noSpaces.mm = .ok (m₁, vmm₁) ∧ allocGpt 0x80100 m₁ vmm₁ = .ok (m₂, vmm₂, 0) ∧
      vmm₂.pGpt = some 0x82001 ∧
      m₂.allocPageGpte 0x82001 userBegin 0xa = .ok (m₃, some 0x82002) ∧
      m₃.entry 0x82001 userBegin = some pte := ⟨_, _, _, _, _, _, rfl, rfl, rfl, rfl, rfl⟩
  obtain ⟨m₄, vmm₄, m₅, vmm₅, m₆, pte', h4, h5, hg', h6, hp'⟩ : ∃ m₄ vmm₄ m₅ vmm₅ m₆ pte',
      initVmm m₃ = .ok (m₄, vmm₄) ∧ allocGpt 0x80100 m₄ vmm₄ = .ok (m₅, vmm₅, 0) ∧
      vmm₅.pGpt = some 0x82006 ∧
      m₅.allocPageGpte 0x82006 userBegin 0xa = .ok (m₆, some 0x82007) ∧
      m₆.entry 0x82006 userBegin = some pte' := by
    cases h1
    cases h2
    cases h3
    exact ⟨_, _, _, _, _, _, rfl, rfl, rfl, rfl, rfl⟩
  have hgpt : vmm₂.gpt = .ok 0x82001 := by rw [VmManager.gpt, hg]
  have hgpt' : vmm₅.gpt = .ok 0x82006 := by rw [VmManager.gpt, hg']
  have hua : UserAddr userBegin := ⟨by decide, by decide⟩
  -- the first address space
  obtain ⟨s₁, hs₁⟩ : ∃ s₁, s₁ = noSpaces.set false m₂ (some vmm₂) := ⟨_, rfl⟩
  obtain ⟨s₂, hs₂⟩ : ∃ s₂, s₂ = s₁.set false m₃ (some vmm₂) := ⟨_, rfl⟩
  have hmm₂ : s₂.mm = m₃ := by rw [hs₂, set_mm]
  have hfalse : s₂.vmm false = some vmm₂ := by rw [hs₂, set_vmm_self]
  have htrue : s₂.vmm true = none := by
    rw [hs₂, set_vmm_of_ne _ (by decide), hs₁, set_vmm_of_ne _ (by decide)]
    rfl
  have hstep₁ : (spaces Bool 0x80100).step noSpaces (.create false) s₁ :=
    ⟨rfl, m₁, vmm₁, m₂, vmm₂, h1, h2, hs₁⟩
  have hstep₂ : (spaces Bool 0x80100).step s₁
      (.allocPageGpte false userBegin 0xa (some 0x82002)) s₂ :=
    ⟨hua, by decide, vmm₂, 0x82001, m₃, by rw [hs₁, set_vmm_self], hgpt, by rwa [hs₁, set_mm], hs₂⟩
  have hreach := ((System.Reachable.start noSpaces_init).step hstep₁).step hstep₂
  -- the second one
  obtain ⟨s₃, hs₃⟩ : ∃ s₃, s₃ = s₂.set true m₅ (some vmm₅) := ⟨_, rfl⟩
  obtain ⟨s₄, hs₄⟩ : ∃ s₄, s₄ = s₃.set true m₆ (some vmm₅) := ⟨_, rfl⟩
  obtain ⟨s₅, hs₅⟩ : ∃ s₅, s₅ = s₄.set true (s₄.mm.store (pte2ppn pte', 3) 7) (some vmm₅) :=
    ⟨_, rfl⟩
  have hstep₃ : ((spaces Bool 0x80100).startAt s₂).step s₂ (.create true) s₃ :=
    ⟨htrue, m₄, vmm₄, m₅, vmm₅, by rwa [hmm₂], h5, hs₃⟩
  have hstep₄ : ((spaces Bool 0x80100).startAt s₂).step s₃
      (.allocPageGpte true userBegin 0xa (some 0x82007)) s₄ :=
    ⟨hua, by decide, vmm₅, 0x82006, m₆, by rw [hs₃, set_vmm_self], hgpt', by rwa [hs₃, set_mm], hs₄⟩
  have hstep₅ : ((spaces Bool 0x80100).startAt s₂).step s₄ (.write true userBegin 3 7) s₅ :=
    ⟨by decide, by decide, vmm₅, 0x82006, pte', by rw [hs₄, set_vmm_self], hgpt',
      by rwa [hs₄, set_mm], hs₅⟩
  have hrun : ((spaces Bool 0x80100).startAt s₂).Run [.create true,
      .allocPageGpte true userBegin 0xa (some 0x82007), .write true userBegin 3 7] s₅ :=
    (((System.Run.start rfl).step hstep₃).step hstep₄).step hstep₅
  have hpage : s₂.page false userBegin = some (pte, s₂.mm.mem (pte2ppn pte)) := by
    rw [page, hfalse]
    simp only [Option.bind_eq_bind, Option.bind_some, hg, hmm₂, hp]
    rfl
  obtain ⟨-, -, hiso⟩ := spaces_isolated hreach
  refine ⟨s₂, s₅, hreach, by simp [hpage], hrun, (hiso _ s₅ false hrun ?_).2 userBegin (by decide)⟩
  simp [SpaceOp.space]

end GarretOS
