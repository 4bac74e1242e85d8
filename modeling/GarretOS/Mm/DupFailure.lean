import GarretOS.Mm.AddressSpace
import GarretOS.Mm.Demand
import GarretOS.Mm.Fork

/-!
# Failures while an address space is copied

`dup_vmm` may run out of memory at any point, with some of the areas and some of the pages copied.
`DupReaches` and `CopyReaches` say how far it has got when that happens, in steps of `dup_vmm`
itself.

* `Copying` : the invariant up to that point; the frames of the child are accounted for, and it has
  tables only if a page has been copied;
* `DupReaches.copying`, `CopyReaches.copying` : it holds wherever `dup_vmm` gets to;
* `Copying.teardown` : what the teardown of the child leaves behind then.
-/

namespace GarretOS

open Radix

/-! ### How far the copy has got -/

/-- The loop of `copy_range` gets from the address `start` in the memory `m` to the address `a` in
the memory `m'`. -/
inductive CopyReaches (from_ to_ stop : ℕ) : Mm → ℕ → Mm → ℕ → Prop where
  | refl (m a) : CopyReaches from_ to_ stop m a m a
  | step {m m₁ m' start next a} : copyStep m from_ to_ start = .ok (m₁, 0, next) →
      next ≠ 0 ∧ next < stop → CopyReaches from_ to_ stop m₁ next m' a →
      CopyReaches from_ to_ stop m start m' a

/-- The loop of `dup_vmm` gets from the areas `vmas` that are to be copied, with the child `to_`, to
the areas `vmas'` and the child `to'`. -/
inductive DupReaches (k : ℕ) (from_ : VmManager) :
    Mm → List Vma → VmManager → Mm → List Vma → VmManager → Prop where
  | refl (m vmas to_) : DupReaches k from_ m vmas to_ m vmas to_
  | step {m m₁ m₂ m' vma newVma vmas vmas' to_ to₁ to' fromGpt toGpt} :
      initVma m vma.vmStart vma.vmEnd vma.vmFlags = .ok (m₁, newVma) →
      addVma to_ newVma = .ok to₁ → from_.gpt = .ok fromGpt → to₁.gpt = .ok toGpt →
      copyRange k m₁ fromGpt toGpt vma.vmStart vma.vmEnd = .ok (m₂, 0) →
      DupReaches k from_ m₂ vmas to₁ m' vmas' to' →
      DupReaches k from_ m (vma :: vmas) to_ m' vmas' to'

variable {m₀ m m₁ m' : Mm} {R D₀ F₀ F₂ S : Set ℕ} {fr tr start stop a k : ℕ}
  {from_ to_ to' : VmManager} {vmas vmas' : List Vma}

/-- A loop that has ended has got to its last round. -/
theorem copyLoop_reaches {from_ to_ : ℕ} (h : copyLoop from_ to_ stop k m start = .ok (m', 0)) :
    ∃ m₁ a next, CopyReaches from_ to_ stop m start m₁ a ∧
      copyStep m₁ from_ to_ a = .ok (m', 0, next) ∧ ¬ (next ≠ 0 ∧ next < stop) := by
  induction k generalizing m start with
  | zero => cases h
  | succ k ih =>
    obtain ⟨⟨m₁, ret, next⟩, hstep, h⟩ := bind_eq_ok.1 h
    simp only at h
    split_ifs at h with hret hcont
    · exact absurd (congrArg Prod.snd (Except.ok.inj h)) hret
    · obtain rfl : ret = 0 := not_not.1 hret
      obtain ⟨m₂, a, next', h1, h2, h3⟩ := ih h
      exact ⟨m₂, a, next', .step hstep hcont h1, h2, h3⟩
    · obtain rfl : ret = 0 := not_not.1 hret
      obtain rfl := congrArg Prod.fst (Except.ok.inj h)
      exact ⟨m, start, next, .refl m start, hstep, hcont⟩

/-- What remains of `dup_vmm`. -/
theorem DupReaches.dupVmas_eq (h : DupReaches k from_ m vmas to_ m' vmas' to') :
    dupVmas k m from_ vmas to_ = dupVmas k m' from_ vmas' to' := by
  induction h with
  | refl => rfl
  | step h1 h2 h3 h4 h5 _ ih =>
    simp only [dupVmas, h1, h2, h3, h4, h5, ok_bind, ne_eq, not_true_eq_false, if_false]
    exact ih

/-! ### The invariant -/

/-- The page table `fr` of the parent, as it was in the memory `m₀`, has been copied to the child
`to_` with the root table `tr` as far as the pages in `S`; the child has been built from the pages
`F₂`. -/
structure Copying (m₀ m : Mm) (R D₀ F₀ F₂ : Set ℕ) (fr tr : ℕ) (to_ : VmManager) (S : Set ℕ) :
    Prop where
  built : ∃ A, Built R D₀ F₂ m to_ tr A
  copied : ∃ D F, m₀.Copied m (insert tr R) D₀ F₀ fr tr S D F
  /-- Tables are made for pages that are copied only. -/
  bare : (∀ a < userEnd, a / pageSize ∈ S → m₀.entry fr a = none) →
    ∀ i ∈ userEntries, m.child tr i = none

namespace Mm

theorem Copied.parent_entry {D F : Set ℕ} (h₀ : Consistent m₀ R userEntries D₀ F₀)
    (h : Copied m₀ m R D₀ F₀ fr tr S D F) (hfr : fr ∈ R) (htr : tr ∈ R) (hne : fr ≠ tr)
    (hau : a < userEnd) : m.entry fr a = m₀.entry fr a := by
  rw [entry, entry, h.parent_slot hfr hne hau]
  cases hs : m₀.slot fr a with
  | none => rfl
  | some s => rw [Option.bind_some, Option.bind_some, h.parent_load h₀ htr hfr hne hau hs]

/-- `copy_range` does nothing where the parent maps no page. -/
theorem copyStep_of_none {U D F : Set ℕ} (h : Tables m R U D F) (hfr : fr ∈ R)
    (hU : getGptx start ∈ U) (he : m.entry fr start = none) (tr : ℕ) :
    ∃ next, copyStep m fr tr start = .ok (m, 0, next) := by
  rw [copyStep, getPte_false h hfr hU, ok_bind]
  cases hs : m.slot fr start with
  | none => exact ⟨_, rfl⟩
  | some p =>
    rw [entry_of_slot hs] at he
    have hv : ¬ isValid (m.load p) := fun hv => by simp [hv] at he
    simp only [hv]
    exact ⟨_, rfl⟩

end Mm

namespace Copying

/-- **One round of `copy_range`.** -/
theorem round (h : Copying m₀ m R D₀ F₀ F₂ fr tr to_ S)
    (h₀ : m₀.Consistent (insert tr R) userEntries D₀ F₀) (hfr : fr ∈ R) (hne : fr ≠ tr)
    (hau : start < userEnd) (hS : m₀.slot fr start ≠ none → start / pageSize ∉ S) {next : ℕ}
    (hok : copyStep m fr tr start = .ok (m', 0, next)) :
    next = Mm.nextAddr m₀ fr start ∧
      Copying m₀ m' R D₀ F₀ F₂ fr tr to_ (insert (start / pageSize) S) := by
  obtain ⟨⟨A, hb⟩, ⟨D, F, hc⟩, hbare⟩ := h
  obtain ⟨hnext, hc'⟩ :=
    (Mm.copyStep_sat h₀ (Or.inr hfr) (Or.inl rfl) hne hc hau hS).of_ok hok rfl
  obtain ⟨Do, Fo, ho⟩ := hb.owned
  refine ⟨hnext, ⟨A, hb.fill ((Mm.owned_copyStep ho (Or.inr hfr) hau).of_ok hok)⟩, hc',
    fun hnone i hi => ?_⟩
  -- the page was not mapped, so nothing has been done
  have he : m.entry fr start = none :=
    (hc.parent_entry h₀ (Or.inr hfr) (Or.inl rfl) hne hau).trans (hnone start hau (Or.inl rfl))
  obtain ⟨_, hsame⟩ :=
    Mm.copyStep_of_none hc.consistent.tables (Or.inr hfr) (getGptx_user hau) he tr
  obtain rfl := congrArg Prod.fst (Except.ok.inj (hok.symm.trans hsame))
  exact hbare (fun b hb hbS => hnone b hb (Or.inr hbS)) i hi

/-- A frame is taken for the record of an area that is added to the child. -/
theorem addVma (h : Copying m₀ m R D₀ F₀ F₂ fr tr to_ S)
    (h₀ : m₀.Consistent (insert tr R) userEntries D₀ F₀) {v newVma : Vma}
    (harea : v.vmStart % pageSize = 0 ∧ v.vmEnd % pageSize = 0 ∧ userAccess v.vmStart v.vmEnd)
    (h1 : initVma m v.vmStart v.vmEnd v.vmFlags = .ok (m', newVma))
    (h2 : GarretOS.addVma to_ newVma = .ok to') : Copying m₀ m' R D₀ F₀ F₂ fr tr to' S := by
  obtain ⟨⟨A, hb⟩, ⟨D, F, hc⟩, hbare⟩ := h
  obtain ⟨ha, -⟩ := (initVma_sat hc.consistent.tables.free _ _ _).of_ok h1
  refine ⟨⟨_, built_addVma hb harea h1 h2⟩, ⟨D, _, hc.take h₀ ha⟩, fun hnone i hi => ?_⟩
  rw [Mm.child_congr ha.mem]
  exact hbare hnone i hi

/-- Where a loop over the range from `start₀` to `stop` has got to. -/
structure CopyAt (m₀ m : Mm) (R D₀ F₀ F₂ : Set ℕ) (fr tr : ℕ) (to_ : VmManager) (S : Set ℕ)
    (start₀ stop a : ℕ) : Prop where
  cursor : Mm.Cursor m₀ fr start₀ stop a
  copying : Copying m₀ m R D₀ F₀ F₂ fr tr to_ (S ∪ Mm.pageRange start₀ a)

end Copying

open Copying

section

variable (h₀ : m₀.Consistent (insert tr R) userEntries D₀ F₀) (hfr : fr ∈ R) (hne : fr ≠ tr)

include h₀ hfr hne

/-- **The loop of `copy_range`** keeps the invariant as far as it gets, with rounds to spare. -/
theorem CopyReaches.copying {start₀ : ℕ} (hstart₀ : start₀ % pageSize = 0) (hstop : stop ≤ userEnd)
    (hend : stop % pageSize = 0) (hdisj : ∀ vpn ∈ Mm.pageRange start₀ stop, vpn ∉ S)
    (h : CopyReaches fr tr stop m start m' a) (hk : (stop - start) / ptSize < k)
    (hat : CopyAt m₀ m R D₀ F₀ F₂ fr tr to_ S start₀ stop start) :
    CopyAt m₀ m' R D₀ F₀ F₂ fr tr to_ S start₀ stop a ∧
      ∃ k', copyLoop fr tr stop k m start = copyLoop fr tr stop (k' + 1) m' a := by
  induction h generalizing k with
  | refl =>
    obtain ⟨k', rfl⟩ := Nat.exists_eq_succ_of_ne_zero (Nat.ne_zero_of_lt hk)
    exact ⟨hat, k', rfl⟩
  | step hstep hcont _ ih =>
    obtain ⟨k', rfl⟩ := Nat.exists_eq_succ_of_ne_zero (Nat.ne_zero_of_lt hk)
    obtain ⟨hcur, hcopy⟩ := hat
    obtain ⟨-, -, h3, h4, h5⟩ := hcur.next (S := S) hstart₀ hstop hend
    obtain ⟨rfl, hcopy'⟩ := hcopy.round h₀ hfr hne (lt_of_lt_of_le hcur.lt hstop)
      (hcur.fresh hdisj) hstep
    rw [h3] at hcopy'
    obtain ⟨hat', j, hj⟩ := ih (h5 k' hk hcont.2) ⟨h4 hcont.2, hcopy'⟩
    refine ⟨hat', j, ?_⟩
    rw [← hj, copyLoop, hstep, ok_bind]
    simp only [ne_eq, not_true_eq_false, if_false]
    exact if_pos hcont

/-- A range that has been copied. -/
theorem Copying.copyLoop {start₀ : ℕ} (hstart₀ : start₀ % pageSize = 0) (hlt : start₀ < stop)
    (hstop : stop ≤ userEnd) (hend : stop % pageSize = 0)
    (hdisj : ∀ vpn ∈ Mm.pageRange start₀ stop, vpn ∉ S) (hk : (stop - start₀) / ptSize < k)
    (h : Copying m₀ m R D₀ F₀ F₂ fr tr to_ S)
    (hok : GarretOS.copyLoop fr tr stop k m start₀ = .ok (m', 0)) :
    Copying m₀ m' R D₀ F₀ F₂ fr tr to_ (S ∪ Mm.pageRange start₀ stop) := by
  obtain ⟨m₁, a, next, h1, h2, h3⟩ := copyLoop_reaches hok
  obtain ⟨⟨hcur, hcopy⟩, -⟩ := h1.copying h₀ hfr hne hstart₀ hstop hend hdisj hk
    ⟨.start hstart₀ hlt, by rwa [Mm.union_pageRange_self]⟩
  obtain ⟨h4, h5, h6, -⟩ := hcur.next (S := S) hstart₀ hstop hend
  obtain ⟨rfl, hcopy'⟩ := hcopy.round h₀ hfr hne (lt_of_lt_of_le hcur.lt hstop)
    (hcur.fresh hdisj) h2
  rw [h6] at hcopy'
  rwa [show Mm.nextAddr m₀ fr a = stop by omega] at hcopy'

/-- The areas in `done` have been copied to the child. -/
structure Copying.VmasAt (m₀ m : Mm) (R D₀ F₀ F₂ : Set ℕ) (fr tr : ℕ) (to_ : VmManager)
    (done : List Vma) : Prop where
  areas : to_.vmaList.map Vma.triple = done.map Vma.triple
  copying : Copying m₀ m R D₀ F₀ F₂ fr tr to_ (vmaPages done)

omit hfr hne in
/-- The next area is added to the child. -/
theorem Copying.VmasAt.addVma {v newVma : Vma} {done : List Vma}
    (hok : VmasOk (vmas ++ v :: done)) (h : VmasAt m₀ m R D₀ F₀ F₂ fr tr to_ done)
    (h1 : initVma m v.vmStart v.vmEnd v.vmFlags = .ok (m', newVma))
    (h2 : GarretOS.addVma to_ newVma = .ok to') :
    Copying m₀ m' R D₀ F₀ F₂ fr tr to' (vmaPages done) ∧
      to'.vmaList.map Vma.triple = (v :: done).map Vma.triple := by
  refine ⟨h.copying.addVma h₀ (hok.area v (by simp)) h1 h2, ?_⟩
  obtain ⟨D, F, hc⟩ := h.copying.copied
  obtain ⟨-, htriple⟩ := (initVma_sat hc.consistent.tables.free _ _ _).of_ok h1
  obtain rfl := Except.ok.inj (h2.symm.trans (hok.addVma_eq h.areas htriple))
  rw [List.map_cons, List.map_cons, h.areas, show newVma.triple = v.triple from htriple]

/-- **The loop of `dup_vmm`** keeps the invariant as far as it gets. -/
theorem DupReaches.copying (hk : userEnd / ptSize ≤ k) (hfrom : from_.pGpt = some fr)
    (h : DupReaches k from_ m vmas to_ m' vmas' to') {done : List Vma}
    (hok : VmasOk (vmas.reverse ++ done)) (hat : VmasAt m₀ m R D₀ F₀ F₂ fr tr to_ done) :
    ∃ done', vmas'.reverse ++ done' = vmas.reverse ++ done ∧
      VmasAt m₀ m' R D₀ F₀ F₂ fr tr to' done' := by
  induction h generalizing done with
  | refl => exact ⟨done, rfl, hat⟩
  | step h1 h2 h3 h4 h5 _ ih =>
    rename_i vma newVma vmas vmas' to_ to₁ to' fromGpt toGpt _
    rw [List.reverse_cons, List.append_assoc, List.singleton_append] at hok ⊢
    obtain ⟨hs, he, hu⟩ := hok.area vma (by simp)
    obtain ⟨hcopy, hareas⟩ := hat.addVma h₀ hok h1 h2
    obtain ⟨A, hb⟩ := hcopy.built
    obtain rfl : fr = fromGpt := by
      rw [VmManager.gpt, hfrom] at h3
      exact Except.ok.inj h3
    obtain rfl : tr = toGpt := by
      rw [VmManager.gpt, hb.gpt] at h4
      exact Except.ok.inj h4
    rw [copyRange_eq ⟨hs, he, hu⟩] at h5
    have hcopy' := hcopy.copyLoop h₀ hfr hne hs hu.2.1 hu.2.2 he hok.fresh (rounds_lt hu hk) h5
    rw [← vmaPages_cons] at hcopy'
    exact ih hok ⟨hareas, hcopy'⟩

end

/-! ### A failure inside an area -/

/-- `dup_vmm` has got to the address `a` of the area `v`, with the areas `rest` still to come. -/
def DupAt (k : ℕ) (from_ to₀ : VmManager) (fr tr : ℕ) (m₀ : Mm) (v : Vma) (a : ℕ) (m : Mm)
    (to_ : VmManager) (rest : List Vma) : Prop :=
  ∃ m₁ to₁ m₂ newVma, DupReaches k from_ m₀ from_.vmaList.reverse to₀ m₁ (v :: rest) to₁ ∧
    initVma m₁ v.vmStart v.vmEnd v.vmFlags = .ok (m₂, newVma) ∧ addVma to₁ newVma = .ok to_ ∧
    CopyReaches fr tr v.vmEnd m₂ v.vmStart m a

/-- What is known when `dup_vmm` has got to an address. -/
structure DupAt.Known (k : ℕ) (from_ to₀ : VmManager) (m₀ m : Mm) (R D₀ F₀ F₂ : Set ℕ)
    (fr tr : ℕ) (v : Vma) (a : ℕ) (to_ : VmManager) (rest done : List Vma) : Prop where
  vmas : from_.vmaList = rest.reverse ++ v :: done
  areas : to_.vmaList.map Vma.triple = (v :: done).map Vma.triple
  place : Copying.CopyAt m₀ m R D₀ F₀ F₂ fr tr to_ (vmaPages done) v.vmStart v.vmEnd a
  dupVmm : ∃ k', GarretOS.dupVmm k m₀ from_ to₀ = do
    let (m, ret) ← copyLoop fr tr v.vmEnd (k' + 1) m a
    if ret ≠ 0 then return (m, to_, -eNoMem) else dupVmas k m from_ rest to_

section

variable (h₀ : m₀.Consistent (insert tr R) userEntries D₀ F₀) (hfr : fr ∈ R) (hne : fr ≠ tr)
  {v : Vma} {rest : List Vma} {to₀ : VmManager}

include h₀ hfr hne

/-- **The invariant inside an area.** -/
theorem DupAt.known (hk : userEnd / ptSize ≤ k) (hfrom : from_.pGpt = some fr)
    (hok : VmasOk from_.vmaList) (hnil : to₀.vmaList = [])
    (hstart : Copying m₀ m₀ R D₀ F₀ F₂ fr tr to₀ ∅)
    (h : DupAt k from_ to₀ fr tr m₀ v a m to_ rest) :
    ∃ done, DupAt.Known k from_ to₀ m₀ m R D₀ F₀ F₂ fr tr v a to_ rest done := by
  obtain ⟨m₁, to₁, m₂, newVma, hdup, h1, h2, hcopy⟩ := h
  have hat₀ : Copying.VmasAt m₀ m₀ R D₀ F₀ F₂ fr tr to₀ [] :=
    ⟨by simp [hnil], by rwa [vmaPages_nil]⟩
  obtain ⟨done, hlist, hat⟩ := hdup.copying h₀ hfr hne hk hfrom (by simpa using hok) hat₀
  rw [List.reverse_cons, List.append_assoc, List.singleton_append, List.reverse_reverse,
    List.append_nil] at hlist
  rw [← hlist] at hok
  obtain ⟨hs, he, hu⟩ := hok.area v (by simp)
  obtain ⟨hcopying, hareas⟩ := hat.addVma h₀ hok h1 h2
  obtain ⟨hat', k', hk'⟩ := hcopy.copying h₀ hfr hne hs hu.2.2 he hok.fresh (rounds_lt hu hk)
    ⟨.start hs hu.2.1, by rwa [Mm.union_pageRange_self]⟩
  obtain ⟨A, hb⟩ := hcopying.built
  refine ⟨done, hlist.symm, hareas, hat', k', ?_⟩
  have hgpt : from_.gpt = .ok fr := by rw [VmManager.gpt, hfrom]
  have hgpt' : to_.gpt = .ok tr := by rw [VmManager.gpt, hb.gpt]
  rw [dupVmm, hdup.dupVmas_eq, dupVmas, h1, ok_bind]
  simp only [h2, hgpt, hgpt', ok_bind, copyRange_eq ⟨hs, he, hu⟩, hk']

end

namespace DupAt.Known

variable {v : Vma} {rest done : List Vma} {to₀ : VmManager}

/-- An error inside `copy_range` is one of `dup_vmm`. -/
theorem dupVmm_error (h : DupAt.Known k from_ to₀ m₀ m R D₀ F₀ F₂ fr tr v a to_ rest done)
    {e : Fault} (herr : copyStep m fr tr a = .error e) :
    GarretOS.dupVmm k m₀ from_ to₀ = .error e := by
  obtain ⟨k', hdup⟩ := h.dupVmm
  rw [hdup, copyLoop, herr]
  rfl

/-- A failure of `copy_range` is one of `dup_vmm`. -/
theorem dupVmm_fails (h : DupAt.Known k from_ to₀ m₀ m R D₀ F₀ F₂ fr tr v a to_ rest done)
    (hfail : copyStep m fr tr a = .ok (m', -eNoMem, a)) :
    GarretOS.dupVmm k m₀ from_ to₀ = .ok (m', to_, -eNoMem) := by
  have hne : -eNoMem ≠ (0 : ℤ) := by decide
  obtain ⟨k', hdup⟩ := h.dupVmm
  rw [hdup, copyLoop, hfail]
  simp only [ok_bind, hne, ne_eq, not_false_eq_true, if_true]
  rfl

/-- The address is in an area of the child. -/
theorem mem_vmaEntries (h : DupAt.Known k from_ to₀ m₀ m R D₀ F₀ F₂ fr tr v a to_ rest done) :
    getGptx a ∈ vmaEntries to_.vmaList := by
  have hv : v.triple ∈ to_.vmaList.map Vma.triple := by simp [h.areas]
  obtain ⟨w, hw, hwv⟩ := List.mem_map.1 hv
  simp only [Vma.triple, Prod.mk.injEq] at hwv
  refine ⟨w, hw, a, ?_, rfl⟩
  have hle := h.place.cursor.le
  have hlt := h.place.cursor.lt
  simp only [Vma.holds, decide_eq_true_eq]
  omega

/-- The pages that have been copied. -/
theorem mem_pages (h : DupAt.Known k from_ to₀ m₀ m R D₀ F₀ F₂ fr tr v a to_ rest done)
    (hok : VmasOk from_.vmaList) (ha : a % pageSize = 0) (b : ℕ) :
    b / pageSize ∈ vmaPages done ∪ Mm.pageRange v.vmStart a ↔
      (∃ w ∈ from_.vmaList, w.holds b) ∧ v.vmEnd ≤ b ∨ v.vmStart ≤ b ∧ b < a := by
  have hok' := hok
  rw [h.vmas] at hok'
  obtain ⟨hs, he, -⟩ := hok'.area v (by simp)
  have hdone : VmasOk done := ⟨(List.pairwise_append.1 hok'.sorted).2.1.of_cons,
    fun w hw => hok'.area w (by simp [hw])⟩
  have hbefore : ∀ w ∈ rest.reverse, w.vmEnd ≤ v.vmStart := fun w hw =>
    (List.pairwise_append.1 hok'.sorted).2.2 w hw v (by simp)
  have hlt := h.place.cursor.lt
  have hle := h.place.cursor.le
  rw [Set.mem_union, vmaPages_iff hdone]
  refine or_congr ⟨fun ⟨w, hw, hb⟩ => ?_, fun ⟨⟨w, hw, hb⟩, hvb⟩ => ?_⟩ ?_
  · have := hok'.below w hw
    refine ⟨⟨w, by simp [h.vmas, hw], hb⟩, ?_⟩
    simp only [Vma.holds, decide_eq_true_eq] at hb
    omega
  · rw [h.vmas] at hw
    simp only [Vma.holds, decide_eq_true_eq] at hb
    rcases List.mem_append.1 hw with hw | hw
    · -- the areas before `v` end before it
      have := hbefore w hw
      omega
    · rcases List.mem_cons.1 hw with rfl | hw
      · omega
      · exact ⟨w, hw, by simpa [Vma.holds] using hb⟩
  · simp only [Mm.pageRange, Set.mem_ofPred_eq]
    rw [pageSize_eq] at hs ha ⊢
    omega

end DupAt.Known

theorem Mm.slot_of_entry (he : m.entry fr a ≠ none) :
    ∃ s, m.slot fr a = some s ∧ isValid (m.load s) := by
  obtain ⟨pte, he⟩ := Option.ne_none_iff_exists'.1 he
  cases hs : m.slot fr a with
  | none => simp [entry, hs] at he
  | some s => exact ⟨s, rfl, ((Mm.entry_eq_some_iff hs).1 he).1⟩

/-- A page for a table is missing where the parent maps a page. -/
theorem copyStep_no_table {D F : Set ℕ} (h : Mm.Tables m R userEntries D F) (hfr : fr ∈ R)
    (hau : a < userEnd) (he : m.entry fr a ≠ none) (hfail : m.getPte tr a true = .ok (m', none)) :
    copyStep m fr tr a = .ok (m', -eNoMem, a) := by
  obtain ⟨s, hs, hv⟩ := Mm.slot_of_entry he
  rw [copyStep, Mm.getPte_false h hfr (getGptx_user hau), hs, ok_bind]
  simp only [hv, if_true, hfail, ok_bind]
  rfl

/-- A page for the content is missing. -/
theorem copyStep_no_page {D F : Set ℕ} (h : Mm.Tables m R userEntries D F) (hfr : fr ∈ R)
    (hau : a < userEnd) (he : m.entry fr a ≠ none) {q : PtePtr} {m₂ : Mm}
    (hok : m.getPte tr a true = .ok (m₁, some q)) (hfail : m₁.allocPage = .ok (m₂, none)) :
    ∃ e, copyStep m fr tr a = .error e := by
  obtain ⟨s, hs, hv⟩ := Mm.slot_of_entry he
  rw [copyStep, Mm.getPte_false h hfr (getGptx_user hau), hs, ok_bind]
  simp only [hv, if_true, hok, ok_bind]
  cases hpage : pte2page (m₁.load s) with
  | error e => exact ⟨e, rfl⟩
  | ok page => exact ⟨_, by simp only [hfail, ok_bind]; rfl⟩

/-- **The teardown** of a child for which no further table can be made. -/
theorem Copying.teardown (h₀ : m₀.Consistent (insert tr R) userEntries D₀ F₀)
    (h : Copying m₀ m R D₀ F₀ F₂ fr tr to_ S) (hpool : ∀ f ∈ F₂, poolBegin ≤ f ∧ f < poolEnd)
    (hD₀ : ∀ f ∈ F₂, f ∉ D₀) (hF : F₀ ⊆ F₂) (hk : userEnd / ptSize ≤ k) (hau : a < userEnd)
    (hcover : getGptx a ∈ vmaEntries to_.vmaList) (hfail : m.getPte tr a true = .ok (m', none)) :
    ∃ m'' F', GarretOS.teardown k m' to_ = .ok m'' ∧ FreeSet m''.pmm F' ∧ F' ⊆ F₂ ∧
      (F' = F₂ ↔ ∀ b < userEnd, b / pageSize ∈ S → m₀.entry fr b = none) ∧
      Mm.WritesOnly m₀ m'' F₂ := by
  obtain ⟨⟨A, hb⟩, ⟨D, F, hc⟩, hbare⟩ := h
  have hU := getGptx_user hau
  obtain ⟨N, hg, -⟩ := (Mm.getPte_sat hc.consistent.tables (Or.inl rfl) hU true).of_ok hfail
  have hc' := hc.grown h₀ hg
  obtain ⟨Do, Fo, ho⟩ := hb.owned
  obtain ⟨No, hgo, -⟩ := (Mm.getPte_sat ho.consistent.tables ho.root hU true).of_ok hfail
  have hb' : Built R D₀ F₂ m' to_ tr A := hb.fill ⟨_, _, ho.grown hgo⟩
  obtain ⟨m'', h1, h2, h3, h4⟩ := hb'.teardown hpool hD₀ hk
  have htr : tr ∈ F₂ := (hb.records tr List.mem_cons_self).1
  refine ⟨m'', _, h1, h2, Set.sdiff_subset, ?_, ?_⟩
  · rw [sdiff_eq_left, Set.disjoint_left]
    constructor
    · intro hnot b hbu hbS
      by_contra hmap
      obtain ⟨pte, hpte⟩ := Option.ne_none_iff_exists'.1 hmap
      -- the copy of the page hangs in a table of leaf entries, and that one is leaked
      have hcopy := hc'.copied b hbu hbS
      rw [hpte] at hcopy
      obtain ⟨page, -, hentry, -⟩ := hcopy
      have hmapped : m'.entry tr b ≠ none := by simp [hentry]
      obtain ⟨s, hs, -⟩ := Mm.slot_of_entry hmapped
      obtain ⟨f, hf, -⟩ := Option.map_eq_some_iff.1 hs
      have hleaked : f ∈ m'.leaked tr to_.vmaList :=
        Or.inl ⟨_, _, Mm.tablePath_addr (getGptx_user hbu), hf⟩
      exact hnot (h3 hleaked) hleaked
    · intro hnone f _
      obtain ⟨hother, hleaf⟩ :=
        Mm.getPte_none hc.consistent.tables (Or.inl rfl) hU (hbare hnone) hfail
      have hempty : m'.leaked tr to_.vmaList = ∅ := by
        refine (Mm.leaked_eq_empty m' tr to_.vmaList).2 ⟨fun b hbu => ?_, fun i hi hne => ?_⟩
        · rw [Mm.slot, walk]
          by_cases hba : getGptx b = getGptx a
          · cases hf : m'.child tr (getGptx a) with
            | none => rw [hba, hf]; rfl
            | some g => simp only [hba, hf, Option.bind_some, walk, hleaf g hf]; rfl
          · rw [hother _ (getGptx_user hbu) hba]
            rfl
        · by_cases hia : i = getGptx a
          · rwa [hia]
          · exact absurd (hother i hi hia) hne
      rw [hempty]
      exact Set.notMem_empty f
  · refine .trans (fun f hf => ?_) h4
    exact hc'.mem f (fun hm => hf (hF hm)) fun he => hf (he ▸ htr)

end GarretOS
