import GarretOS.Mm.Confined

/-!
# The counters after a teardown

`teardown` gives back pages, tables and records by `free_page` and `free`, which clear the counter
of the page.  So the pages that are free afterwards have no references (`Idle.free`), and those that
other page tables map keep theirs (`Idle.kept`, `teardown_idle`).
-/

namespace GarretOS

open Radix

namespace Mm

variable {m₁ m m' : Mm} {R R₀ D₀ F₀ A D F F₁ G C : Set ℕ} {r p : ℕ}

/-- The pages `G` have no references, and the other ones as many as in `m₁`. -/
structure Idle (m₁ m : Mm) (G : Set ℕ) : Prop where
  free : ∀ p ∈ G, m.ref p = 0
  kept : ∀ p, p ∉ G → m.ref p = m₁.ref p

theorem idle_start (h : Consistent m R userEntries D F) : Idle m m F := ⟨h.unused, fun _ _ => rfl⟩

namespace Idle

/-- **`free_page`** -/
theorem freePage (h : Idle m₁ m G) (hfree : FreeSet m.pmm G) (hpool : poolBegin ≤ p ∧ p < poolEnd)
    (hp : p ∉ G) (heq : m.freePage p = .ok m') : Idle m₁ m' (insert p G) := by
  obtain ⟨m'', heq', -, -, -, href⟩ := freePage_eq hfree hpool.1 hpool.2 hp
  obtain rfl := Except.ok.inj (heq'.symm.trans heq)
  refine ⟨fun q hq => ?_, fun q hq => ?_⟩
  · rw [href]
    split_ifs with hqp
    · rfl
    · exact h.free q (hq.resolve_left hqp)
  · rw [href, if_neg fun hqp => hq (Or.inl hqp), h.kept q fun hm => hq (Or.inr hm)]

/-- **`free`** of a record that takes one page. -/
theorem freeRecord (h : Idle m₁ m G) (hfree : FreeSet m.pmm G) {n : ℕ} (hn : numPages n = 1)
    (hpool : poolBegin ≤ p ∧ p < poolEnd) (hp : p ∉ G) (heq : m.free p n = .ok m') :
    Idle m₁ m' (insert p G) := by
  rw [Mm.free, hn, assert_of ⟨one_pos, by decide⟩, ok_bind, va2page, assert_of hpool] at heq
  exact h.freePage hfree hpool hp heq

/-- A table is cut off, which changes no counter. -/
theorem store (h : Idle m₁ m G) (s : PtePtr) (v : ℕ) : Idle m₁ (m.store s v) G := ⟨h.free, h.kept⟩

end Idle

/-! ### Freeing the tables -/

/-- One round of `free_range`. -/
theorem freeStep_idle (ht : Tables m₁ R userEntries D F₁) (hr : r ∈ R) (h : Unhung m₁ m r F₁ C)
    (hidle : Idle m₁ m (F₁ ∪ m₁.hung r C)) {start next : ℕ} (hau : start < userEnd)
    (heq : freeStep m r start = .ok (m', next)) :
    Idle m₁ m' (F₁ ∪ m₁.hung r (insert (getGptx start) C)) := by
  have hU := getGptx_user hau
  obtain ⟨i, hi⟩ : ∃ i, i = getGptx start := ⟨_, rfl⟩
  rw [freeStep, ← hi] at heq
  rw [← hi] at hU ⊢
  by_cases hv : isValid (m.load (r, i))
  · obtain ⟨f, hf⟩ : ∃ f, f = pte2ppn (m.load (r, i)) := ⟨_, rfl⟩
    have hchild : m.child r i = some f := hf ▸ child_of_valid hv
    have hiC : i ∉ C := by
      intro hC
      rw [h.cut i hU hC] at hchild
      cases hchild
    rw [h.rest i hU hiC] at hchild
    obtain ⟨h1, h2, h3, -⟩ := child_table ht hr hU hchild
    have hnot : f ∉ F₁ ∪ m₁.hung r C := by
      rintro (hF | ⟨j, hjC, hj, hjf⟩)
      · exact h3 hF
      · have hij := path_unique ht hr (tablePath_one hU) (tablePath_one hj)
          ((walk_one m₁ r i).trans hchild) ((walk_one m₁ r j).trans hjf)
        simp only [List.cons.injEq, and_true] at hij
        exact hiC (hij ▸ hjC)
    simp only [hv, if_true, pte2page, assert_of, ok_bind, ← hf, pure, Except.pure] at heq
    obtain ⟨m₂, hm₂, heq⟩ := bind_eq_ok.1 heq
    obtain ⟨m₃, hm₃, hm₂⟩ := bind_eq_ok.1 hm₂
    obtain rfl := Except.ok.inj hm₂
    obtain ⟨rfl, -⟩ := Prod.mk.inj (Except.ok.inj heq)
    rw [hung_insert hU hchild, Set.union_insert]
    exact (hidle.freePage h.free ⟨h1, h2⟩ hnot hm₃).store (r, i) 0
  · have hset : ∀ g, m₁.child r i = some g → i ∈ C := by
      intro g hg
      by_contra hC
      rw [← h.rest i hU hC, child_of_invalid hv] at hg
      cases hg
    simp only [hv, Bool.false_eq_true, if_false, ok_bind] at heq
    obtain ⟨rfl, -⟩ := Prod.mk.inj (Except.ok.inj heq)
    rwa [hung_insert_of hset]

/-- **`free_range`** -/
theorem freeRange_idle (ht : Tables m₁ R userEntries D F₁) (hr : r ∈ R) (h : Unhung m₁ m r F₁ C)
    (hidle : Idle m₁ m (F₁ ∪ m₁.hung r C)) {v : Vma} (hv : v.vmStart % pageSize = 0 ∧
      v.vmEnd % pageSize = 0 ∧ userAccess v.vmStart v.vmEnd) {k : ℕ} (hk : userEnd / ptSize ≤ k) :
    ∃ m', freeRange k m r v.vmStart v.vmEnd = .ok m' ∧
      Unhung m₁ m' r F₁ (C ∪ rangeEntries v.vmStart v.vmEnd) ∧
      Idle m₁ m' (F₁ ∪ m₁.hung r (C ∪ rangeEntries v.vmStart v.vmEnd)) := by
  have hrounds := rounds_lt hv.2.2 hk
  have hround : rounddown v.vmStart pageSize = v.vmStart := by
    rw [rounddown]
    exact Nat.div_mul_cancel (Nat.dvd_of_mod_eq_zero hv.1)
  rw [freeRange, checkRange_eq hv, ok_bind, hround]
  obtain ⟨h0, h1, -, hlt, hstop⟩ := hv
  rw [pageSize_eq] at h0 h1
  have hempty : C ∪ rangeEntries v.vmStart v.vmStart = C := by
    rw [Set.union_eq_left]
    rintro i ⟨a, h2, h3, -⟩
    omega
  have hstep : ∀ m₂ start, start < v.vmEnd → (v.vmStart ≤ start ∧ start % ptSize = 0 ∧
      Unhung m₁ m₂ r F₁ (C ∪ rangeEntries v.vmStart start) ∧
      Idle m₁ m₂ (F₁ ∪ m₁.hung r (C ∪ rangeEntries v.vmStart start))) →
      ∃ m' next, freeStep m₂ r start = .ok (m', next) ∧ start + ptSize ≤ next ∧ next ≤ v.vmEnd ∧
        v.vmStart ≤ next ∧ next % ptSize = 0 ∧
          Unhung m₁ m' r F₁ (C ∪ rangeEntries v.vmStart next) ∧
          Idle m₁ m' (F₁ ∪ m₁.hung r (C ∪ rangeEntries v.vmStart next)) := by
    rintro m₂ start hlt' ⟨hle, h512, h, hidle⟩
    have hau := lt_of_lt_of_le hlt' hstop
    obtain ⟨m', h2, h3, -⟩ := freeStep_unhung ht hr h hau
    have h4 := freeStep_idle ht hr h hidle hau h2
    rw [insert_rangeEntries h512 hle] at h3 h4
    rw [ptSize_eq] at h2 h3 h4 h512 ⊢
    simp only [userEnd] at hstop
    rw [u64_of_lt (by omega)] at h2
    exact ⟨m', _, h2, le_rfl, by omega, by omega, by omega, h3, h4⟩
  obtain ⟨m', h2, -, -, h3, h4⟩ := rangeLoop_eq hstep k hlt hrounds
    ⟨le_rfl, by rw [ptSize_eq]; omega, by rwa [hempty], by rwa [hempty]⟩
  exact ⟨m', h2, h3, h4⟩

/-- **The second loop of `del_vmas`** -/
theorem delVmas_idle (h : Consistent m₁ R userEntries D F₁) (hr : r ∈ R) {vmas : List Vma}
    (hvmas : ∀ v ∈ vmas, v.vmStart % pageSize = 0 ∧ v.vmEnd % pageSize = 0 ∧
      userAccess v.vmStart v.vmEnd) {k : ℕ} (hk : userEnd / ptSize ≤ k)
    (heq : forVmas (fun m v => freeRange k m r v.vmStart v.vmEnd) m₁ vmas = .ok m') :
    Idle m₁ m' (F₁ ∪ m₁.hung r (vmaEntries vmas)) := by
  have hconcat : ∀ done v, vmaEntries (done ++ [v]) =
      vmaEntries done ∪ rangeEntries v.vmStart v.vmEnd := by
    intro done v
    ext i
    simp [vmaEntries, rangeEntries, Vma.holds, or_and_right, exists_or, and_assoc]
  have hstep : ∀ done v m, v ∈ vmas → Unhung m₁ m r F₁ (vmaEntries done) ∧
      Idle m₁ m (F₁ ∪ m₁.hung r (vmaEntries done)) →
      ∃ m', freeRange k m r v.vmStart v.vmEnd = .ok m' ∧
        Unhung m₁ m' r F₁ (vmaEntries (done ++ [v])) ∧
        Idle m₁ m' (F₁ ∪ m₁.hung r (vmaEntries (done ++ [v]))) := by
    rintro done v m hv ⟨hun, hidle⟩
    rw [hconcat]
    exact freeRange_idle h.tables hr hun hidle (hvmas v hv) hk
  have hnil : vmaEntries [] = ∅ := by simp [vmaEntries]
  have hhung : F₁ ∪ m₁.hung r ∅ = F₁ := by simp [hung]
  obtain ⟨m'', h1, -, h2⟩ := forVmas_eq vmas hstep
    ⟨hnil ▸ unhung_start h.tables.free, by rw [hnil, hhung]; exact idle_start h⟩
  obtain rfl := Except.ok.inj (h1.symm.trans heq)
  exact h2

/-! ### Freeing the records -/

/-- The loop of `del_vmm`. -/
theorem forVmas_idle (vmas : List Vma) :
    ∀ {m : Mm} {G : Set ℕ}, FreeSet m.pmm G → Idle m₁ m G → (vmas.map Vma.frame).Nodup →
      (∀ v ∈ vmas, (poolBegin ≤ v.frame ∧ v.frame < poolEnd) ∧ v.frame ∉ G) →
      forVmas (fun m v => m.free v.frame Vma.size) m vmas = .ok m' →
      Idle m₁ m' (G ∪ {f | f ∈ vmas.map Vma.frame}) := by
  induction vmas with
  | nil =>
    intro m G _ hidle _ _ heq
    obtain rfl := Except.ok.inj heq
    simpa using hidle
  | cons v vmas ih =>
    intro m G h hidle hnodup hpool heq
    rw [List.map_cons, List.nodup_cons] at hnodup
    obtain ⟨h1, h2⟩ := hpool v List.mem_cons_self
    obtain ⟨m₂, h3, heq⟩ := bind_eq_ok.1 heq
    obtain ⟨m₃, h3', h4, -⟩ := free_record h (show numPages Vma.size = 1 by decide) h1 h2
    obtain rfl := Except.ok.inj (h3'.symm.trans h3)
    have hidle₂ := hidle.freeRecord h (show numPages Vma.size = 1 by decide) h1 h2 h3
    have hrest := ih h4 hidle₂ hnodup.2 (fun w hw => by
      obtain ⟨h7, h8⟩ := hpool w (List.mem_cons_of_mem v hw)
      refine ⟨h7, ?_⟩
      rintro (heq | hG)
      · exact hnodup.1 (heq ▸ List.mem_map_of_mem hw)
      · exact h8 hG) heq
    convert hrest using 1
    ext f
    simp only [List.map_cons, List.mem_cons, Set.mem_union, Set.mem_ofPred_eq, Set.mem_insert_iff]
    tauto

end Mm

open Mm in
/-- **The counters after the teardown** -/
theorem teardown_idle {m m' : Mm} {R D₀ A D F : Set ℕ} {r : ℕ} {vmm : VmManager}
    (h : m.Owned R D₀ r A ∅ D F) (hareas : AreasOk vmm) (hgpt : vmm.pGpt = some r)
    (hnodup : (vmm.records r).Nodup)
    (hrecords : ∀ f ∈ vmm.records r, (poolBegin ≤ f ∧ f < poolEnd) ∧ f ∉ A) {k : ℕ}
    (hk : userEnd / ptSize ≤ k) (heq : teardown k m vmm = .ok m') :
    ∃ m₁ D₁ F₁, m₁.Owned R D₀ r A ∅ D₁ F₁ ∧ WritesOnly m m₁ (m.tablesOf r) ∧
      ∃ G, FreeSet m'.pmm G ∧ Idle m₁ m' G := by
  obtain ⟨m₁, D₁, F₁, h1, hdel, hw₁⟩ := delVmas_deleted h hareas.area hk
  have hc₁ := hdel.owned.consistent
  obtain ⟨m₂, h2, hunhung, -⟩ := delVmas_unhung hc₁.tables h.root hareas.area hk
  have hidle := delVmas_idle hc₁ h.root hareas.area hk h2
  have hfree := hunhung.free
  rw [freed_eq hdel] at hfree hidle
  have hout : ∀ f ∈ vmm.records r, f ∉ (A \ D₀) \ m.leaked r vmm.vmaList :=
    fun f hf hm => (hrecords f hf).2 hm.1.1
  rw [VmManager.records, List.nodup_cons, List.nodup_cons] at hnodup
  obtain ⟨hr, hframe, hvmas⟩ := hnodup
  have hroot := hrecords r List.mem_cons_self
  have hin : ∀ v ∈ vmm.vmaList, v.frame ∈ vmm.vmaList.map Vma.frame :=
    fun v hv => List.mem_map_of_mem hv
  have hgpt' : vmm.gpt = .ok r := by rw [VmManager.gpt, hgpt]
  -- the calls of the teardown, one after the other
  obtain ⟨m₂', hdelVmas, heq⟩ := bind_eq_ok.1 heq
  obtain ⟨_, -, hdelVmas⟩ := bind_eq_ok.1 hdelVmas
  rw [hgpt', ok_bind, h1, ok_bind, h2] at hdelVmas
  obtain rfl := Except.ok.inj hdelVmas
  obtain ⟨m₃, hgptFree, heq⟩ := bind_eq_ok.1 heq
  rw [freeGpt, hgpt', ok_bind, va2page, assert_of hroot.1, ok_bind] at hgptFree
  obtain ⟨m₃', h3, hfree₃, -, -⟩ := freePage_eq hfree hroot.1.1 hroot.1.2 (hout r (by
    exact List.mem_cons_self))
  obtain rfl := Except.ok.inj (h3.symm.trans hgptFree)
  have hidle₃ := hidle.freePage hfree hroot.1 (hout r List.mem_cons_self) h3
  obtain ⟨m₄, hvmasFree, heq⟩ := bind_eq_ok.1 heq
  have hvma : ∀ v ∈ vmm.vmaList, (poolBegin ≤ v.frame ∧ v.frame < poolEnd) ∧
      v.frame ∉ insert r ((A \ D₀) \ m.leaked r vmm.vmaList) := by
    intro v hv
    have hmem : v.frame ∈ vmm.records r := by simp [VmManager.records, hin v hv]
    refine ⟨(hrecords _ hmem).1, ?_⟩
    rintro (hvr | hm)
    · exact hr (hvr ▸ List.mem_cons_of_mem _ (hin v hv))
    · exact hout _ hmem hm
  obtain ⟨m₄', h4, hfree₄, -⟩ := forVmas_free vmm.vmaList hfree₃ hvmas hvma
  obtain rfl := Except.ok.inj (h4.symm.trans hvmasFree)
  have hidle₄ := forVmas_idle vmm.vmaList hfree₃ hidle₃ hvmas hvma h4
  have hlast : vmm.frame ∉ insert r ((A \ D₀) \ m.leaked r vmm.vmaList) ∪
      {f | f ∈ vmm.vmaList.map Vma.frame} := by
    rintro ((hvr | hm) | hm)
    · exact hr (hvr ▸ List.mem_cons_self)
    · exact hout _ (by simp [VmManager.records]) hm
    · exact hframe hm
  have hpool := (hrecords vmm.frame (by simp [VmManager.records])).1
  obtain ⟨m₅, h5, hfree₅, -⟩ := free_record hfree₄ (show numPages VmManager.size = 1 by decide)
    hpool hlast
  obtain rfl := Except.ok.inj (h5.symm.trans heq)
  exact ⟨m₁, D₁, F₁, hdel.owned, hw₁, _, hfree₅,
    hidle₄.freeRecord hfree₄ (show numPages VmManager.size = 1 by decide) hpool hlast h5⟩

end GarretOS
