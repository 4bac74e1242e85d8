import GarretOS.Proc.TwinPages

/-!
# `load_bin` in two runs

Two runs of `load_bin` on the same image, in memories that differ in the contents of free pages
only, end with the same page table and with the same bytes in the segments (`loadBin_twin`).

* `loadSegments_twin`, `stackPages_twin` : the segments and the user stack;
* `TwinSpace`, `Loaded` : the two runs when `load_bin` has returned `0`.
-/

namespace GarretOS

open Radix Logged Mm

variable {S : ℕ → ℕ → Prop} {C : Set ℕ} {m m' : Mm} {w w' : ℕ → ℕ → ℕ} {R D₀ A D F F₀ : Set ℕ}
  {r addr flags n k : ℕ} {im : Image} {vmm vmm' : VmManager}

/-! ### The segments -/

/-- The number of headers that the loop of `load_bin` visits.  It does not begin when the table of
headers reaches beyond the last address. -/
def Image.numHeaders (im : Image) : ℕ :=
  if u64 (im.bin + im.ePhoff) + ProgHeader.size * im.ePhnum < 2 ^ 64 then im.ePhnum else 0

/-- The addresses of the loadable segments among the first `n` headers. -/
def Image.segments (im : Image) (n : ℕ) : Set ℕ :=
  {a | ∃ i < n, (im.header i).pType = elfPtLoad ∧
    a ∈ Set.Ico (im.header i).pVa ((im.header i).pVa + (im.header i).pMemSize)}

/-- No segment that is loaded reaches beyond the last address. -/
def Image.SegmentsFit (im : Image) : Prop :=
  ∀ i < im.numHeaders, (im.header i).pType = elfPtLoad →
    (im.header i).pVa + (im.header i).pMemSize < 2 ^ 64

theorem Image.segments_zero (im : Image) : im.segments 0 = ∅ :=
  Set.eq_empty_of_forall_notMem fun a ha => by
    obtain ⟨i, hi, -⟩ := ha
    exact absurd hi (Nat.not_lt_zero i)

theorem Image.segments_succ (im : Image) (n : ℕ) : im.segments (n + 1) =
    im.segments n ∪ if (im.header n).pType = elfPtLoad then
      Set.Ico (im.header n).pVa ((im.header n).pVa + (im.header n).pMemSize) else ∅ := by
  ext a
  simp only [Image.segments, Set.mem_union, Set.mem_ofPred_eq, Nat.lt_succ_iff_lt_or_eq,
    or_and_right, exists_or, exists_eq_left]
  refine or_congr Iff.rfl ?_
  split_ifs with htype
  · exact and_iff_right htype
  · exact iff_of_false (fun h => htype h.1) (Set.notMem_empty a)

/-- A header is where its number says, also when the sum before has wrapped around. -/
theorem Image.header_eq (im : Image) (i : ℕ) :
    im.header i = im.progHeader (u64 (im.bin + im.ePhoff) + ProgHeader.size * i) := by
  have hload : ∀ o n, im.load (im.bin + im.ePhoff + ProgHeader.size * i + o) n =
      im.load (u64 (im.bin + im.ePhoff) + ProgHeader.size * i + o) n := by
    intro o n
    simp only [Image.load, Image.at, u64]
    congr 1
    funext j
    congr 2
    omega
  have h0 := hload 0 4
  rw [Nat.add_zero, Nat.add_zero] at h0
  simp only [Image.header, Image.progHeader, hload, h0]

theorem initVma_follows (h : FreeSet m.pmm F) (w : ℕ → ℕ → ℕ) (vmStart vmEnd vmFlags : ℕ) :
    Follows (initVma m vmStart vmEnd vmFlags) (initVma (m.withMem w) vmStart vmEnd vmFlags)
      fun y z => z = (y.1.withMem w, y.2) ∧ y.1.mem = m.mem ∧
        y.1.pmm.freePages ⊆ m.pmm.freePages := by
  refine (malloc_follows h w (show numPages Vma.size = 1 by decide)).bind ?_
  rintro ⟨m₁, frame⟩ _ ⟨rfl, hmem, hfree⟩
  exact follows_pure ⟨rfl, hmem, hfree⟩

/-- `vm_map` takes a page from the allocator at most. -/
theorem vmMap_follows (h : FreeSet m.pmm F) (w : ℕ → ℕ → ℕ) (vmm : VmManager)
    (addr len vmFlags : ℕ) :
    Follows (vmMap m vmm addr len vmFlags) (vmMap (m.withMem w) vmm addr len vmFlags) fun y z =>
      z = (y.1.withMem w, y.2) ∧ y.1.mem = m.mem ∧ y.1.pmm.freePages ⊆ m.pmm.freePages := by
  have hsame : ∀ vmm : VmManager, Follows (pure (m, vmm, -eInval) : Res (Mm × VmManager × ℤ))
      (pure (m.withMem w, vmm, -eInval)) fun y z =>
        z = (y.1.withMem w, y.2) ∧ y.1.mem = m.mem ∧ y.1.pmm.freePages ⊆ m.pmm.freePages :=
    fun vmm => follows_pure ⟨rfl, rfl, subset_rfl⟩
  unfold vmMap
  dsimp only
  split_ifs
  · exact hsame _
  · refine (initVma_follows h w _ _ _).bind ?_
    rintro ⟨m₁, vma⟩ _ ⟨rfl, hmem, hfree⟩
    refine (follows_self (Q := Eq) fun _ _ => rfl).bind ?_
    rintro vmm₂ _ rfl
    exact follows_pure ⟨rfl, hmem, hfree⟩
  · exact hsame vmm

/-- A new area is not mapped yet. -/
theorem Loading.unmapped (h : Loading R D₀ F₀ im n m vmm r) (hf : Filling S (im.segments n) m w r)
    {addr len vmFlags : ℕ} {vma : Vma} (hnew : NewArea m m' vmm vmm' r addr len vmFlags vma)
    (hmem : m'.mem = m.mem) : Unmapped m' r (rounddown addr pageSize) (pagesEnd addr len) := by
  intro b hb hb'
  rw [entry_congr hmem]
  by_contra hne
  obtain ⟨c, ⟨i, hi, htype, hc1, hc2⟩, hcb⟩ := hf.cover b (lt_of_lt_of_le hb' hnew.user.2.2) hne
  obtain ⟨v, hv, htriple⟩ := (h.segment i hi htype).area
  simp only [Vma.triple, Prod.mk.injEq] at htriple
  obtain ⟨hs, he, -⟩ := htriple
  -- the page of `b` belongs to the area of an earlier segment
  refine hnew.disjoint hv (b := b) ⟨?_, ?_⟩ ⟨hb, hb'⟩
  · rw [hs, rounddown, pageSize_eq]
    rw [pageSize_eq] at hcb
    omega
  · rw [he, pagesEnd, pageSize_eq]
    rw [pageSize_eq] at hcb
    omega

/-- A field is read in both runs. -/
theorem readField_follows {α β : Type} {addr len : ℕ} {x : Logged LoadEvent α}
    {y : Logged LoadEvent β} {Q : α → β → Prop} (h : Follows x.result y.result Q) :
    Follows (readField addr len >>= fun _ => x).result
      (readField addr len >>= fun _ => y).result Q :=
  follows_bind (Q := Eq) (follows_self fun _ _ => rfl) fun _ _ _ => h

theorem readField_followsOn {α β : Type} {addr len : ℕ} {x : Logged LoadEvent α}
    {y : Logged LoadEvent β} {G : α → Prop} {Q : α → β → Prop}
    (h : FollowsOn G x.result y.result Q) :
    FollowsOn G (readField addr len >>= fun _ => x).result
      (readField addr len >>= fun _ => y).result Q :=
  followsOn_bind (Q := Eq) (follows_self fun _ _ => rfl) fun _ _ _ => h

/-- **One loadable segment.** -/
theorem loadSegment_twin {prog : ℕ} (hprog : im.header n = im.progHeader prog)
    (htype : (im.header n).pType = elfPtLoad)
    (hwrap : (im.header n).pVa + (im.header n).pMemSize < 2 ^ 64) (k : ℕ)
    (h : Loading R D₀ F₀ im n m vmm r) (hf : Filling S (im.segments n) m w r) :
    Follows (loadSegment k im prog m vmm (im.vmFlags n)).result
      (loadSegment k im prog (m.withMem w) vmm (im.vmFlags n)).result fun y z =>
        ∃ w', z = (y.1.withMem w', y.2) ∧
          (y.2.2.2 = 0 → Filling S (im.segments (n + 1)) y.1 w' r) := by
  have hflags : addVmFlags (im.vmFlags n) (im.header n).pFlags = im.vmFlags (n + 1) := by
    rw [Image.vmFlags, if_pos htype]
  unfold loadSegment
  rw [← hprog]
  simp only [hflags]
  refine readField_follows (readField_follows ?_)
  by_cases hsize : (im.header n).pFileSize > (im.header n).pMemSize
  · rw [if_pos hsize, if_pos hsize]
    exact follows_ok ⟨w, rfl, fun h0 => absurd h0 (show -eInvalElf ≠ 0 by decide)⟩
  rw [if_neg hsize, if_neg hsize]
  refine readField_follows (readField_follows ?_)
  obtain ⟨A, hb⟩ := h.built
  obtain ⟨D, F, ho⟩ := hb.owned
  have hmap := vmMap_follows ho.consistent.tables.free w vmm (im.header n).pVa
    (im.header n).pMemSize (im.vmFlags (n + 1))
  refine follows_bind (hmap.knowing fun _ hres => hres) ?_
  rintro ⟨m₁, vmm₁, ret⟩ _ ⟨hres, rfl, hmem, hfree⟩
  simp only at hmem hfree ⊢
  by_cases hret : ret = 0
  swap
  · rw [if_pos hret, if_pos hret]
    exact follows_ok ⟨w, rfl, fun h0 => absurd h0 hret⟩
  subst hret
  have hzero : ¬ (0 : ℤ) ≠ 0 := by simp
  rw [if_neg hzero, if_neg hzero]
  -- the area has been accepted, so none of its pages is mapped
  obtain ⟨vma, hnew⟩ := vmMap_newArea hb h.map hwrap hres
  obtain ⟨A₁, hb₁⟩ := built_vmMap hb hres
  obtain ⟨D₁, F₁, ho₁⟩ := hb₁.owned
  have hun := h.unmapped hf hnew hmem
  have hf₁ := hf.congr hmem hfree ⟨_, _, _, _, _, ho₁⟩
  have hgpt : vmm₁.gpt = .ok r := by rw [VmManager.gpt, hb₁.gpt]
  refine readField_follows ?_
  refine follows_bind ((follows_self (Q := Eq) fun _ _ => rfl).knowing fun _ hg => hg) ?_
  rintro g _ ⟨hg, rfl⟩
  obtain rfl : r = g := Except.ok.inj (hgpt.symm.trans hg)
  refine follows_bind (fillSegment_twin (areaPteFlags_lt _) hnew.user.2.2 (not_lt.1 hsize) k hf₁
    hun) ?_
  rintro ⟨m₂, ret₂⟩ _ ⟨w₂, rfl, hfill⟩
  refine follows_ok ⟨w₂, rfl, fun h0 => ?_⟩
  rw [im.segments_succ, if_pos htype]
  exact hfill h0

/-- **The headers** from number `n` on. -/
theorem loadSegments_twin (hfit : im.SegmentsFit)
    (htable : u64 (im.bin + im.ePhoff) + ProgHeader.size * im.ePhnum < 2 ^ 64) (k : ℕ)
    {rounds prog progEnd : ℕ}
    (hend : progEnd = u64 (im.bin + im.ePhoff) + ProgHeader.size * im.ePhnum)
    (hprog : prog = u64 (im.bin + im.ePhoff) + ProgHeader.size * n) (hn : n ≤ im.ePhnum)
    (h : Loading R D₀ F₀ im n m vmm r) (hf : Filling S (im.segments n) m w r) :
    Follows (loadSegments k im progEnd rounds prog m vmm (im.vmFlags n)).result
      (loadSegments k im progEnd rounds prog (m.withMem w) vmm (im.vmFlags n)).result fun y z =>
        ∃ w', z = (y.1.withMem w', y.2) ∧ (y.2.2 = 0 →
          Loading R D₀ F₀ im im.ePhnum y.1 y.2.1 r ∧
          Filling S (im.segments im.ePhnum) y.1 w' r) := by
  subst hend hprog
  have hnum : im.numHeaders = im.ePhnum := if_pos htable
  induction rounds generalizing n m w vmm with
  | zero => exact follows_error
  | succ rounds ih =>
    unfold loadSegments
    have hsize : ProgHeader.size = 56 := rfl
    by_cases hlt : n < im.ePhnum
    · have hnext : u64 (u64 (im.bin + im.ePhoff) + ProgHeader.size * n + ProgHeader.size) =
          u64 (im.bin + im.ePhoff) + ProgHeader.size * (n + 1) := by
        rw [hsize] at htable ⊢
        rw [u64_of_lt (by omega)]
        omega
      have hmore : u64 (im.bin + im.ePhoff) + ProgHeader.size * n <
          u64 (im.bin + im.ePhoff) + ProgHeader.size * im.ePhnum := by
        rw [hsize]
        omega
      rw [if_pos hmore, if_pos hmore, hnext]
      refine readField_follows ?_
      rw [← im.header_eq n]
      by_cases htype : (im.header n).pType = elfPtLoad
      · rw [if_neg (not_not.2 htype), if_neg (not_not.2 htype)]
        have hwrap := hfit n (hnum ▸ hlt) htype
        refine follows_bind ((loadSegment_twin (im.header_eq n) htype hwrap k h hf).knowing
          (loadSegment_meets (im.header_eq n) htype hwrap k h).result) ?_
        rintro ⟨m₁, vmm₁, vmFlags₁, ret⟩ _ ⟨hres, w₁, rfl, hf₁⟩
        simp only at hres hf₁ ⊢
        by_cases hret : ret = 0
        · obtain ⟨rfl, h₁⟩ := hres hret
          rw [if_neg (not_not.2 hret), if_neg (not_not.2 hret)]
          exact ih hlt h₁ (hf₁ hret)
        · rw [if_pos hret, if_pos hret]
          exact follows_ok ⟨w₁, rfl, fun h0 => absurd h0 hret⟩
      · -- other headers are skipped
        have hskip : im.vmFlags n = im.vmFlags (n + 1) := by rw [Image.vmFlags, if_neg htype]
        rw [if_pos htype, if_pos htype, hskip]
        refine ih hlt ⟨h.built, h.map, fun i hi ht => ?_⟩ ?_
        · rcases Nat.lt_succ_iff_lt_or_eq.1 hi with hi | rfl
          · exact h.segment i hi ht
          · exact absurd ht htype
        · rw [im.segments_succ, if_neg htype, Set.union_empty]
          exact hf
    · obtain rfl : n = im.ePhnum := by omega
      rw [if_neg (lt_irrefl _), if_neg (lt_irrefl _)]
      exact follows_ok ⟨w, rfl, fun _ => ⟨h, hf⟩⟩

/-- All headers that are visited. -/
theorem loadSegments_twin_all (hfit : im.SegmentsFit) (k : ℕ) (h : Loading R D₀ F₀ im 0 m vmm r)
    (hf : Filling S (im.segments 0) m w r) :
    Follows (loadSegments k im (u64 (u64 (im.bin + im.ePhoff) + ProgHeader.size * im.ePhnum))
        (im.ePhnum + 1) (u64 (im.bin + im.ePhoff)) m vmm 0).result
      (loadSegments k im (u64 (u64 (im.bin + im.ePhoff) + ProgHeader.size * im.ePhnum))
        (im.ePhnum + 1) (u64 (im.bin + im.ePhoff)) (m.withMem w) vmm 0).result fun y z =>
        ∃ w', z = (y.1.withMem w', y.2) ∧ (y.2.2 = 0 →
          Loading R D₀ F₀ im im.numHeaders y.1 y.2.1 r ∧
          Filling S (im.segments im.numHeaders) y.1 w' r) := by
  by_cases htable : u64 (im.bin + im.ePhoff) + ProgHeader.size * im.ePhnum < 2 ^ 64
  · rw [Image.numHeaders, if_pos htable]
    exact loadSegments_twin hfit htable k (u64_of_lt htable) (by rw [Nat.mul_zero, Nat.add_zero])
      (Nat.zero_le _) h hf
  · -- the end of the table is before its begin
    have hnum : im.ePhnum < 2 ^ 16 := Bytes.value_lt (fun _ => UInt8.toNat_lt _) 2
    have hsize : ProgHeader.size = 56 := rfl
    have hlt : u64 (im.bin + im.ePhoff) < 2 ^ 64 := Nat.mod_lt _ (by decide)
    have hstop : ¬ u64 (im.bin + im.ePhoff) <
        u64 (u64 (im.bin + im.ePhoff) + ProgHeader.size * im.ePhnum) := by
      rw [hsize] at htable ⊢
      rw [u64.eq_def (u64 (im.bin + im.ePhoff) + 56 * im.ePhnum)]
      omega
    rw [Image.numHeaders, if_neg htable, loadSegments, loadSegments, if_neg hstop, if_neg hstop]
    exact follows_ok ⟨w, rfl, fun _ => ⟨h, hf⟩⟩

/-! ### The empty address space -/

/-- A root table without user entries is the only table. -/
theorem Mm.isTable_iff_root (hempty : ∀ i ∈ userEntries, ¬ isValid (m.mem r i)) (f : ℕ) :
    m.IsTable r f ↔ f = r := by
  constructor
  · rintro ⟨p, hp, hw⟩
    cases p with
    | nil => exact (Option.some.inj hw).symm
    | cons i p =>
      rw [walk, child_of_invalid (hempty i (hp.2.2 i rfl))] at hw
      cases hw
  · rintro rfl
    exact ⟨[], tablePath_nil, rfl⟩

theorem Mm.entry_of_root (hempty : ∀ i ∈ userEntries, ¬ isValid (m.mem r i)) {a : ℕ}
    (hau : a < userEnd) : m.entry r a = none := by
  have hU : getGptx a ∈ userEntries := getGptx_user hau
  have hw : walk m.child r [getGptx a, getMptx a] = none := by
    rw [walk, child_of_invalid (hempty _ hU)]
    rfl
  rw [entry, slot, hw]
  rfl

theorem initVmm_follows (h : FreeSet m.pmm F) (w : ℕ → ℕ → ℕ) :
    Follows (initVmm m) (initVmm (m.withMem w)) fun y z =>
      z = (y.1.withMem w, y.2) ∧ y.1.mem = m.mem ∧ y.1.pmm.freePages ⊆ m.pmm.freePages := by
  refine (malloc_follows h w (show numPages VmManager.size = 1 by decide)).bind ?_
  rintro ⟨m₁, frame⟩ _ ⟨rfl, hmem, hfree⟩
  exact follows_pure ⟨rfl, hmem, hfree⟩

/-- `alloc_gpt` copies the boot table in both memories. -/
theorem allocGpt_follows (h : FreeSet m.pmm F) (w : ℕ → ℕ → ℕ) (bpt : ℕ) (vmm : VmManager) :
    Follows (allocGpt bpt m vmm) (allocGpt bpt (m.withMem w) vmm) fun y z =>
      ∃ w', z = (y.1.withMem w', y.2) ∧ (y.2.2 = 0 → ∃ page, y.2.1.pGpt = some page ∧
        y.1.mem = Function.update m.mem page (m.mem bpt) ∧
        w' = Function.update w page (w bpt) ∧ y.1.pmm.freePages ⊆ m.pmm.freePages) := by
  refine ((follows_allocPage m w).sat (allocPage_sat h)).bind ?_
  rintro ⟨m₁, _ | page⟩ _ ⟨hal, rfl⟩
  · exact follows_pure ⟨w, rfl, fun h0 => absurd h0 (show -eNoMem ≠ 0 by decide)⟩
  · have hal : Allocated m m₁ F page := hal
    refine (follows_self (Q := Eq) fun _ _ => rfl).bind ?_
    rintro va _ rfl
    refine follows_pure ⟨_, rfl, fun _ => ⟨va, rfl, ?_, rfl, ?_⟩⟩
    · show Function.update m₁.mem va (m₁.mem bpt) = _
      rw [hal.mem]
    · exact freePages_subset h hal.free Set.sdiff_subset

/-- The two runs when the address space has been created. -/
theorem filling_init (h : m.Consistent R userEntries D₀ F₀) {bpt : ℕ}
    (hbpt : ∀ i ∈ userEntries, ¬ isValid (m.mem bpt i)) (hused : bpt ∉ F₀)
    (hw : ∀ f, f ∉ F₀ → w f = m.mem f)
    (hS : ∀ f ∈ F₀, ∀ o < pageSize, S (Bytes.get (m.mem f) o) (Bytes.get (w f) o)) {m₁ m₂ : Mm}
    {vmm₁ vmm₂ : VmManager} (h1 : initVmm m = .ok (m₁, vmm₁))
    (h2 : allocGpt bpt m₁ vmm₁ = .ok (m₂, vmm₂, 0)) (hgpt : vmm₂.pGpt = some r)
    (hmem : m₂.mem = Function.update m.mem r (m.mem bpt))
    (hfree : m₂.pmm.freePages ⊆ m.pmm.freePages) :
    Filling S ∅ m₂ (Function.update w r (w bpt)) r := by
  obtain ⟨r', A, hb, -, -, hempty, -⟩ := built_init h hbpt h1 h2
  obtain rfl : r = r' := Option.some.inj (hgpt.symm.trans hb.gpt)
  obtain ⟨D, F, ho⟩ := hb.owned
  have hnone : ∀ a < userEnd, m₂.entry r a = none := fun a hau => entry_of_root hempty hau
  refine ⟨⟨fun f hf => ?_, fun f hf o hoff => ?_, fun a ha => ha.elim, fun a ha => ha.elim,
    fun a hau _ pte he => ?_⟩, ⟨_, _, _, _, _, ho⟩, fun a hau hne => absurd (hnone a hau) hne⟩
  · -- the only table is the copy of the boot table, which is not on a free page
    obtain rfl := (isTable_iff_root hempty f).1 hf
    rw [hmem, Function.update_self, Function.update_self, hw bpt hused]
  · have hF : f ∈ F := ho.consistent.tables.free.freePages_eq.subset hf
    have hne : f ≠ r := by
      rintro rfl
      exact (ho.consistent.tables.table f ho.root [] f tablePath_nil rfl).1 hF
    rw [hmem, Function.update_of_ne hne, Function.update_of_ne hne]
    exact hS f (h.tables.free.freePages_eq.subset (hfree hf)) o hoff
  · rw [hnone a hau] at he
    cases he

/-! ### The user stack -/

/-- The pages of the stack, where none of them is mapped. -/
theorem stackPages_twin {pages : List (ℕ × String)} (hpages : ∀ p ∈ pages, p.1 < userEnd)
    (hdistinct : pages.Pairwise fun p q => p.1 / pageSize ≠ q.1 / pageSize)
    (h : Twin S C m w r) (ho : ∃ R D₀ A D F, m.Owned R D₀ r A ∅ D F)
    (hnone : ∀ p ∈ pages, m.entry r p.1 = none) :
    Follows (stackPages r pages m) (stackPages r pages (m.withMem w)) fun m' z =>
      ∃ w', z = m'.withMem w' ∧ Twin S C m' w' r ∧ (∃ R D₀ A D F, m'.Owned R D₀ r A ∅ D F) ∧
        (∀ b < userEnd, (∀ p ∈ pages, b / pageSize ≠ p.1 / pageSize) →
          m'.entry r b = m.entry r b) ∧
        ∀ p ∈ pages, ∃ pte, m'.entry r p.1 = some pte ∧ pteFlags pte = pteV ||| pteUser := by
  induction pages generalizing m w with
  | nil => exact follows_ok ⟨w, rfl, h, ho, fun _ _ _ => rfl, by simp⟩
  | cons p pages ih =>
    obtain ⟨R, D₀, A, D, F, ho⟩ := ho
    have hp := hpages p List.mem_cons_self
    obtain ⟨hne, hdistinct⟩ := List.pairwise_cons.1 hdistinct
    refine (h.allocPageGpte ho hp (show pteUser < 1024 by decide)
      (hnone p List.mem_cons_self)).bind ?_
    rintro ⟨m₁, page⟩ _ ⟨hadd, w₁, rfl, h₁⟩
    refine ((follows_self (Q := Eq) fun _ _ => rfl).knowing
      (P := fun _ => page ≠ none) fun _ hok => assert_eq_ok.1 hok).bind ?_
    rintro _ _ ⟨hsome, -⟩
    obtain ⟨q, rfl⟩ := Option.ne_none_iff_exists'.1 hsome
    have helse : ∀ b < userEnd, b / pageSize ≠ p.1 / pageSize → m₁.entry r b = m.entry r b :=
      fun b hb hbp => hadd.elsewhere b hb fun he => absurd he hbp
    refine (ih (fun t ht => hpages t (List.mem_cons_of_mem _ ht)) hdistinct h₁ hadd.owned
      fun t ht => ?_).mono ?_
    · rw [helse t.1 (hpages t (List.mem_cons_of_mem _ ht)) fun he => hne t ht he.symm]
      exact hnone t (List.mem_cons_of_mem _ ht)
    rintro m' _ ⟨w', rfl, h', ho', hkeep, hstack⟩
    refine ⟨w', rfl, h', ho', fun b hb hall => ?_, ?_⟩
    · rw [hkeep b hb fun t ht => hall t (List.mem_cons_of_mem _ ht),
        helse b hb (hall p List.mem_cons_self)]
    · rintro t (_ | ⟨_, ht⟩)
      · -- later pages do not change the entry of this one
        obtain ⟨hlt, hentry⟩ := hadd.entry q rfl
        rw [poolEnd_eq] at hlt
        refine ⟨_, (hkeep p.1 hp hne).trans hentry, pteFlags_ppn2pte (by omega) (by decide)⟩
      · exact hstack t ht

/-- The pages of the stack that are mapped in advance. -/
def stackArea : Set ℕ := Set.Ico (userStackEnd - 4 * pageSize) userStackEnd

theorem mem_stackArea_iff {a : ℕ} (hau : a < userEnd) :
    a ∈ stackArea ↔ ∃ p ∈ userStackPages, a / pageSize = p.1 / pageSize := by
  simp only [stackArea, Set.mem_Ico, userStackPages, List.mem_cons, List.not_mem_nil, or_false,
    exists_eq_or_imp, exists_eq_left, userStackEnd, userEnd, pageSize_eq] at hau ⊢
  omega

/-- The address space of a process in two runs. -/
structure TwinSpace (S : ℕ → ℕ → Prop) (C : Set ℕ) (m : Mm) (w : ℕ → ℕ → ℕ) (vmm : VmManager)
    (r : ℕ) : Prop where
  gpt : vmm.pGpt = some r
  areas : AreasOk vmm
  owned : ∃ R D₀ A D F, m.Owned R D₀ r A ∅ D F
  twin : Twin S C m w r

/-- The two runs when `load_bin` has returned `0`. -/
structure Loaded (S : ℕ → ℕ → Prop) (im : Image) (m : Mm) (w : ℕ → ℕ → ℕ) (vmm : VmManager)
    (r : ℕ) : Prop extends TwinSpace S (im.segments im.numHeaders) m w vmm r where
  /-- The pages of the segments and of the stack are mapped, and no others. -/
  cover : ∀ a < userEnd, m.entry r a ≠ none →
    a ∈ stackArea ∨ ∃ b ∈ im.segments im.numHeaders, b / pageSize = a / pageSize
  stack : ∀ a ∈ stackArea, a ∉ im.segments im.numHeaders ∧
    ∃ pte, m.entry r a = some pte ∧ pteFlags pte = pteV ||| pteUser
  segment : ∀ i < im.numHeaders, (im.header i).pType = elfPtLoad → ∀ x < (im.header i).pMemSize,
    ∃ pte, m.entry r ((im.header i).pVa + x) = some pte ∧
      pteFlags pte = areaPteFlags (im.vmFlags (i + 1))

/-- The user stack comes after the segments. -/
theorem Loading.loaded (h : Loading R D₀ F₀ im im.numHeaders m vmm r)
    (hf : Filling S (im.segments im.numHeaders) m w r) {vmFlags : ℕ}
    (hres : vmMap m vmm userStackBegin userStackSize vmFlags = .ok (m', vmm', 0))
    (hmem : m'.mem = m.mem) (hfree : m'.pmm.freePages ⊆ m.pmm.freePages) (useCount : ℕ) :
    Follows (stackPages r userStackPages m') (stackPages r userStackPages (m'.withMem w))
      fun y z => ∃ w', z = y.withMem w' ∧ Loaded S im y w' { vmm' with useCount } r := by
  obtain ⟨A, hb⟩ := h.built
  obtain ⟨vma, hnew⟩ := vmMap_newArea hb h.map (by decide) hres
  obtain ⟨A₁, hb₁⟩ := built_vmMap hb hres
  obtain ⟨D₁, F₁, ho₁⟩ := hb₁.owned
  have hf₁ := hf.congr hmem hfree ⟨_, _, _, _, _, ho₁⟩
  have hun := h.unmapped hf hnew hmem
  rw [show rounddown userStackBegin pageSize = userStackBegin from by decide,
    show pagesEnd userStackBegin userStackSize = userEnd from by decide] at hun
  have hlow : ∀ p ∈ userStackPages, userStackBegin ≤ p.1 ∧ p.1 < userEnd := by decide
  refine ((stackPages_twin (fun p hp => (hlow p hp).2) (by decide) hf₁.twin hf₁.owned fun p hp =>
    hun p.1 (hlow p hp).1 (hlow p hp).2).knowing fun y hy => h.stack hres hy).mono ?_
  rintro m₂ z ⟨hload, w₂, rfl, ht, ho, hkeep, hstack⟩
  refine ⟨w₂, rfl, ⟨hb₁.gpt, ⟨hnew.map.area, hnew.map.curr⟩, ho, ht⟩, fun a hau hne => ?_,
    fun a ha => ?_, fun i hi htype x hx => ?_⟩
  · by_cases ha : a ∈ stackArea
    · exact Or.inl ha
    · rw [mem_stackArea_iff hau] at ha
      rw [hkeep a hau fun p hp he => ha ⟨p, hp, he⟩] at hne
      exact Or.inr (hf₁.cover a hau hne)
  · have hau : a < userEnd := ha.2
    obtain ⟨p, hp, hap⟩ := (mem_stackArea_iff hau).1 ha
    obtain ⟨pte, he, hflags⟩ := hstack p hp
    refine ⟨fun hseg => (hf₁.twin.mapped a hseg).2 (hun a ?_ hau), pte, ?_, hflags⟩
    · exact le_trans (by decide) ha.1
    · rw [entry_congr_page (hlow p hp).2 hau hap, he]
  · have hbyte := (hload.segment i hi htype).bytes x hx
    obtain ⟨pte, he, hpte⟩ := Option.map_eq_some_iff.1 hbyte
    exact ⟨pte, he, congrArg Prod.fst hpte⟩

/-! ### The function -/

/-- **`load_bin`** in two memories that differ in the contents of free pages only. -/
theorem loadBin_twin (h : m.Consistent R userEntries D₀ F₀) {bpt : ℕ}
    (hbpt : ∀ i ∈ userEntries, ¬ isValid (m.mem bpt i)) (hused : bpt ∉ F₀) (hfit : im.SegmentsFit)
    (hw : ∀ f, f ∉ F₀ → w f = m.mem f)
    (hS : ∀ f ∈ F₀, ∀ o < pageSize, S (Bytes.get (m.mem f) o) (Bytes.get (w f) o)) (k : ℕ)
    (sstatus : Riscv.Word) :
    FollowsOn (fun y => y.2.2 = 0) (loadBin k im bpt sstatus m).result
      (loadBin k im bpt sstatus (m.withMem w)).result fun y z => ∃ w' vmm frame r,
        y.2 = (some (vmm, frame), 0) ∧ z = (y.1.withMem w', y.2) ∧ Loaded S im y.1 w' vmm r := by
  have hfail : ∀ {x : Logged LoadEvent (Mm × Option (VmManager × UserFrame) × ℤ)}
      {y : Res (Mm × Option (VmManager × UserFrame) × ℤ)} {Q},
      Meets x (fun _ => True) (fun _ => True) (fun y => y.2.2 ≠ 0) →
        FollowsOn (fun y => y.2.2 = 0) x.result y Q := fun hx => followsOn_of_not hx.result
  unfold loadBin
  -- the address space
  refine followsOn_bind ((initVmm_follows h.tables.free w).knowing fun _ h1 => h1) ?_
  rintro ⟨m₁, vmm₁⟩ _ ⟨h1, rfl, hmem₁, hfree₁⟩
  have ha₁ := ((malloc_record h).of_ok h1).1
  refine followsOn_bind ((allocGpt_follows ha₁.free w bpt vmm₁).knowing fun _ h2 => h2) ?_
  rintro ⟨m₂, vmm₂, ret₂⟩ _ ⟨h2, w₂, rfl, hcopy⟩
  simp only at hmem₁ hfree₁ hcopy ⊢
  by_cases hret₂ : ret₂ = 0
  swap
  · rw [if_pos hret₂]
    exact hfail ((meets_any _).bind fun _ _ => meets_pure (show -eNoMem ≠ 0 by decide))
  subst hret₂
  have hzero : ¬ (0 : ℤ) ≠ 0 := by simp
  rw [if_neg hzero, if_neg hzero]
  obtain ⟨r, hgpt, hmem₂, rfl, hfree₂⟩ := hcopy rfl
  rw [hmem₁] at hmem₂
  have hf₂ : Filling S (im.segments 0) m₂ (Function.update w r (w bpt)) r := by
    rw [im.segments_zero]
    exact filling_init h hbpt hused hw hS h1 h2 hgpt hmem₂ (hfree₂.trans hfree₁)
  obtain ⟨r', h₂⟩ : ∃ r, Loading R D₀ F₀ im 0 m₂ vmm₂ r := loading_init h hbpt h1 h2
  obtain rfl : r = r' := by
    obtain ⟨A, hb⟩ := h₂.built
    exact Option.some.inj (hgpt.symm.trans hb.gpt)
  refine readField_followsOn ?_
  by_cases hmagic : im.eMagic = elfMagic
  swap
  · rw [if_pos hmagic]
    exact hfail ((meets_any _).bind fun _ _ => (meets_any _).bind fun _ _ =>
      meets_pure (show -eInvalElf ≠ 0 by decide))
  rw [if_neg (not_not.2 hmagic), if_neg (not_not.2 hmagic)]
  -- the segments
  refine readField_followsOn (readField_followsOn ?_)
  refine followsOn_bind (loadSegments_twin_all hfit k h₂ hf₂) ?_
  rintro ⟨m₃, vmm₃, ret₃⟩ _ ⟨w₃, rfl, hres₃⟩
  simp only at hres₃ ⊢
  by_cases hret₃ : ret₃ = 0
  swap
  · rw [if_pos hret₃]
    exact hfail ((meets_any _).bind fun _ _ => meets_pure hret₃)
  obtain ⟨h₃, hf₃⟩ := hres₃ hret₃
  rw [if_neg (not_not.2 hret₃), if_neg (not_not.2 hret₃)]
  -- the stack
  obtain ⟨A₃, hb₃⟩ := h₃.built
  obtain ⟨D, F, ho₃⟩ := hb₃.owned
  refine followsOn_bind ((vmMap_follows ho₃.consistent.tables.free w₃ vmm₃ userStackBegin
    userStackSize (vmaRead ||| vmaWrite ||| vmaStack)).knowing fun _ h4 => h4) ?_
  rintro ⟨m₄, vmm₄, ret₄⟩ _ ⟨h4, rfl, hmem₄, hfree₄⟩
  simp only at hmem₄ hfree₄ ⊢
  by_cases hret₄ : ret₄ = 0
  swap
  · rw [if_pos hret₄]
    exact hfail ((meets_any _).bind fun _ _ => meets_pure (show -eNoMem ≠ 0 by decide))
  subst hret₄
  rw [if_neg hzero, if_neg hzero]
  obtain ⟨A₄, hb₄⟩ := built_vmMap hb₃ h4
  have hgpt₄ : vmm₄.gpt = .ok r := by rw [VmManager.gpt, hb₄.gpt]
  refine followsOn_bind ((follows_self (Q := Eq) fun _ _ => rfl).knowing fun _ hg => hg) ?_
  rintro g _ ⟨hg, rfl⟩
  obtain rfl : r = g := Except.ok.inj (hgpt₄.symm.trans hg)
  refine followsOn_bind (h₃.loaded hf₃ h4 hmem₄ hfree₄ (vmm₄.useCount + 1)) ?_
  rintro m₅ _ ⟨w₅, rfl, hload⟩
  refine readField_followsOn (Follows.on ?_)
  exact follows_ok ⟨w₅, _, _, r, rfl, rfl, hload⟩

end GarretOS
