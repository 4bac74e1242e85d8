import GarretOS.Mm.AddressSpace
import GarretOS.Proc.FillPages

/-!
# Loading the segments of a program

The loop of `load_bin` over the program headers, for images whose segments do not reach beyond the
last address (`Image.NoWrap`): after it every segment has its area, with the permissions that
`vm_flags` has got by then (`Image.vmFlags`), and its pages with its bytes (`SegmentReady`).

* `Loading` : the invariant of the loop; a later segment changes nothing in the pages of an earlier
  one, since their areas are disjoint;
* `loadSegment_meets`, `loadSegments_meets` : one header, and all of them;
* `loadBin_meets` : the whole function, with the user stack.
-/

namespace GarretOS

open Logged

/-! ### What is to be loaded -/

/-- The program headers belong to the image. -/
def Image.TableInside (im : Image) : Prop :=
  im.ePhnum = 0 ∨ im.ePhoff + ProgHeader.size * im.ePhnum ≤ im.size

/-- No loadable segment reaches beyond the last address. -/
def Image.NoWrap (im : Image) : Prop :=
  ∀ i < im.ePhnum, (im.header i).pType = elfPtLoad →
    (im.header i).pVa + (im.header i).pMemSize < 2 ^ 64

/-- `vm_flags` when the headers before the one with the number `i` have been loaded. -/
def Image.vmFlags (im : Image) : ℕ → ℕ
  | 0 => 0
  | i + 1 => if (im.header i).pType = elfPtLoad then addVmFlags (im.vmFlags i) (im.header i).pFlags
    else im.vmFlags i

/-- The segment with the number `i` has its area and its pages. -/
structure SegmentReady (im : Image) (i : ℕ) (m : Mm) (vmm : VmManager) (r : ℕ) : Prop where
  area : ∃ v ∈ vmm.vmaList, v.triple = (rounddown (im.header i).pVa pageSize,
    pagesEnd (im.header i).pVa (im.header i).pMemSize, im.vmFlags (i + 1))
  bytes : ∀ x < (im.header i).pMemSize, m.userByte r ((im.header i).pVa + x) =
    some (areaPteFlags (im.vmFlags (i + 1)), im.segmentByte (im.header i) x)

/-- The first `n` headers have been loaded. -/
structure Loading (R D₀ F₀ : Set ℕ) (im : Image) (n : ℕ) (m : Mm) (vmm : VmManager) (r : ℕ) :
    Prop where
  built : ∃ A, Built R D₀ F₀ m vmm r A
  map : MapOk vmm
  segment : ∀ i < n, (im.header i).pType = elfPtLoad → SegmentReady im i m vmm r

theorem areaPteFlags_lt (vmFlags : ℕ) : areaPteFlags vmFlags < 1024 := by
  unfold areaPteFlags
  split_ifs <;> decide

theorem pteV_or_areaPteFlags (vmFlags : ℕ) :
    pteV ||| areaPteFlags vmFlags = areaPteFlags vmFlags := by
  unfold areaPteFlags
  split_ifs <;> decide

variable {im : Image} {m m' : Mm} {vmm vmm' : VmManager} {R D₀ F₀ A : Set ℕ} {r i n : ℕ}

/-- The addresses of a segment are user addresses. -/
theorem SegmentReady.lt_userEnd (h : SegmentReady im i m vmm r) (hmap : MapOk vmm) {x : ℕ}
    (hx : x < (im.header i).pMemSize) : (im.header i).pVa + x < userEnd := by
  obtain ⟨v, hv, htriple⟩ := h.area
  obtain ⟨-, -, -, -, hend⟩ := hmap.area v hv
  have hle := le_pagesEnd (im.header i).pVa (im.header i).pMemSize
  have heq : v.vmEnd = pagesEnd (im.header i).pVa (im.header i).pMemSize :=
    congrArg (fun t : ℕ × ℕ × ℕ => t.2.1) htriple
  omega

/-- A segment stays as it is when nothing changes inside its area. -/
theorem SegmentReady.keep (h : SegmentReady im i m vmm r) (hmap : MapOk vmm)
    (hsub : ∀ v ∈ vmm.vmaList, v ∈ vmm'.vmaList) (hkeep : ∀ v ∈ vmm.vmaList, ∀ b < userEnd,
      b ∈ Set.Ico v.vmStart v.vmEnd → m'.userByte r b = m.userByte r b) :
    SegmentReady im i m' vmm' r := by
  obtain ⟨v, hv, htriple⟩ := h.area
  refine ⟨⟨v, hsub v hv, htriple⟩, fun x hx => ?_⟩
  have hround : rounddown (im.header i).pVa pageSize ≤ (im.header i).pVa := Nat.div_mul_le_self ..
  have hle := le_pagesEnd (im.header i).pVa (im.header i).pMemSize
  obtain ⟨hs, he, -⟩ : v.vmStart = rounddown (im.header i).pVa pageSize ∧
      v.vmEnd = pagesEnd (im.header i).pVa (im.header i).pMemSize ∧
      v.vmFlags = im.vmFlags (i + 1) := by
    simpa only [Vma.triple, Prod.mk.injEq] using htriple
  rw [hkeep v hv _ (h.lt_userEnd hmap hx) ⟨by omega, by omega⟩, h.bytes x hx]

/-! ### Areas -/

/-- A new area of a program that is being loaded. -/
structure NewArea (m m' : Mm) (vmm vmm' : VmManager) (r addr len vmFlags : ℕ) (vma : Vma) :
    Prop where
  triple : vma.triple = (rounddown addr pageSize, pagesEnd addr len, vmFlags)
  user : userAccess (rounddown addr pageSize) (pagesEnd addr len)
  perm : vmm'.vmaList.Perm (vma :: vmm.vmaList)
  map : MapOk vmm'
  /-- It is not one of the old areas. -/
  gap : ∀ v ∈ vmm.vmaList, ¬ v.holds (rounddown addr pageSize)
  bytes : ∀ b, m'.userByte r b = m.userByte r b

/-- The old areas are disjoint from the new one. -/
theorem NewArea.disjoint {addr len vmFlags : ℕ} {vma : Vma}
    (h : NewArea m m' vmm vmm' r addr len vmFlags vma) {v : Vma} (hv : v ∈ vmm.vmaList) {b : ℕ}
    (hb : b ∈ Set.Ico v.vmStart v.vmEnd) :
    ¬ (rounddown addr pageSize ≤ b ∧ b < pagesEnd addr len) := by
  rintro ⟨h1, h2⟩
  have htriple := h.triple
  simp only [Vma.triple, Prod.mk.injEq] at htriple
  obtain ⟨hs, he, -⟩ := htriple
  have hmem : v ∈ vmm'.vmaList := h.perm.mem_iff.2 (List.mem_cons_of_mem _ hv)
  have hmem' : vma ∈ vmm'.vmaList := h.perm.mem_iff.2 List.mem_cons_self
  have heq := h.map.sorted.eq_of_mem hmem hmem' hb ⟨by omega, by omega⟩
  subst heq
  exact h.gap v hv (Vma.holds_iff_mem.2 ⟨by omega, by rw [he]; exact h.user.2.1⟩)

/-- What `vm_map` does when it returns `0` for a range that ends before the last address. -/
theorem vmMap_newArea (hb : Built R D₀ F₀ m vmm r A) (hmap : MapOk vmm) {addr len vmFlags : ℕ}
    (hlen : addr + len < 2 ^ 64) (hres : vmMap m vmm addr len vmFlags = .ok (m', vmm', 0)) :
    ∃ vma, NewArea m m' vmm vmm' r addr len vmFlags vma := by
  have hmap' := hmap.vmMap hres
  by_cases hua : userAccess (rounddown addr pageSize) (mapEnd addr len)
  swap
  · rw [vmMap_of_not_user hua] at hres
    cases hres
  have hend : mapEnd addr len = pagesEnd addr len := by
    rcases mapEnd_cases addr len with hend | ⟨-, hwrap | hzero⟩
    · exact hend
    · omega
    · have := hua.2.1
      omega
  by_cases hgap : ∀ v ∈ vmm.vmaList, ¬ v.holds (rounddown addr pageSize)
  swap
  · simp only [not_forall, not_not] at hgap
    obtain ⟨v, hv, hholds⟩ := hgap
    rw [vmMap_of_holds hmap hua hv hholds] at hres
    cases hres
  obtain ⟨c, hc, -⟩ := findVma_keeps hmap.curr (rounddown addr pageSize)
  rw [vmMap_of_gap hmap hua hgap, hc] at hres
  obtain ⟨⟨m₁, frame⟩, hmalloc, hres⟩ := bind_eq_ok.1 hres
  obtain ⟨vmm₁, hadd, hres⟩ := bind_eq_ok.1 hres
  cases hres
  have hs : VmaSorted { vmm with vmaCurr := c }.vmaList := hmap.sorted
  obtain ⟨-, -, hperm, -⟩ := hs.addVma hmap.nonempty hadd
  obtain ⟨D, F, ho⟩ := hb.owned
  obtain ⟨ha, -⟩ := (Mm.malloc_sat ho.consistent.tables.free
    (show Mm.numPages Vma.size = 1 by decide)).of_ok hmalloc
  refine ⟨_, by rw [← hend]; rfl, hend ▸ hua, hperm, hmap', hgap, fun b => ?_⟩
  rw [Mm.userByte, Mm.userByte, Mm.entry_congr ha.mem, ha.mem]

/-! ### Headers -/

/-- The next segment has been filled. -/
theorem Loading.next {m₁ : Mm} {vma : Vma} (h : Loading R D₀ F₀ im n m vmm r)
    (hnew : NewArea m m₁ vmm vmm' r (im.header n).pVa (im.header n).pMemSize (im.vmFlags (n + 1)) vma)
    (hres : vmMap m vmm (im.header n).pVa (im.header n).pMemSize (im.vmFlags (n + 1)) =
      .ok (m₁, vmm', 0))
    (hfill : SegmentFilled im (im.header n) m₁ m' r (areaPteFlags (im.vmFlags (n + 1))))
    (hown : ∃ A, Built R D₀ F₀ m' vmm' r A) : Loading R D₀ F₀ im (n + 1) m' vmm' r := by
  refine ⟨hown, hnew.map, fun i hi htype => ?_⟩
  rcases Nat.lt_succ_iff_lt_or_eq.1 hi with hlt | rfl
  · refine (h.segment i hlt htype).keep h.map
      (fun v hv => hnew.perm.mem_iff.2 (List.mem_cons_of_mem _ hv)) fun v hv b hbu hbv => ?_
    rw [hfill.outside b hbu (hnew.disjoint hv hbv), hnew.bytes b]
  · exact ⟨⟨vma, hnew.perm.mem_iff.2 List.mem_cons_self, hnew.triple⟩, hfill.bytes⟩

theorem meets_readField_inPage {addr len : ℕ} :
    Meets (readField addr len) LoadEvent.InPage NotTail fun _ => True := meets_readField trivial

/-- **One loadable segment.** -/
theorem loadSegment_meets {prog : ℕ} (hprog : im.header n = im.progHeader prog)
    (htype : (im.header n).pType = elfPtLoad)
    (hwrap : (im.header n).pVa + (im.header n).pMemSize < 2 ^ 64) (k : ℕ)
    (h : Loading R D₀ F₀ im n m vmm r) :
    Meets (loadSegment k im prog m vmm (im.vmFlags n)) LoadEvent.InPage NotTail fun res =>
      res.2.2.2 = 0 → res.2.2.1 = im.vmFlags (n + 1) ∧
        Loading R D₀ F₀ im (n + 1) res.1 res.2.1 r := by
  have hflags : addVmFlags (im.vmFlags n) (im.header n).pFlags = im.vmFlags (n + 1) := by
    rw [Image.vmFlags, if_pos htype]
  unfold loadSegment
  rw [← hprog]
  simp only [hflags]
  refine meets_readField_inPage.bind fun _ _ => meets_readField_inPage.bind fun _ _ => ?_
  -- `p_file_size > p_mem_size` is refused
  by_cases hsize : (im.header n).pFileSize > (im.header n).pMemSize
  · rw [if_pos hsize]
    exact meets_pure fun h0 => absurd h0 (show -eInvalElf ≠ 0 by decide)
  rw [if_neg hsize]
  refine meets_readField_inPage.bind fun _ _ => meets_readField_inPage.bind fun _ _ => ?_
  refine (meets_lift (notTail_of_avoids (vmMap_avoids mm_ne_tail m vmm _ _ _)) fun res hres =>
    hres).bind ?_
  rintro ⟨m₁, vmm₁, ret⟩ hres
  simp only
  -- `vm_map` fails
  by_cases hret : ret = 0
  swap
  · rw [if_pos hret]
    exact meets_pure fun h0 => absurd h0 hret
  subst hret
  rw [if_neg (by simp)]
  obtain ⟨A, hb⟩ := h.built
  obtain ⟨vma, hnew⟩ := vmMap_newArea hb h.map hwrap hres
  obtain ⟨A₁, hb₁⟩ := built_vmMap hb hres
  refine meets_readField_inPage.bind fun _ _ => ?_
  refine (meets_lift (notTail_of_avoids (VmManager.gpt_avoids vmm₁)) fun g hg => hg).bind ?_
  intro g hg
  obtain rfl : r = g := by
    rw [VmManager.gpt, hb₁.gpt] at hg
    exact Except.ok.inj hg
  have hend : (im.header n).pVa + (im.header n).pMemSize ≤ userEnd :=
    (le_pagesEnd _ _).trans hnew.user.2.2
  refine (fillSegment_meets im (areaPteFlags_lt _) hend (not_lt.1 hsize) k hb₁.owned).bind ?_
  rintro ⟨m₂, ret₂⟩ hfill
  refine meets_pure fun h0 => ⟨rfl, ?_⟩
  obtain ⟨ho, hfill⟩ := hfill h0
  rw [pteV_or_areaPteFlags] at hfill
  exact h.next hnew hres hfill ⟨A₁, hb₁.fill ho⟩

/-- **The headers** from number `n` on. -/
theorem loadSegments_meets (htable : im.ePhoff + ProgHeader.size * im.ePhnum ≤ im.size)
    (hwrap : im.NoWrap) (k : ℕ) {rounds prog progEnd : ℕ}
    (hend : progEnd = im.bin + im.ePhoff + ProgHeader.size * im.ePhnum)
    (hprog : prog = im.bin + im.ePhoff + ProgHeader.size * n) (hn : n ≤ im.ePhnum)
    (h : Loading R D₀ F₀ im n m vmm r) :
    Meets (loadSegments k im progEnd rounds prog m vmm (im.vmFlags n)) LoadEvent.InPage NotTail
      fun res => res.2.2 = 0 → Loading R D₀ F₀ im im.ePhnum res.1 res.2.1 r := by
  subst hend hprog
  induction rounds generalizing n m vmm with
  | zero => exact meets_lift (fun f hf => by cases hf; simp [NotTail]) fun _ h => by cases h
  | succ rounds ih =>
    unfold loadSegments
    have hfits := im.fits.1
    have hsize : ProgHeader.size = 56 := rfl
    by_cases hlt : n < im.ePhnum
    · have hnext : u64 (im.bin + im.ePhoff + ProgHeader.size * n + ProgHeader.size) =
          im.bin + im.ePhoff + ProgHeader.size * (n + 1) := by
        rw [hsize] at htable ⊢
        rw [u64_of_lt (by omega)]
        omega
      rw [if_pos (by rw [hsize]; omega), hnext]
      refine meets_readField_inPage.bind fun _ _ => ?_
      rw [show im.progHeader (im.bin + im.ePhoff + ProgHeader.size * n) = im.header n from rfl]
      by_cases htype : (im.header n).pType = elfPtLoad
      · rw [if_neg (not_not.2 htype)]
        refine (loadSegment_meets rfl htype (hwrap n hlt htype) k h).bind ?_
        rintro ⟨m₁, vmm₁, vmFlags₁, ret⟩ hres
        simp only at hres ⊢
        by_cases hret : ret = 0
        · obtain ⟨rfl, h₁⟩ := hres hret
          rw [if_neg (not_not.2 hret)]
          exact ih hlt h₁
        · rw [if_pos hret]
          exact meets_pure fun h0 => absurd h0 hret
      · -- other headers are skipped
        have hskip : im.vmFlags n = im.vmFlags (n + 1) := by rw [Image.vmFlags, if_neg htype]
        rw [if_pos htype, hskip]
        refine ih hlt ⟨h.built, h.map, fun i hi ht => ?_⟩
        rcases Nat.lt_succ_iff_lt_or_eq.1 hi with hi | rfl
        · exact h.segment i hi ht
        · exact absurd ht htype
    · obtain rfl : n = im.ePhnum := by omega
      rw [if_neg (lt_irrefl _)]
      exact meets_pure fun _ => h

/-! ### The user stack -/

theorem stackPages_avoids {C : List String} (hC : ∀ c ∈ mmAssertions, c ∉ C) (g : ℕ)
    {pages : List (ℕ × String)} (h : ∀ p ∈ pages, p.2 ∉ C) (m : Mm) :
    Avoids C (stackPages g pages m) := by
  induction pages generalizing m with
  | nil => exact avoids_ok
  | cons p pages ih =>
    refine (Mm.allocPageGpte_avoids hC m g p.1 pteUser).bind ?_
    rintro ⟨m₁, page⟩ -
    exact (avoids_assert fun hc => absurd hc (h p List.mem_cons_self)).bind fun _ _ =>
      ih (fun q hq => h q (List.mem_cons_of_mem _ hq)) m₁

/-- The pages of the stack do not touch user memory below it. -/
theorem stackPages_keep {low : ℕ} (hlow : low % pageSize = 0) {pages : List (ℕ × String)}
    (hpages : ∀ p ∈ pages, low ≤ p.1 ∧ p.1 < userEnd) (h : ∃ D F, m.Owned R D₀ r A ∅ D F)
    (hres : stackPages r pages m = .ok m') : (∃ D F, m'.Owned R D₀ r A ∅ D F) ∧
      ∀ b < userEnd, b < low → m'.userByte r b = m.userByte r b := by
  induction pages generalizing m with
  | nil =>
    obtain rfl := Except.ok.inj hres
    exact ⟨h, fun _ _ _ => rfl⟩
  | cons p pages ih =>
    obtain ⟨h1, h2⟩ := hpages p List.mem_cons_self
    obtain ⟨⟨m₁, page⟩, halloc, hres⟩ := bind_eq_ok.1 hres
    obtain ⟨_, hsome, hres⟩ := bind_eq_ok.1 hres
    obtain ⟨q, rfl⟩ := Option.ne_none_iff_exists'.1 (assert_eq_ok.1 hsome)
    obtain ⟨D, F, h⟩ := h
    obtain ⟨h₁, -, -, hother⟩ := h.allocPageGpte_bytes h2 (by decide) halloc
    obtain ⟨h₂, hkeep⟩ := ih (fun q hq => hpages q (List.mem_cons_of_mem _ hq)) h₁ hres
    refine ⟨h₂, fun b hb hlt => (hkeep b hb hlt).trans (hother b hb fun he => ?_)⟩
    rw [pageSize_eq] at hlow he
    omega

/-- The segments when the stack has been set up. -/
theorem Loading.stack {m₁ : Mm} (h : Loading R D₀ F₀ im n m vmm r) {vmFlags : ℕ}
    (hres : vmMap m vmm userStackBegin userStackSize vmFlags = .ok (m₁, vmm', 0))
    (hpages : stackPages r userStackPages m₁ = .ok m') : Loading R D₀ F₀ im n m' vmm' r := by
  obtain ⟨A, hb⟩ := h.built
  obtain ⟨vma, hnew⟩ := vmMap_newArea hb h.map (by decide) hres
  obtain ⟨A₁, hb₁⟩ := built_vmMap hb hres
  have hall : ∀ p ∈ userStackPages, userStackBegin ≤ p.1 ∧ p.1 < userEnd := by decide
  obtain ⟨ho, hkeep⟩ := stackPages_keep (show userStackBegin % pageSize = 0 by decide) hall
    hb₁.owned hpages
  refine ⟨⟨A₁, hb₁.fill ho⟩, hnew.map, fun i hi htype => (h.segment i hi htype).keep h.map
    (fun v hv => hnew.perm.mem_iff.2 (List.mem_cons_of_mem _ hv)) fun v hv b hbu hbv => ?_⟩
  have hout := hnew.disjoint hv hbv
  rw [show rounddown userStackBegin pageSize = userStackBegin from by decide,
    show pagesEnd userStackBegin userStackSize = userEnd from by decide] at hout
  rw [hkeep b hbu (by omega), hnew.bytes b]

/-! ### The function -/

/-- An address space without areas, after `init_vmm` and `alloc_gpt`. -/
theorem loading_init {bpt : ℕ} (h : m.Consistent R userEntries D₀ F₀)
    (hbpt : ∀ i ∈ userEntries, ¬ isValid (m.mem bpt i)) {m₁ : Mm} {vmm₁ : VmManager}
    (h1 : initVmm m = .ok (m₁, vmm₁)) (h2 : allocGpt bpt m₁ vmm₁ = .ok (m', vmm, 0)) :
    ∃ r, Loading R D₀ F₀ im 0 m' vmm r := by
  obtain ⟨r, A, hb, hlist, -⟩ := built_init h hbpt h1 h2
  refine ⟨r, ⟨A, hb⟩, ⟨hb.areas, ?_⟩, fun i hi => absurd hi (Nat.not_lt_zero i)⟩
  rw [hlist]
  exact List.Pairwise.nil

/-- The segments of a program that has been loaded. -/
def ProgramReady (im : Image) (m : Mm) (vmm : VmManager) : Prop :=
  ∃ r, vmm.pGpt = some r ∧ MapOk vmm ∧
    ∀ i < im.ePhnum, (im.header i).pType = elfPtLoad → SegmentReady im i m vmm r

/-- **`load_bin`** loads every segment of an image without a segment that wraps around; on the way
it writes inside pages only, and its assertion holds. -/
theorem loadBin_meets {bpt : ℕ} (h : m.Consistent R userEntries D₀ F₀)
    (hbpt : ∀ i ∈ userEntries, ¬ isValid (m.mem bpt i)) (htable : im.TableInside)
    (hwrap : im.NoWrap) (k : ℕ) (sstatus : Riscv.Word) :
    Meets (loadBin k im bpt sstatus m) LoadEvent.InPage NotTail fun res =>
      ∀ vmm frame, res.2 = (some (vmm, frame), 0) → ProgramReady im res.1 vmm := by
  have hnone : ∀ {m : Mm} {ret : ℤ} {vmm : VmManager} {frame : UserFrame},
      (m, (none : Option (VmManager × UserFrame)), ret).2 = (some (vmm, frame), 0) →
      ProgramReady im m vmm := fun h => by cases h
  unfold loadBin
  refine (meets_lift (notTail_of_avoids (initVmm_avoids mm_ne_tail m)) fun res hres => hres).bind ?_
  rintro ⟨m₁, vmm₁⟩ h1
  refine (meets_lift (notTail_of_avoids (allocGpt_avoids mm_ne_tail bpt m₁ vmm₁)) fun res hres =>
    hres).bind ?_
  rintro ⟨m₂, vmm₂, ret₂⟩ h2
  simp only
  have hdel : ∀ (m : Mm) (vmm : VmManager), Meets (Logged.lift (delVmm m vmm) : Logged LoadEvent Mm)
      LoadEvent.InPage NotTail fun _ => True := fun m vmm =>
    meets_lift (notTail_of_avoids (delVmm_avoids mm_ne_tail m vmm)) fun _ _ => trivial
  have hteardown : ∀ (m : Mm) (vmm : VmManager),
      Meets (Logged.lift (teardown k m vmm) : Logged LoadEvent Mm) LoadEvent.InPage NotTail
        fun _ => True := fun m vmm =>
    meets_lift (notTail_of_avoids (teardown_avoids mm_ne_tail k m vmm)) fun _ _ => trivial
  -- `init_vmm` has succeeded, and `alloc_gpt` fails
  by_cases hret₂ : ret₂ = 0
  swap
  · rw [if_pos hret₂]
    exact (hdel m₂ vmm₂).bind fun _ _ => meets_pure fun _ _ => hnone
  subst hret₂
  obtain ⟨r, h₂⟩ : ∃ r, Loading R D₀ F₀ im 0 m₂ vmm₂ r := loading_init h hbpt h1 h2
  rw [if_neg (by simp)]
  refine meets_readField_inPage.bind fun _ _ => ?_
  -- the image is not an ELF file
  by_cases hmagic : im.eMagic = elfMagic
  swap
  · rw [if_pos hmagic]
    exact (meets_lift (notTail_of_avoids (freeGpt_avoids mm_ne_tail m₂ vmm₂)) fun _ _ =>
      trivial).bind fun m₃ _ => (hdel m₃ vmm₂).bind fun _ _ => meets_pure fun _ _ => hnone
  rw [if_neg (not_not.2 hmagic)]
  refine meets_readField_inPage.bind fun _ _ => meets_readField_inPage.bind fun _ _ => ?_
  -- the end of the table is computed modulo 2 ^ 64, which makes no difference; a table without
  -- headers may lie anywhere
  have hsegments : Meets (loadSegments k im
      (u64 (u64 (im.bin + im.ePhoff) + ProgHeader.size * im.ePhnum)) (im.ePhnum + 1)
      (u64 (im.bin + im.ePhoff)) m₂ vmm₂ 0) LoadEvent.InPage NotTail fun res =>
        res.2.2 = 0 → Loading R D₀ F₀ im im.ePhnum res.1 res.2.1 r := by
    rcases htable with hzero | htable
    · have hend : u64 (u64 (im.bin + im.ePhoff)) = u64 (im.bin + im.ePhoff) := Nat.mod_mod _ _
      rw [hzero, Nat.mul_zero, Nat.add_zero, hend, loadSegments, if_neg (lt_irrefl _)]
      exact meets_pure fun _ => h₂
    · obtain ⟨hbegin, hend⟩ := Image.table_addr htable
      rw [hbegin, hend]
      exact loadSegments_meets htable hwrap k rfl (by rw [Nat.mul_zero, Nat.add_zero])
        (Nat.zero_le _) h₂
  refine hsegments.bind ?_
  rintro ⟨m₃, vmm₃, ret₃⟩ h₃
  simp only at h₃ ⊢
  -- a segment fails, and the address space is torn down
  by_cases hret₃ : ret₃ = 0
  swap
  · rw [if_pos hret₃]
    exact (hteardown m₃ vmm₃).bind fun _ _ => meets_pure fun _ _ => hnone
  have h₃ := h₃ hret₃
  rw [if_neg (not_not.2 hret₃)]
  refine (meets_lift (notTail_of_avoids (vmMap_avoids mm_ne_tail m₃ vmm₃ _ _ _)) fun res hres =>
    hres).bind ?_
  rintro ⟨m₄, vmm₄, ret₄⟩ h4
  simp only
  -- the area of the stack cannot be mapped
  by_cases hret₄ : ret₄ = 0
  swap
  · rw [if_pos hret₄]
    exact (hteardown m₄ vmm₄).bind fun _ _ => meets_pure fun _ _ => hnone
  subst hret₄
  rw [if_neg (by simp)]
  obtain ⟨A₃, hb₃⟩ := h₃.built
  obtain ⟨A₄, hb₄⟩ := built_vmMap hb₃ h4
  refine (meets_lift (notTail_of_avoids (VmManager.gpt_avoids vmm₄)) fun g hg => hg).bind ?_
  intro g hg
  obtain rfl : r = g := by
    rw [VmManager.gpt, hb₄.gpt] at hg
    exact Except.ok.inj hg
  refine (meets_lift (notTail_of_avoids (stackPages_avoids mm_ne_tail r (by decide) m₄))
    fun m₅ hm₅ => hm₅).bind ?_
  intro m₅ hm₅
  have h₅ := h₃.stack h4 hm₅
  refine meets_readField_inPage.bind fun _ _ => meets_pure fun vmm frame hres => ?_
  cases hres
  exact ⟨r, hb₄.gpt, ⟨⟨h₅.map.area, h₅.map.curr⟩, h₅.map.sorted⟩, fun i hi htype =>
    ⟨(h₅.segment i hi htype).area, (h₅.segment i hi htype).bytes⟩⟩

end GarretOS
