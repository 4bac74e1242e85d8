import GarretOS.Mm.AddressSpace
import GarretOS.Mm.Placement
import GarretOS.Riscv.Sv39
import Mathlib.Data.Nat.Bitwise

/-!
# `va2pa_mmu`

The function `va2pa_mmu` of `kernel/mm/pmm.c` walks a page table in software, and is to find what
the MMU finds.  It is compared with the walk `Riscv.Sv39.translate`, for the boot table
`boot_page_table_sv39` and for every root table that `alloc_gpt` has copied from it.  Its output to
the console is left out.

* `Mm.Pointers` : the entries above the leaf tables have the permission bits of a pointer;
* `satpTables` : runs of the operations that fill page tables; `SatpOk` is their invariant;
* `va2paMmu_eq` : `va2pa_mmu` finds the leaf entry, where no kernel entry of the boot table is
  followed;
* `va2paMmu_exact_iff` : when it agrees with the MMU.
-/

namespace GarretOS

open Radix Riscv

/-! ### Upper tables -/

namespace Mm

/-- The valid entries of the tables above the leaf tables are pointers: of the permission bits only
the valid bit is set. -/
def Pointers (m : Mm) (R U : Set ℕ) : Prop :=
  ∀ r ∈ R, ∀ p i f, TablePath U (p ++ [i]) → walk m.child r p = some f → isValid (m.mem f i) →
    pteFlags (m.mem f i) = pteV

variable {m m' : Mm} {R U D F : Set ℕ} {r addr : ℕ}

/-- Tables do not change when only free pages and data pages are written. -/
theorem Pointers.frame (hp : m.Pointers R U) (h : Tables m R U D F)
    (hmem : ∀ f, f ∉ F → f ∉ D → m'.mem f = m.mem f) : m'.Pointers R U := by
  intro r hr p i f hpath hw hv
  rw [h.walk_frame hmem hr hpath.prefix] at hw
  obtain ⟨hF, hD, -⟩ := h.table r hr p f hpath.prefix hw
  rw [hmem f hF hD] at hv ⊢
  exact hp r hr p i f hpath hw hv

/-- A leaf entry is not an entry of an upper table. -/
theorem Pointers.rewritten {s : PtePtr} {v : ℕ} (hp : m.Pointers R U) (h : Tables m R U D F)
    (hl : m.IsLeaf R U s.1) (hmem : m'.mem = (m.store s v).mem) : m'.Pointers R U := by
  intro r hr p i f hpath hw hv
  rw [child_congr hmem, walk_store h hl hr hpath.prefix] at hw
  have hlen := hpath.1
  rw [List.length_append, List.length_singleton] at hlen
  have hne : ¬ (f = s.1 ∧ i = s.2) := by
    rintro ⟨rfl, -⟩
    exact h.leaf_ne hl r hr p hpath.prefix (by omega) hw
  rw [hmem, store_mem, if_neg hne] at hv ⊢
  exact hp r hr p i f hpath hw hv

/-- A fresh table is empty, and is hung into a pointer. -/
theorem Pointers.create {n : ℕ} (hp : m.Pointers R U) (hg : Grown m m' R U D F r {n})
    {f x : ℕ} (hn : n < 2 ^ 54)
    (hmem : m'.mem = ((m.memset0 n).store (f, x) (ppn2pte n pteV)).mem) : m'.Pointers R U := by
  intro r' hr' p i g hpath hw hv
  rw [hmem, store_mem] at hv ⊢
  split_ifs at hv ⊢ with hc
  · exact pteFlags_ppn2pte hn (by decide)
  · by_cases hgn : g = n
    · subst hgn
      simp [memset0] at hv
    · rw [show (m.memset0 n).mem g = m.mem g from Function.update_of_ne hgn _ _] at hv ⊢
      exact hp r' hr' p i g hpath ((hg.walk_new r' hr' p g hpath.prefix hw).resolve_right hgn) hv

theorem ensureTable_pointers (hp : m.Pointers R U) (h : Tables m R U D F) (hr : r ∈ R) {p : List ℕ}
    {x f : ℕ} (hpath : TablePath U (p ++ [x])) (hf : walk m.child r p = some f) (b : Bool) :
    Sat (m.ensureTable (f, x) b) fun res => res.1.Pointers R U := by
  unfold ensureTable
  split_ifs with hv hb
  · exact hp
  · refine (allocPage_sat h.free).bind ?_
    rintro ⟨m₁, _ | n⟩ hal
    · obtain rfl : m₁ = m := hal
      exact hp
    · have hal : Allocated m m₁ F n := hal
      refine (page2va_sat n).bind ?_
      rintro va ⟨rfl, h1, h2, h3⟩
      rw [page2ppn_eq h1 h2, ok_bind]
      obtain ⟨hmem, hg, -⟩ := grown_alloc h hr hpath hf (child_of_invalid hv) hal h1 h3 rfl
      rw [poolEnd_eq] at h2
      exact hp.create hg (by omega) hmem
  · exact hp

theorem pte2va_sat (pte : ℕ) : Sat (pte2va pte) fun _ => True :=
  Sat.bind (P := fun _ => True) (sat_assert.bind fun _ _ => trivial) fun page _ =>
    (page2va_sat page).mono fun _ _ => trivial

/-- **`get_pte`** keeps the upper tables pointers. -/
theorem getPte_pointers (hp : m.Pointers R U) (h : Tables m R U D F) (hr : r ∈ R)
    (hU : getGptx addr ∈ U) (b : Bool) :
    Sat (m.getPte r addr b) fun res => res.1.Pointers R U := by
  have hp₂ := tablePath_addr hU
  have hp₁ : TablePath U [getGptx addr] := TablePath.prefix (q := [getMptx addr]) hp₂
  refine ((ensureTable_sat h hr (p := []) hp₁ rfl b).and
    (ensureTable_pointers hp h hr (p := []) hp₁ rfl b)).bind ?_
  rintro ⟨m₁, _ | _⟩ ⟨⟨N₁, hg₁, hok₁⟩, hptr₁⟩
  · exact hptr₁
  obtain ⟨f₁, hf₁⟩ := hok₁ rfl
  obtain ⟨hw₁, hva₁⟩ := upper_table hg₁.tables hr hU hf₁
  simp only [not_true_eq_false, if_false]
  rw [hva₁, ok_bind]
  refine (ensureTable_pointers hptr₁ hg₁.tables hr (p := [getGptx addr]) hp₂ hw₁ b).bind ?_
  rintro ⟨m₂, _ | _⟩ hptr₂
  · exact hptr₂
  · exact (pte2va_sat _).bind fun _ _ => hptr₂

/-- **`add_page`** keeps the upper tables pointers. -/
theorem addPage_pointers {page flags : ℕ} (hp : m.Pointers R U) (h : Consistent m R U D F)
    (hr : r ∈ R) (hU : getGptx addr ∈ U) (hpage : page ∈ D) (hf : flags < 1024) :
    Sat (m.addPage r page addr flags) fun res => res.1.Pointers R U := by
  refine ((getPte_sat h.tables hr hU true).and (getPte_pointers hp h.tables hr hU true)).bind ?_
  rintro ⟨m₁, _ | s⟩ ⟨⟨N, hg, hslot⟩, hptr⟩
  · exact hptr
  · obtain ⟨h1, h2, -⟩ := h.tables.data page hpage
    obtain ⟨m₂, h3, h4⟩ := replacePage_eq hg.tables (hg.refOk h.tables h.refs) hr hU hpage
      (hslot s rfl) (target_of_mem h hpage hf)
    simp only [h3, ok_bind, page2ppn_eq h1 h2]
    exact hptr.rewritten hg.tables (slot_leaf hr hU (hslot s rfl)).1 h4.mem

/-- **`del_page`** keeps the upper tables pointers. -/
theorem delPage_pointers (hp : m.Pointers R U) (h : Consistent m R U D F) (hr : r ∈ R)
    (hU : getGptx addr ∈ U) (hdel : m.delPage r addr = .ok m') : m'.Pointers R U := by
  rcases delPage_cases h hr hU with ⟨-, heq⟩ | ⟨s, m₁, hs, heq, hrw⟩
  · obtain rfl := Except.ok.inj (hdel.symm.trans heq)
    exact hp
  · obtain rfl := Except.ok.inj (hdel.symm.trans heq)
    exact hp.rewritten h.tables (slot_leaf hr hU hs).1 hrw.mem

end Mm

/-! ### The walk in software -/

/-- `get_offset` -/
def getOffset (addr : ℕ) : ℕ := addr &&& 0xFFF

namespace Mmu

/-- `pa2va` -/
def pa2va (pa : ℕ) : Res ℕ := do
  assert (dramBeginPa < pa ∧ pa < dramEndPa) "pa > DRAM_BEGIN_PA && pa < DRAM_END_PA"
  return pa + vaPaOffset

/-- `va2pa` -/
def va2pa (va : ℕ) : Res ℕ := do
  assert (dramBeginPa + vaPaOffset < va ∧ va < dramEndPa + vaPaOffset)
    "va > DRAM_BEGIN_VA && va < DRAM_END_VA"
  return va - vaPaOffset

/-- `pa2page` -/
def pa2page (pa : ℕ) : Res ℕ := do
  let ppn := pa >>> pageShift
  assert (poolBegin ≤ ppn ∧ ppn < poolEnd)
    "ppn >= g_num_qemu_pages + g_num_kernel_pages && ppn < g_num_qemu_pages + g_num_kernel_pages + g_num_free_pages"
  return ppn

/-- `va2page` -/
def va2page (va : ℕ) : Res ℕ := do
  let pa ← va2pa va
  pa2page pa

/-- `page2pa` -/
def page2pa (page : ℕ) : Res ℕ := do
  let ppn ← page2ppn page
  return ppn <<< pageShift

/-- The entry `p[i]`, where `p` is the kernel virtual address of the start of a frame. -/
def index (m : Mm) (p i : ℕ) : ℕ := m.mem ((p - vaPaOffset) / pageSize) i

/-- `va2pa_mmu` -/
def va2paMmu (m : Mm) (pGpt va : ℕ) : Res ℕ := do
  if pGpt = 0 then
    return 0
  let vpn2 := getGptx va
  let vpn1 := getMptx va
  let vpn0 := getPtx va
  let offset := getOffset va
  let gptPage ← va2page pGpt
  let _gptPa ← page2pa gptPage
  if vpn2 ≥ ptSize then
    return 0
  let gpte := index m pGpt vpn2
  if ¬ isValid gpte then
    return 0
  let gptPpn := pte2ppn gpte
  let mptPa := u64 (gptPpn <<< pageShift)
  let mptVa ← pa2va mptPa
  if vpn1 ≥ ptSize then
    return 0
  let mpte := index m mptVa vpn1
  if ¬ isValid mpte then
    return 0
  let mptPpn := pte2ppn mpte
  let ptPa := u64 (mptPpn <<< pageShift)
  let ptVa ← pa2va ptPa
  if vpn0 ≥ ptSize then
    return 0
  let pte := index m ptVa vpn0
  if ¬ isValid pte then
    return 0
  let ptPpn := pte2ppn pte
  return u64 (ptPpn <<< pageShift) ||| offset

/-- The physical address by `get_page`, 0 if no page is mapped. -/
def getPagePa (m : Mm) (r va : ℕ) : Res ℕ := do
  match ← m.getPage r va with
  | (_, none) => return 0
  | (_, some page) =>
    let pa ← page2pa page
    return pa + getOffset va

/-- The kernel virtual address of a frame. -/
def frameVa (f : ℕ) : ℕ := f * pageSize + vaPaOffset

/-- The physical address that a leaf entry maps the address to. -/
def leafPa (pte va : ℕ) : ℕ := pte2ppn pte * pageSize + va % pageSize

/-! ### Conversions -/

theorem getOffset_eq (va : ℕ) : getOffset va = va % pageSize :=
  Nat.and_two_pow_sub_one_eq_mod va 12

theorem shiftLeft_page (p : ℕ) : p <<< pageShift = p * pageSize := Nat.shiftLeft_eq p 12

/-- The frame of a page of DRAM. -/
theorem frame_bounds {f : ℕ} (h1 : poolBegin ≤ f) (h2 : f * pageSize < dramEndPa) :
    0x82000 ≤ f ∧ f < 0x88000 := by
  rw [pageSize_eq, dramEndPa] at h2
  rw [poolBegin_eq] at h1
  omega

theorem index_frameVa (m : Mm) (f i : ℕ) : index m (frameVa f) i = m.mem f i := by
  rw [index, frameVa, Nat.add_sub_cancel, Nat.mul_div_cancel f (by decide)]

theorem va2page_frameVa {f : ℕ} (h1 : poolBegin ≤ f) (h2 : f * pageSize < dramEndPa) :
    va2page (frameVa f) = .ok f := by
  obtain ⟨h3, h4⟩ := frame_bounds h1 h2
  have hdiv : (f * pageSize) >>> pageShift = f := by
    rw [Nat.shiftRight_eq_div_pow]
    exact Nat.mul_div_cancel f (by decide)
  rw [va2page, va2pa, assert_of, ok_bind, frameVa, Nat.add_sub_cancel]
  · simp only [pure, Except.pure, ok_bind, pa2page, hdiv]
    rw [assert_of]
    · rfl
    · rw [poolBegin_eq, poolEnd_eq]
      omega
  · rw [frameVa, pageSize_eq, dramBeginPa, dramEndPa]
    omega

theorem page2pa_eq {p : ℕ} (h1 : poolBegin ≤ p) (h2 : p < poolEnd) :
    page2pa p = .ok (p * pageSize) := by
  rw [page2pa, page2ppn_eq h1 h2, ok_bind, shiftLeft_page]
  rfl

/-- The kernel virtual address of the table that a pointer names. -/
theorem pa2va_frame {f : ℕ} (h1 : poolBegin ≤ f) (h2 : f * pageSize < dramEndPa) :
    pa2va (u64 (f <<< pageShift)) = .ok (frameVa f) := by
  obtain ⟨h3, h4⟩ := frame_bounds h1 h2
  rw [pageSize_eq] at h2
  rw [shiftLeft_page, pageSize_eq, u64_of_lt (by omega), pa2va, assert_of]
  · rfl
  · rw [dramBeginPa, dramEndPa]
    omega

theorem leafPa_eq {p va : ℕ} (h : p < poolEnd) :
    u64 (p <<< pageShift) ||| getOffset va = p * pageSize + va % pageSize := by
  rw [poolEnd_eq] at h
  have hor := Nat.two_pow_add_eq_or_of_lt (i := 12) (b := va % 4096) (by omega) p
  rw [shiftLeft_page, pageSize_eq, u64_of_lt (by omega), getOffset_eq, pageSize_eq, Nat.mul_comm p]
  exact hor.symm

theorem not_isValid {m : Mm} {f i : ℕ} (h : m.child f i = none) : ¬ isValid (m.mem f i) := by
  intro hv
  rw [Mm.child_of_valid hv] at h
  cases h

theorem isValid_child {m : Mm} {f i g : ℕ} (h : m.child f i = some g) :
    isValid (m.mem f i) ∧ pte2ppn (m.mem f i) = g := by
  rw [Mm.child] at h
  split_ifs at h with hv
  exact ⟨hv, Option.some.inj h⟩

/-! ### What the walk finds -/

section

variable {m : Mm} {R U D F : Set ℕ} {r va : ℕ}

/-- Following a path to the leaf table. -/
theorem entry_eq (m : Mm) (r va : ℕ) : m.entry r va =
    (m.child r (getGptx va)).bind fun f => (m.child f (getMptx va)).bind fun g =>
      if isValid (m.mem g (getPtx va)) then some (m.mem g (getPtx va)) else none := by
  unfold Mm.entry Mm.slot walk walk walk
  cases m.child r (getGptx va) with
  | none => rfl
  | some f =>
    simp only [Option.bind_some]
    cases m.child f (getMptx va) with
    | none => rfl
    | some g => rfl

/-- The page that a leaf entry maps is a page of the pool. -/
theorem leaf_page (h : m.Tables R U D F) (hr : r ∈ R) (hU : getGptx va ∈ U) {g : ℕ}
    (hw : walk m.child r [getGptx va, getMptx va] = some g)
    (hv : isValid (m.mem g (getPtx va))) : pte2ppn (m.mem g (getPtx va)) < poolEnd := by
  have hD : pte2ppn (m.mem g (getPtx va)) ∈ D := h.mapped _ (g, getPtx va)
    ⟨⟨r, hr, _, _, Mm.tablePath_addr hU, hw⟩, (index_lt va).2.2, Mm.child_of_valid hv⟩
  exact (h.data _ hD).2.1

/-- **`va2pa_mmu`** finds the leaf entry of the address. -/
theorem va2paMmu_eq (h : m.Tables R U D F) (hr : r ∈ R) (hU : getGptx va ∈ U)
    (h1 : poolBegin ≤ r) (h2 : r * pageSize < dramEndPa) :
    va2paMmu m (frameVa r) va = .ok (((m.entry r va).map fun pte => leafPa pte va).getD 0) := by
  have hp₂ := Mm.tablePath_addr hU
  have hp₁ : Mm.TablePath U [getGptx va] := Mm.TablePath.prefix (q := [getMptx va]) hp₂
  have hne : frameVa r ≠ 0 := by
    rw [frameVa, vaPaOffset]
    omega
  have hlt : r < poolEnd := by
    have := frame_bounds h1 h2
    rw [poolEnd_eq]
    omega
  obtain ⟨hi₂, hi₁, hi₀⟩ := index_lt va
  rw [← ptSize_eq] at hi₂ hi₁ hi₀
  rw [va2paMmu, if_neg hne, va2page_frameVa h1 h2, ok_bind, page2pa_eq h1 hlt, ok_bind,
    if_neg (by omega), index_frameVa, entry_eq]
  cases hf : m.child r (getGptx va) with
  | none =>
    rw [if_pos (not_isValid hf)]
    rfl
  | some f =>
    obtain ⟨hv, hppn⟩ := isValid_child hf
    have hw : walk m.child r [getGptx va] = some f := by simp [walk, hf]
    obtain ⟨hf1, hf2⟩ := (h.table r hr _ f hp₁ hw).2.2 (by simp)
    rw [if_neg (not_not.2 hv), hppn]
    dsimp only
    rw [pa2va_frame hf1 hf2, ok_bind, if_neg (by omega), index_frameVa, Option.bind_some]
    cases hg : m.child f (getMptx va) with
    | none =>
      rw [if_pos (not_isValid hg)]
      rfl
    | some g =>
      obtain ⟨hv', hppn'⟩ := isValid_child hg
      have hw' : walk m.child r [getGptx va, getMptx va] = some g := by simp [walk, hf, hg]
      obtain ⟨hg1, hg2⟩ := (h.table r hr _ g hp₂ hw').2.2 (by simp)
      rw [if_neg (not_not.2 hv'), hppn', pa2va_frame hg1 hg2, ok_bind, if_neg (by omega),
        index_frameVa, Option.bind_some]
      by_cases hleaf : isValid (m.mem g (getPtx va))
      · rw [if_neg (not_not.2 hleaf), if_pos hleaf, leafPa_eq (leaf_page h hr hU hw' hleaf)]
        rfl
      · rw [if_pos hleaf, if_neg hleaf]
        rfl

/-- **`get_page`** finds the same page. -/
theorem getPagePa_eq (h : m.Tables R U D F) (hr : r ∈ R) (hU : getGptx va ∈ U) :
    getPagePa m r va = .ok (((m.entry r va).map fun pte => leafPa pte va).getD 0) := by
  rw [getPagePa, Mm.getPage, Mm.getPte_false h hr hU, ok_bind]
  cases hs : m.slot r va with
  | none =>
    rw [Mm.entry, hs]
    rfl
  | some s =>
    rw [Mm.entry_of_slot hs]
    by_cases hv : isValid (m.load s)
    · obtain ⟨hl, hk⟩ := Mm.slot_leaf hr hU hs
      have hD := h.mapped (pte2ppn (m.load s)) s ⟨hl, hk, Mm.child_of_valid hv⟩
      obtain ⟨h1, h2, -⟩ := h.data _ hD
      simp only [hv, if_true, pte2page, assert_of, ok_bind, pure, Except.pure]
      rw [page2pa_eq h1 h2, getOffset_eq]
      rfl
    · simp only [hv]
      rfl

/-! ### What the MMU finds -/

/-- The MMU accepts the leaf entry: it allows reading or executing, and does not allow writing
without reading. -/
def Usable (pte : ℕ) : Prop :=
  (pte &&& pteR ≠ 0 ∨ pte &&& pteX ≠ 0) ∧ (pte &&& pteW ≠ 0 → pte &&& pteR ≠ 0)

instance (pte : ℕ) : Decidable (Usable pte) := by
  unfold Usable
  infer_instance

theorem and_ne_zero_iff (pte i : ℕ) : pte &&& 2 ^ i ≠ 0 ↔ Sv39.Bit pte i := by
  have hbit : Sv39.Bit pte i ↔ pte.testBit i = true := by
    rw [Nat.testBit_eq_decide_div_mod_eq, decide_eq_true_iff, Sv39.Bit]
  rw [Nat.and_two_pow, hbit]
  cases pte.testBit i <;> simp

theorem usable_iff {pte : ℕ} (hv : isValid pte) (hlt : pte < 2 ^ 54) :
    Usable pte ↔ ¬ Sv39.Faults pte ∧ Sv39.Maps pte := by
  have hbit : Sv39.Bit pte 0 := by
    rw [isValid_iff] at hv
    simpa [Sv39.Bit] using hv
  have hR : pte &&& pteR ≠ 0 ↔ Sv39.Bit pte 1 := and_ne_zero_iff pte 1
  have hW : pte &&& pteW ≠ 0 ↔ Sv39.Bit pte 2 := and_ne_zero_iff pte 2
  have hX : pte &&& pteX ≠ 0 ↔ Sv39.Bit pte 3 := and_ne_zero_iff pte 3
  have hle : ¬ 2 ^ 54 ≤ pte := by omega
  rw [Usable, hR, hW, hX, Sv39.Faults, Sv39.Maps]
  tauto

theorem ppn_eq {pte : ℕ} (h : pte < 2 ^ 54) : Sv39.ppn pte = pte2ppn pte := by
  rw [Sv39.ppn, pte2ppn_eq]
  omega

theorem faults_of_invalid {e : ℕ} (h : ¬ isValid e) : Sv39.Faults e := by
  refine Or.inl fun hbit => h ?_
  rw [isValid_iff]
  simpa [Sv39.Bit] using hbit

/-- The MMU goes on at the table that a pointer names. -/
theorem follow_child {f i g : ℕ} (hc : m.child f i = some g) (hflags : pteFlags (m.mem f i) = pteV)
    (hg : g * pageSize < dramEndPa) (level : ℕ) (next : ℕ → Option ℕ) :
    Sv39.follow (m.mem f i) level va (next (Sv39.ppn (m.mem f i))) = next g := by
  obtain ⟨-, hppn⟩ := isValid_child hc
  have hval : m.mem f i = g * 1024 + 1 := by
    rw [pte2ppn_eq] at hppn
    rw [pteFlags, pteShift, pteV] at hflags
    omega
  have hlt : m.mem f i < 2 ^ 54 := by
    rw [pageSize_eq, dramEndPa] at hg
    omega
  rw [Sv39.follow_pointer, ppn_eq hlt, hppn]
  · simp only [Sv39.Faults, Sv39.Bit]
    omega
  · simp only [Sv39.Maps, Sv39.Bit]
    omega

/-- **The MMU** finds the leaf entry of the address, and accepts it if it is usable. -/
theorem translate_eq (h : m.Tables R U D F) (hp : m.Pointers R U) (hr : r ∈ R)
    (hU : getGptx va ∈ U) : Sv39.translate m.mem r va =
      (m.entry r va).bind fun pte => if Usable pte then some (leafPa pte va) else none := by
  have hp₂ := Mm.tablePath_addr hU
  have hp₁ : Mm.TablePath U [getGptx va] := Mm.TablePath.prefix (q := [getMptx va]) hp₂
  have hvpn : Sv39.vpn 2 va = getGptx va ∧ Sv39.vpn 1 va = getMptx va ∧
      Sv39.vpn 0 va = getPtx va := by
    rw [getGptx_eq, getMptx_eq, getPtx_eq]
    exact ⟨rfl, rfl, rfl⟩
  rw [Sv39.translate, Sv39.walk, entry_eq, hvpn.1]
  cases hf : m.child r (getGptx va) with
  | none =>
    rw [Sv39.follow_fault (faults_of_invalid (not_isValid hf))]
    rfl
  | some f =>
    have hw : walk m.child r [getGptx va] = some f := by simp [walk, hf]
    obtain ⟨-, hf2⟩ := (h.table r hr _ f hp₁ hw).2.2 (by simp)
    have hflags := hp r hr [] (getGptx va) r hp₁ rfl (isValid_child hf).1
    rw [follow_child hf hflags hf2 2 (Sv39.walk m.mem va 1), Option.bind_some, Sv39.walk, hvpn.2.1]
    cases hg : m.child f (getMptx va) with
    | none =>
      rw [Sv39.follow_fault (faults_of_invalid (not_isValid hg))]
      rfl
    | some g =>
      have hw' : walk m.child r [getGptx va, getMptx va] = some g := by simp [walk, hf, hg]
      obtain ⟨-, hg2⟩ := (h.table r hr _ g hp₂ hw').2.2 (by simp)
      have hflags' := hp r hr [getGptx va] (getMptx va) f hp₂ hw (isValid_child hg).1
      rw [follow_child hg hflags' hg2 1 (Sv39.walk m.mem va 0), Option.bind_some, Sv39.walk,
        hvpn.2.2]
      by_cases hleaf : isValid (m.mem g (getPtx va))
      · have hlt : m.mem g (getPtx va) < 2 ^ 54 := by
          have hpage := leaf_page h hr hU hw' hleaf
          rw [pte2ppn_eq, poolEnd_eq] at hpage
          omega
        rw [if_pos hleaf, Option.bind_some]
        by_cases hu : Usable (m.mem g (getPtx va))
        · obtain ⟨h1, h2⟩ := (usable_iff hleaf hlt).1 hu
          rw [if_pos hu, Sv39.follow_page h1 h2, ppn_eq hlt]
          rfl
        · rw [if_neg hu]
          by_cases h1 : Sv39.Faults (m.mem g (getPtx va))
          · exact Sv39.follow_fault h1
          · exact Sv39.follow_none fun h2 => hu ((usable_iff hleaf hlt).2 ⟨h1, h2⟩)
      · rw [Sv39.follow_fault (faults_of_invalid hleaf), if_neg hleaf]
        rfl

end

end Mmu

/-! ### The root tables of the kernel -/

/-- `boot_page_table_sv39`: 511 entries, two of which map a gigapage; `behind` is the double word
that is placed behind them, which the kernel and the MMU take for the last entry. -/
def bootPageTable (behind i : ℕ) : ℕ :=
  if i = 2 ∨ i = 510 then 0x80000 <<< 10 ||| 0xcf
  else if i = 511 then behind
  else 0

/-- The entries that are empty in the boot table. -/
def freeEntries (behind : ℕ) : Set ℕ := {i | i < 512 ∧ ¬ isValid (bootPageTable behind i)}

/-- The memory, the pages handed out by `alloc_page` and not freed since, and the root tables that
`alloc_gpt` has made. -/
structure SatpState where
  /-- The allocator and the content of memory. -/
  mm : Mm
  /-- The pages in use as data pages. -/
  held : Set ℕ
  /-- The root tables made by `alloc_gpt`. -/
  roots : Set ℕ

/-- The operations that make and fill page tables, and writes to data pages. -/
inductive SatpOp where
  /-- `alloc_gpt(vmm)` returns `ret`. -/
  | allocGpt (ret : ℤ)
  /-- `alloc_page()` -/
  | allocPage
  /-- `get_pte(p_gpt, addr, 1)` -/
  | getPte (r addr : ℕ)
  /-- `add_page(p_gpt, page, addr, flags)` returns `ret`. -/
  | addPage (r page addr flags : ℕ) (ret : ℤ)
  /-- `del_page(p_gpt, addr)` -/
  | delPage (r addr : ℕ)
  /-- A word of a data page is written. -/
  | store (p : PtePtr) (v : ℕ)

/-- The root tables that are installed in `satp`: the boot table in the frame `bpt` of the kernel
image, and its copies, extended at any addresses. -/
def satpTables (bpt behind : ℕ) : System SatpState SatpOp where
  init s := s.held = ∅ ∧ s.roots = ∅ ∧ bpt < poolBegin ∧
    (∀ i < 512, s.mm.mem bpt i = bootPageTable behind i) ∧
    ∃ F, FreeSet s.mm.pmm F ∧ ∀ p ∈ F, s.mm.ref p = 0
  step s l s' := match l with
    | .allocGpt ret => ∃ vmm vmm', allocGpt bpt s.mm vmm = .ok (s'.mm, vmm', ret) ∧
        s'.held = s.held ∧ s'.roots = s.roots ∪ {r | ret = 0 ∧ vmm'.pGpt = some r}
    | .allocPage => ∃ page, s.mm.allocPage = .ok (s'.mm, page) ∧
        s'.held = s.held ∪ {p | page = some p} ∧ s'.roots = s.roots
    | .getPte r addr => r ∈ s.roots ∧ (∃ p, s.mm.getPte r addr true = .ok (s'.mm, p)) ∧
        s'.held = s.held ∧ s'.roots = s.roots
    | .addPage r page addr flags ret => r ∈ s.roots ∧ page ∈ s.held ∧ flags < 1024 ∧
        s.mm.addPage r page addr flags = .ok (s'.mm, ret) ∧
        s'.held = s.held \ s'.mm.pmm.freePages ∧ s'.roots = s.roots
    | .delPage r addr => r ∈ s.roots ∧ s.mm.delPage r addr = .ok s'.mm ∧
        s'.held = s.held \ s'.mm.pmm.freePages ∧ s'.roots = s.roots
    | .store p v => p.1 ∈ s.held ∧ s'.mm = s.mm.store p v ∧ s'.held = s.held ∧ s'.roots = s.roots

/-- The page tables are in order, and all root tables have the kernel entries of the boot table. -/
structure SatpOk (bpt behind : ℕ) (s : SatpState) (F : Set ℕ) : Prop where
  bpt_lt : bpt < poolBegin
  consistent : s.mm.Consistent (insert bpt s.roots) (freeEntries behind) s.held F
  pointers : s.mm.Pointers (insert bpt s.roots) (freeEntries behind)
  boot : ∀ i < 512, s.mm.mem bpt i = bootPageTable behind i
  kernel : ∀ r ∈ s.roots, ∀ i < 512, i ∉ freeEntries behind →
    s.mm.mem r i = bootPageTable behind i
  pool : ∀ r ∈ s.roots, poolBegin ≤ r ∧ r * pageSize < dramEndPa

/-- The double word behind the boot table, if it is taken for a valid entry, names no page of DRAM
but perhaps the first. -/
def NoTable (behind : ℕ) : Prop :=
  isValid behind → ¬ (dramBeginPa < u64 (pte2ppn behind <<< pageShift) ∧
    u64 (pte2ppn behind <<< pageShift) < dramEndPa)

section

variable {bpt behind : ℕ} {s s' : SatpState} {l : SatpOp} {F D' F' : Set ℕ} {r addr : ℕ}

/-- The valid entries of the boot table name no page of DRAM but its first, which is not a table. -/
theorem bootPageTable_pa (hb : NoTable behind) {i : ℕ} (hv : isValid (bootPageTable behind i)) :
    ¬ (dramBeginPa < u64 (pte2ppn (bootPageTable behind i) <<< pageShift) ∧
      u64 (pte2ppn (bootPageTable behind i) <<< pageShift) < dramEndPa) := by
  unfold bootPageTable at hv ⊢
  split_ifs at hv ⊢ with h1 h2
  · decide
  · exact hb hv
  · simp at hv

/-- `get_pte` does not follow a kernel entry. -/
theorem getPte_kernel (hb : NoTable behind) {m : Mm} (b : Bool)
    (hroot : m.mem r (getGptx addr) = bootPageTable behind (getGptx addr))
    (hv : isValid (bootPageTable behind (getGptx addr))) (res : Mm × Option PtePtr) :
    m.getPte r addr b ≠ .ok res := by
  intro hok
  have hload : m.load (r, getGptx addr) = bootPageTable behind (getGptx addr) := hroot
  rw [Mm.getPte, Mm.ensureTable, hload, if_pos hv, ok_bind] at hok
  simp only [not_true_eq_false, if_false] at hok
  obtain ⟨va, hva, -⟩ := bind_eq_ok.1 hok
  obtain ⟨page, hpage, hva⟩ := bind_eq_ok.1 hva
  rw [hload, pte2page, assert_of hv, ok_bind] at hpage
  obtain rfl := Except.ok.inj hpage
  obtain ⟨-, h1, h2, h3⟩ := (page2va_sat _).of_ok hva
  obtain ⟨h4, h5⟩ := Mmu.frame_bounds h1 h3
  refine bootPageTable_pa hb hv ?_
  rw [Mmu.shiftLeft_page, pageSize_eq, u64_of_lt (by omega), dramBeginPa, dramEndPa]
  omega

namespace SatpOk

/-- Where `get_pte` comes to an end, the root table has an entry of its own. -/
theorem index (h : SatpOk bpt behind s F) (hb : NoTable behind) (hr : r ∈ s.roots) {b : Bool}
    {res : Mm × Option PtePtr} (hok : s.mm.getPte r addr b = .ok res) :
    getGptx addr ∈ freeEntries behind := by
  have hlt := (index_lt addr).1
  by_contra hU
  have hv : isValid (bootPageTable behind (getGptx addr)) := by
    by_contra hv
    exact hU ⟨hlt, hv⟩
  exact getPte_kernel hb b (h.kernel r hr _ hlt hU) hv res hok

theorem root_mem (hr : r ∈ s.roots) : r ∈ insert bpt s.roots := Or.inr hr

/-- The boot table is not a table of a copy. -/
theorem walk_ne (h : SatpOk bpt behind s F) (hr : r ∈ s.roots) (p : List ℕ)
    (hp : Mm.TablePath (freeEntries behind) p) : walk s.mm.child r p ≠ some bpt := fun hw => by
  have heq := (h.consistent.tables.separated.unique r (root_mem hr) bpt (Or.inl rfl) p [] bpt hp
    Mm.tablePath_nil hw rfl).1
  have hlt := h.bpt_lt
  have hpool := (h.pool r hr).1
  omega

/-- What `get_pte`, `add_page` and `del_page` do to a copy of the boot table. -/
theorem touched (h : SatpOk bpt behind s F) (hr : r ∈ s.roots)
    (hU : getGptx addr ∈ freeEntries behind) {m' : Mm} {w : Option ℕ}
    (ht : Mm.Touched s.mm m' (insert bpt s.roots) (freeEntries behind) s.held F r addr w D' F')
    (hw : ∀ v ∈ w, ∀ q, Mm.target v = some q → q ∈ s.held)
    (hp : m'.Pointers (insert bpt s.roots) (freeEntries behind)) :
    SatpOk bpt behind ⟨m', D', s.roots⟩ F' := by
  have hfree : bpt ∉ F := by
    intro hF
    have hlt := h.bpt_lt
    have hpool := (h.consistent.tables.free.mem_pool hF).1
    omega
  have hboot := ht.mem_eq (root_mem hr) hU hfree (h.walk_ne hr)
  refine ⟨h.bpt_lt, h.consistent.touched (root_mem hr) hU ht hw, hp, fun i hi => ?_,
    fun r' hr' i hi hU' => ?_, h.pool⟩
  · rw [hboot, h.boot i hi]
  · rw [ht.root_eq h.consistent (root_mem hr) hU (root_mem hr') hU', h.kernel r' hr' i hi hU']

/-- **`alloc_gpt`** makes a copy of the boot table. -/
theorem allocGpt (h : SatpOk bpt behind s F) {vmm vmm' : VmManager} {m' : Mm} {ret : ℤ}
    (hok : GarretOS.allocGpt bpt s.mm vmm = .ok (m', vmm', ret)) :
    ∃ F', SatpOk bpt behind ⟨m', s.held, s.roots ∪ {r | ret = 0 ∧ vmm'.pGpt = some r}⟩ F' := by
  obtain ⟨⟨m₁, o⟩, h1, h2⟩ := bind_eq_ok.1 hok
  have ha := (Mm.allocPage_sat h.consistent.tables.free).of_ok h1
  cases o with
  | none =>
    obtain rfl : m₁ = s.mm := ha
    simp only [pure, Except.pure, Except.ok.injEq, Prod.mk.injEq] at h2
    obtain ⟨rfl, -, rfl⟩ := h2
    have hnone : {r | -eNoMem = 0 ∧ vmm'.pGpt = some r} = ∅ :=
      Set.eq_empty_of_forall_notMem fun r hr => absurd hr.1 (by decide)
    rw [hnone, Set.union_empty]
    exact ⟨F, h⟩
  | some page =>
    have ha : Mm.Allocated s.mm m₁ F page := ha
    obtain ⟨va, h3, h4⟩ := bind_eq_ok.1 h2
    obtain ⟨rfl, hlo, -, hhi⟩ := (page2va_sat page).of_ok h3
    simp only [pure, Except.pure, Except.ok.injEq, Prod.mk.injEq] at h4
    obtain ⟨rfl, rfl, rfl⟩ := h4
    have hmem : ∀ f, f ≠ va → (m₁.memcpyPage va bpt).mem f = s.mm.mem f := by
      intro f hf
      simp only [Mm.memcpyPage, Function.update_of_ne hf, ha.mem]
    have hcopy : (m₁.memcpyPage va bpt).mem va = s.mm.mem bpt := by
      simp only [Mm.memcpyPage, Function.update_self, ha.mem]
    have hempty : ∀ i ∈ freeEntries behind, ¬ isValid ((m₁.memcpyPage va bpt).mem va i) :=
      fun i hi => by
        rw [hcopy, h.boot i hi.1]
        exact hi.2
    obtain ⟨hc, hnew, hold⟩ := h.consistent.insertRoot ha
      (fun f hf => (hmem f hf).trans (by rw [ha.mem])) rfl hempty
    -- the new root is none of the old ones, since it was free
    have hne : ∀ r ∈ insert bpt s.roots, r ≠ va := fun r hr he =>
      (h.consistent.tables.table r hr [] r Mm.tablePath_nil rfl).1 (he ▸ ha.mem_free)
    have hroots : s.roots ∪ {r | (0 : ℤ) = 0 ∧ some va = some r} = insert va s.roots := by
      ext r
      simp [eq_comm]
    rw [hroots]
    refine ⟨F \ {va}, h.bpt_lt, ?_, ?_, fun i hi => ?_, ?_, ?_⟩
    · rw [Set.insert_comm]
      exact hc
    · rw [Set.insert_comm]
      rintro r' (rfl | hr') p i f hp hw hv
      · obtain ⟨rfl, rfl⟩ := hnew p f hp.prefix hw
        exact absurd hv (hempty i (hp.2.2 i rfl))
      · rw [hold r' hr' p hp.prefix] at hw
        have hf : f ≠ va := fun he =>
          (h.consistent.tables.table r' hr' p f hp.prefix hw).1 (he ▸ ha.mem_free)
        rw [hmem f hf] at hv ⊢
        exact h.pointers r' hr' p i f hp hw hv
    · rw [hmem bpt (hne bpt (Or.inl rfl)), h.boot i hi]
    · rintro r' (rfl | hr') i hi hU
      · rw [hcopy, h.boot i hi]
      · rw [hmem r' (hne r' (Or.inr hr')), h.kernel r' hr' i hi hU]
    · rintro r' (rfl | hr')
      · exact ⟨hlo, hhi⟩
      · exact h.pool r' hr'

/-- Only free pages and data pages are written. -/
theorem frame (h : SatpOk bpt behind s F) {m' : Mm}
    (hc : m'.Consistent (insert bpt s.roots) (freeEntries behind) D' F')
    (hmem : ∀ f, f ∉ F → f ∉ s.held → m'.mem f = s.mm.mem f) :
    SatpOk bpt behind ⟨m', D', s.roots⟩ F' := by
  have hroot : ∀ r ∈ insert bpt s.roots, m'.mem r = s.mm.mem r := by
    intro r hr
    obtain ⟨h1, h2, -⟩ := h.consistent.tables.table r hr [] r Mm.tablePath_nil rfl
    exact hmem r h1 h2
  refine ⟨h.bpt_lt, hc, h.pointers.frame h.consistent.tables hmem, fun i hi => ?_,
    fun r hr i hi hU => ?_, h.pool⟩
  · rw [hroot bpt (Or.inl rfl), h.boot i hi]
  · rw [hroot r (Or.inr hr), h.kernel r hr i hi hU]

end SatpOk

theorem satpTables_init (h : (satpTables bpt behind).init s) : ∃ F, SatpOk bpt behind s F := by
  obtain ⟨hheld, hroots, hlt, hboot, F, hfree, hzero⟩ := h
  have hwalk : ∀ p f, Mm.TablePath (freeEntries behind) p → walk s.mm.child bpt p = some f →
      p = [] ∧ f = bpt := by
    intro p f hp hw
    cases p with
    | nil => exact ⟨rfl, (Option.some.inj hw).symm⟩
    | cons i p =>
      obtain ⟨hi, hempty⟩ := hp.2.2 i rfl
      rw [walk, Mm.child_of_invalid (hboot i hi ▸ hempty)] at hw
      cases hw
  have hroot : ∀ r, r ∈ insert bpt s.roots ↔ r = bpt := by
    intro r
    simp [hroots]
  refine ⟨F, hlt, ⟨⟨hfree, ⟨fun p q hp => hp.prefix, fun r hr r' hr' p p' f hp hp' h1 h2 => ?_⟩,
    fun r hr p f hp hw => ?_, fun p hp => ?_, fun p t ht => ?_⟩, fun p hp => ?_, hzero⟩,
    fun r hr p i f hp hw hv => ?_, hboot, fun r hr => ?_, fun r hr => ?_⟩
  · obtain rfl := (hroot r).1 hr
    obtain rfl := (hroot r').1 hr'
    exact ⟨rfl, (hwalk p f hp h1).1.trans (hwalk p' f hp' h2).1.symm⟩
  · obtain rfl := (hroot r).1 hr
    obtain ⟨rfl, rfl⟩ := hwalk p f hp hw
    refine ⟨fun hF => ?_, by simp [hheld], fun hne => absurd rfl hne⟩
    have hpool := (hfree.mem_pool hF).1
    omega
  · simp [hheld] at hp
  · obtain ⟨⟨r, hr, i, j, hp, hw⟩, -, -⟩ := ht
    obtain rfl := (hroot r).1 hr
    exact absurd (hwalk _ _ hp hw).1 (by simp)
  · simp [hheld] at hp
  · obtain rfl := (hroot r).1 hr
    obtain ⟨rfl, rfl⟩ := hwalk p f hp.prefix hw
    obtain ⟨hi, hempty⟩ := hp.2.2 i rfl
    rw [hboot i hi] at hv
    exact absurd hv hempty
  · simp [hroots] at hr
  · simp [hroots] at hr

/-- **Every step** keeps the page tables in order. -/
theorem satpTables_step (hb : NoTable behind) (h : SatpOk bpt behind s F)
    (hl : (satpTables bpt behind).step s l s') : ∃ F', SatpOk bpt behind s' F' := by
  obtain ⟨mm', held', roots'⟩ := s'
  cases l with
  | allocGpt ret =>
    obtain ⟨vmm, vmm', hok, rfl, rfl⟩ := hl
    exact h.allocGpt hok
  | allocPage =>
    obtain ⟨page, hok, rfl, rfl⟩ := hl
    have ha := (Mm.allocPage_sat h.consistent.tables.free).of_ok hok
    obtain ⟨F', he⟩ := (Mm.allocPage_effect h.consistent).of_ok hok
    refine ⟨F', h.frame he.consistent fun f _ _ => ?_⟩
    cases page with
    | none => rw [show mm' = s.mm from ha]
    | some page => rw [Mm.Allocated.mem ha]
  | getPte r addr =>
    obtain ⟨hr, ⟨p, hok⟩, rfl, rfl⟩ := hl
    have hU := h.index hb hr hok
    obtain ⟨N, hg, -⟩ := (Mm.getPte_sat h.consistent.tables (SatpOk.root_mem hr) hU true).of_ok hok
    have hp := (Mm.getPte_pointers h.pointers h.consistent.tables (SatpOk.root_mem hr) hU
      true).of_ok hok
    exact ⟨F \ N, h.touched (w := none) hr hU ⟨mm', N, hg, rfl, rfl, rfl⟩ (by simp) hp⟩
  | addPage r page addr flags ret =>
    obtain ⟨hr, hpage, hf, hok, hheld, rfl⟩ := hl
    dsimp only at hok hheld
    subst hheld
    have hU : getGptx addr ∈ freeEntries behind := by
      obtain ⟨res, hres, -⟩ := bind_eq_ok.1 hok
      exact h.index hb hr hres
    have hp := (Mm.addPage_pointers h.pointers h.consistent (SatpOk.root_mem hr) hU hpage hf).of_ok
      hok
    obtain ⟨w, D', F', ht, hres⟩ :=
      (Mm.addPage_touched h.consistent (SatpOk.root_mem hr) hU hpage hf).of_ok hok
    have hok' := h.touched hr hU ht (fun v hv q hq => ?_) hp
    · rw [ht.held_eq h.consistent] at hok'
      rw [hok'.consistent.tables.free.freePages_eq]
      exact ⟨F', hok'⟩
    · rcases hres with ⟨rfl, -⟩ | ⟨rfl, -⟩
      · cases hv
      · obtain rfl := Option.some.inj hv
        rw [Mm.target_of_mem h.consistent hpage hf] at hq
        exact Option.some.inj hq ▸ hpage
  | delPage r addr =>
    obtain ⟨hr, hok, hheld, rfl⟩ := hl
    dsimp only at hok hheld
    subst hheld
    have hU : getGptx addr ∈ freeEntries behind := by
      obtain ⟨res, hres, -⟩ := bind_eq_ok.1 hok
      exact h.index hb hr hres
    have hp := Mm.delPage_pointers h.pointers h.consistent (SatpOk.root_mem hr) hU hok
    rcases Mm.delPage_cases h.consistent (SatpOk.root_mem hr) hU with
      ⟨-, heq⟩ | ⟨t, m₁, ht, heq, hrw⟩
    · obtain rfl := Except.ok.inj (hok.symm.trans heq)
      -- nothing was mapped at `addr`, so no page is freed
      have hheld : s.held \ s.mm.pmm.freePages = s.held := by
        rw [h.consistent.tables.free.freePages_eq]
        ext q
        exact ⟨fun hq => hq.1, fun hq => ⟨hq, (h.consistent.tables.data q hq).2.2⟩⟩
      rw [hheld]
      exact ⟨F, h⟩
    · obtain rfl := Except.ok.inj (hok.symm.trans heq)
      -- one entry is cleared, and the page it held may become free
      have htouch := hrw.touched h.consistent.tables (SatpOk.root_mem hr) ht
      have hok' := h.touched hr hU htouch (fun v hv q hq => ?_) hp
      · rw [htouch.held_eq h.consistent] at hok'
        rw [hok'.consistent.tables.free.freePages_eq]
        exact ⟨_, hok'⟩
      · obtain rfl := Option.some.inj hv
        cases hq
  | store p v =>
    obtain ⟨hp, rfl, rfl, rfl⟩ := hl
    have hmem : ∀ f, f ≠ p.1 → (s.mm.store p v).mem f = s.mm.mem f := by
      intro f hf
      simp only [Mm.store, Function.update_of_ne hf]
    exact ⟨F, h.frame (h.consistent.write hp hmem rfl) fun f _ hf => hmem f fun he => hf (he ▸ hp)⟩

theorem satpTables_ok (hb : NoTable behind) (h : (satpTables bpt behind).Reachable s) :
    ∃ F, SatpOk bpt behind s F :=
  h.invariant (fun _ => satpTables_init) fun _ _ _ ⟨_, hok⟩ hl => satpTables_step hb hok hl

/-! ### Agreement -/

/-- `va2pa_mmu` with the root table `root` returns the physical address that the MMU finds, and 0 if
the MMU faults; for a user address this is what `get_page` finds. -/
def Mmu.Translates (m : Mm) (root va : ℕ) : Prop :=
  Mmu.va2paMmu m (Mmu.frameVa root) va = .ok ((Sv39.translate m.mem root va).getD 0) ∧
    (UserAddr va → Mmu.va2paMmu m (Mmu.frameVa root) va = Mmu.getPagePa m root va)

/-- A frame of the kernel image has no page descriptor that `va2page` accepts. -/
theorem va2paMmu_boot (hbpt : bpt < poolBegin) (m : Mm) (va pa : ℕ) :
    Mmu.va2paMmu m (Mmu.frameVa bpt) va ≠ .ok pa := by
  intro hok
  have hne : Mmu.frameVa bpt ≠ 0 := by
    rw [Mmu.frameVa, vaPaOffset]
    omega
  rw [Mmu.va2paMmu, if_neg hne] at hok
  obtain ⟨page, hpage, -⟩ := bind_eq_ok.1 hok
  obtain ⟨q, hq, hpage⟩ := bind_eq_ok.1 hpage
  obtain ⟨_, -, hq⟩ := bind_eq_ok.1 hq
  obtain rfl := Except.ok.inj hq
  obtain ⟨_, hassert, -⟩ := bind_eq_ok.1 hpage
  have hlo := (assert_eq_ok.1 hassert).1
  rw [Mmu.frameVa, Nat.add_sub_cancel, Nat.shiftRight_eq_div_pow] at hlo
  have hdiv : bpt * pageSize / 2 ^ pageShift = bpt := Nat.mul_div_cancel bpt (by decide)
  omega

/-- `va2pa_mmu` does not get past a kernel entry. -/
theorem va2paMmu_kernel (hb : NoTable behind) {m : Mm} {va pa : ℕ}
    (hroot : m.mem r (getGptx va) = bootPageTable behind (getGptx va))
    (hv : isValid (bootPageTable behind (getGptx va))) (h1 : poolBegin ≤ r)
    (h2 : r * pageSize < dramEndPa) : Mmu.va2paMmu m (Mmu.frameVa r) va ≠ .ok pa := by
  intro hok
  have hne : Mmu.frameVa r ≠ 0 := by
    rw [Mmu.frameVa, vaPaOffset]
    omega
  have hlt : r < poolEnd := by
    have := Mmu.frame_bounds h1 h2
    rw [poolEnd_eq]
    omega
  have hi := (index_lt va).1
  rw [← ptSize_eq] at hi
  rw [Mmu.va2paMmu, if_neg hne, Mmu.va2page_frameVa h1 h2, ok_bind, Mmu.page2pa_eq h1 hlt, ok_bind,
    if_neg (by omega), Mmu.index_frameVa, hroot, if_neg (not_not.2 hv)] at hok
  obtain ⟨mptVa, hva, -⟩ := bind_eq_ok.1 hok
  obtain ⟨_, hassert, -⟩ := bind_eq_ok.1 hva
  exact bootPageTable_pa hb hv (assert_eq_ok.1 hassert)

/-- **When `va2pa_mmu` agrees with the MMU**: the root table is a copy of the boot table, the boot
table has no entry for the address, and if the address has a leaf entry it is one that the MMU
accepts. -/
theorem va2paMmu_exact_iff (hb : NoTable behind) (h : (satpTables bpt behind).Reachable s)
    {root : ℕ} (hroot : root = bpt ∨ root ∈ s.roots) (va : ℕ) :
    Mmu.Translates s.mm root va ↔ root ∈ s.roots ∧ ¬ isValid (bootPageTable behind (getGptx va)) ∧
      ∀ pte, s.mm.entry root va = some pte → Mmu.Usable pte := by
  obtain ⟨F, hok⟩ := satpTables_ok hb h
  have hR : root ∈ insert bpt s.roots := hroot
  have hi := (index_lt va).1
  constructor
  · rintro ⟨htrans, -⟩
    have hmem : root ∈ s.roots := by
      refine hroot.resolve_left ?_
      rintro rfl
      exact va2paMmu_boot hok.bpt_lt s.mm va _ htrans
    obtain ⟨h1, h2⟩ := hok.pool root hmem
    have hv : ¬ isValid (bootPageTable behind (getGptx va)) := fun hv =>
      va2paMmu_kernel hb (hok.kernel root hmem _ hi fun hU => hU.2 hv) hv h1 h2 htrans
    refine ⟨hmem, hv, fun pte he => ?_⟩
    by_contra hu
    -- the MMU faults at this entry, and the page is not the page 0
    have hU : getGptx va ∈ freeEntries behind := ⟨hi, hv⟩
    rw [Mmu.va2paMmu_eq hok.consistent.tables hR hU h1 h2,
      Mmu.translate_eq hok.consistent.tables hok.pointers hR hU, he, Option.bind_some,
      if_neg hu] at htrans
    have hpa : Mmu.leafPa pte va = 0 := Except.ok.inj htrans
    have hpage := hok.consistent.tables.data _ (Mm.entry_mem hok.consistent.tables hR hU he)
    rw [Mmu.leafPa, pageSize_eq] at hpa
    rw [poolBegin_eq] at hpage
    omega
  · rintro ⟨hmem, hv, hu⟩
    obtain ⟨h1, h2⟩ := hok.pool root hmem
    have hU : getGptx va ∈ freeEntries behind := ⟨hi, hv⟩
    have hwalk := Mmu.va2paMmu_eq hok.consistent.tables hR hU h1 h2
    refine ⟨?_, fun _ => ?_⟩
    · rw [hwalk, Mmu.translate_eq hok.consistent.tables hok.pointers hR hU]
      cases he : s.mm.entry root va with
      | none => rfl
      | some pte =>
        rw [Option.bind_some, if_pos (hu pte he)]
        rfl
    · rw [hwalk, Mmu.getPagePa_eq hok.consistent.tables hR hU]

end

/-- The boot table in the frame `0x80200`, and eight free pages. -/
def bootTables : SatpState where
  mm := { emptyTables.mm with mem := fun f i => if f = 0x80200 then bootPageTable 0 i else 0 }
  held := ∅
  roots := ∅

theorem bootTables_init : (satpTables 0x80200 0).init bootTables := by
  refine ⟨rfl, rfl, by decide, fun i _ => rfl, _, FreeSet.freeSet_oneBlock (p := 0x82000) (k := 8)
    (by decide) (by decide) (by decide), fun p _ => ?_⟩
  simp only [Mm.ref, bootTables, emptyTables, FreeSet.oneBlock]
  split_ifs <;> rfl

/-- A page is mapped in a copy of the boot table. -/
theorem va2paMmu_exact_user : ∃ s, (satpTables 0x80200 0).Reachable s ∧ 0x82000 ∈ s.roots ∧
    s.mm.entry 0x82000 userBegin = some (ppn2pte 0x82001 (pteV ||| pteR)) ∧
      Mmu.Translates s.mm 0x82000 userBegin := by
  obtain ⟨m₁, vmm, m₂, m₃, h1, hgpt, h2, h3, hentry⟩ : ∃ m₁ vmm m₂ m₃,
      allocGpt 0x80200 bootTables.mm ⟨0, [], none, none, 0, 0⟩ = .ok (m₁, vmm, 0) ∧
      vmm.pGpt = some 0x82000 ∧ m₁.allocPage = .ok (m₂, some 0x82001) ∧
      m₂.addPage 0x82000 0x82001 userBegin pteR = .ok (m₃, 0) ∧
      m₃.entry 0x82000 userBegin = some (ppn2pte 0x82001 (pteV ||| pteR)) :=
    ⟨_, _, _, _, rfl, rfl, rfl, rfl, rfl⟩
  have hr₁ : (satpTables 0x80200 0).Reachable
      ⟨m₁, ∅, ∅ ∪ {r | (0 : ℤ) = 0 ∧ vmm.pGpt = some r}⟩ :=
    (System.Reachable.start bootTables_init).step (l := .allocGpt 0) ⟨_, vmm, h1, rfl, rfl⟩
  have hr₂ : (satpTables 0x80200 0).Reachable ⟨m₂, ∅ ∪ {p | some 0x82001 = some p},
      ∅ ∪ {r | (0 : ℤ) = 0 ∧ vmm.pGpt = some r}⟩ :=
    hr₁.step (l := .allocPage) ⟨_, h2, rfl, rfl⟩
  have hroot : 0x82000 ∈ ∅ ∪ {r | (0 : ℤ) = 0 ∧ vmm.pGpt = some r} := Or.inr ⟨rfl, hgpt⟩
  have hr₃ : (satpTables 0x80200 0).Reachable
      ⟨m₃, (∅ ∪ {p | some 0x82001 = some p}) \ m₃.pmm.freePages,
        ∅ ∪ {r | (0 : ℤ) = 0 ∧ vmm.pGpt = some r}⟩ :=
    hr₂.step (l := .addPage 0x82000 0x82001 userBegin pteR 0)
      ⟨hroot, Or.inr rfl, by decide, h3, rfl, rfl⟩
  refine ⟨_, hr₃, hroot, hentry, ?_⟩
  refine (va2paMmu_exact_iff (fun hv => absurd hv (by decide)) hr₃ (Or.inr hroot) userBegin).2
    ⟨hroot, by decide, fun pte he => ?_⟩
  obtain rfl := Option.some.inj (hentry.symm.trans he)
  decide

/-- The kernel addresses of a copy of the boot table: the MMU finds the gigapage, and `va2pa_mmu`
fails. -/
theorem va2paMmu_gigapage : ∃ s, (satpTables 0x80200 0).Reachable s ∧ 0x82000 ∈ s.roots ∧
    Sv39.translate s.mm.mem 0x82000 0xFFFFFFFF80200000 = some 0x80200000 ∧
    Mmu.va2paMmu s.mm (Mmu.frameVa 0x82000) 0xFFFFFFFF80200000 =
      .error (.assertion "pa > DRAM_BEGIN_PA && pa < DRAM_END_PA") ∧
    ¬ Mmu.Translates s.mm 0x82000 0xFFFFFFFF80200000 := by
  obtain ⟨m₁, vmm, h1, hgpt, htrans, hmmu⟩ : ∃ m₁ vmm,
      allocGpt 0x80200 bootTables.mm ⟨0, [], none, none, 0, 0⟩ = .ok (m₁, vmm, 0) ∧
      vmm.pGpt = some 0x82000 ∧
      Sv39.translate m₁.mem 0x82000 0xFFFFFFFF80200000 = some 0x80200000 ∧
      Mmu.va2paMmu m₁ (Mmu.frameVa 0x82000) 0xFFFFFFFF80200000 =
        .error (.assertion "pa > DRAM_BEGIN_PA && pa < DRAM_END_PA") :=
    ⟨_, _, rfl, rfl, rfl, rfl⟩
  have hr₁ : (satpTables 0x80200 0).Reachable
      ⟨m₁, ∅, ∅ ∪ {r | (0 : ℤ) = 0 ∧ vmm.pGpt = some r}⟩ :=
    (System.Reachable.start bootTables_init).step (l := .allocGpt 0) ⟨_, vmm, h1, rfl, rfl⟩
  refine ⟨_, hr₁, Or.inr ⟨rfl, hgpt⟩, htrans, hmmu, fun h => ?_⟩
  rw [Mmu.Translates, hmmu] at h
  cases h.1

end GarretOS
