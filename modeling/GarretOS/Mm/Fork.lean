import GarretOS.Mm.Areas
import GarretOS.Mm.PageMap

/-!
# Copying an address space

`dup_vmm` copies the areas of the parent and, area by area, the pages that are mapped in them.

`Copied m₀ m R D₀ F₀ fr tr S D F` is the invariant: of the page table `fr`, as it was in the
memory `m₀`, exactly the pages with numbers in `S` have been copied to the page table `tr`; all
that was needed came from the pages `F₀` that were free in `m₀`.

* `copyStep_sat` : what one round of `copy_range` keeps;
* `copyLoop_sat` : the loop ends and copies its range, although it moves on by 512 bytes where the
  parent has no table;
* `dupVmm_copies` : the child is a copy of the parent in frames of its own.
-/

namespace GarretOS

open Radix

namespace Mm

/-- The entry of the child for an entry of the parent: both empty, or a page of its own with the
same content and the same permissions. -/
def IsCopy (m₀ m : Mm) (F₀ : Set ℕ) : Option ℕ → Option ℕ → Prop
  | none, o => o = none
  | some pte, o => ∃ page ∈ F₀, o = some (ppn2pte page (pteV ||| pte &&& pteUser)) ∧
      m.mem page = m₀.mem (pte2ppn pte)

/-- The pages with numbers in `S` have been copied from `fr` to `tr`. -/
structure Copied (m₀ m : Mm) (R D₀ F₀ : Set ℕ) (fr tr : ℕ) (S D F : Set ℕ) : Prop where
  consistent : Consistent m R userEntries D F
  free : F ⊆ F₀
  data : D₀ ⊆ D
  /-- Other page tables have the tables they had. -/
  walk_other : ∀ r ∈ R, r ≠ tr → ∀ p, TablePath userEntries p →
    walk m.child r p = walk m₀.child r p
  /-- The tables of the child were free. -/
  table : ∀ p f, p ≠ [] → TablePath userEntries p → walk m.child tr p = some f → f ∈ F₀
  /-- Nothing else is written. -/
  mem : ∀ f, f ∉ F₀ → f ≠ tr → m.mem f = m₀.mem f
  copied : ∀ a < userEnd, a / pageSize ∈ S → IsCopy m₀ m F₀ (m₀.entry fr a) (m.entry tr a)
  other : ∀ a < userEnd, a / pageSize ∉ S → m.entry tr a = none
  /-- No page is mapped twice. -/
  inj : ∀ a < userEnd, ∀ b < userEnd, ∀ x y, m.entry tr a = some x → m.entry tr b = some y →
    pte2ppn x = pte2ppn y → a / pageSize = b / pageSize

variable {m₀ m m' : Mm} {R D₀ F₀ S D F D' F' : Set ℕ} {fr tr : ℕ}

theorem IsCopy.mono {o o' : Option ℕ} (h : IsCopy m₀ m F₀ o o')
    (hmem : ∀ pte, o' = some pte → m'.mem (pte2ppn pte) = m.mem (pte2ppn pte))
    (hF : ∀ p ∈ F₀, p < 2 ^ 54) : IsCopy m₀ m' F₀ o o' := by
  cases o with
  | none => exact h
  | some pte =>
    obtain ⟨page, hp, ho, hc⟩ := h
    have hm := hmem _ ho
    rw [pte2ppn_ppn2pte (hF page hp) (pteV_or (user_flags pte)).1] at hm
    exact ⟨page, hp, ho, hm.trans hc⟩

/-- In the beginning nothing has been copied. -/
theorem copied_start (h : Consistent m R userEntries D F)
    (hempty : ∀ i ∈ userEntries, ¬ isValid (m.mem tr i)) : Copied m m R D F fr tr ∅ D F := by
  have hentry : ∀ a < userEnd, m.entry tr a = none := by
    intro a ha
    rw [entry, slot, walk, child_of_invalid (hempty _ (getGptx_user ha))]
    rfl
  refine ⟨h, subset_rfl, subset_rfl, fun _ _ _ _ _ => rfl, fun p f hne hp hw => ?_,
    fun _ _ _ => rfl, fun a _ hS => absurd hS (Set.notMem_empty _), fun a ha _ => hentry a ha,
    fun a ha b _ x y hx => ?_⟩
  · cases p with
    | nil => exact absurd rfl hne
    | cons i p =>
      rw [walk, child_of_invalid (hempty i (hp.2.2 i rfl))] at hw
      cases hw
  · rw [hentry a ha] at hx
    cases hx

namespace Copied

theorem pool (h : Consistent m₀ R userEntries D₀ F₀) : ∀ p ∈ F₀, p < 2 ^ 54 := fun p hp => by
  have := (h.tables.free.mem_pool hp).2
  rw [poolEnd_eq] at this
  omega

/-- `get_pte` for the child. -/
theorem grown (h₀ : Consistent m₀ R userEntries D₀ F₀)
    (h : Copied m₀ m R D₀ F₀ fr tr S D F) {N : Set ℕ} (hg : Grown m m' R userEntries D F tr N) :
    Copied m₀ m' R D₀ F₀ fr tr S D (F \ N) := by
  have hr := hg.root
  have hc := h.consistent
  have hentry : ∀ a < userEnd, m'.entry tr a = m.entry tr a := fun a ha =>
    hg.entry_eq hc.tables hr (getGptx_user ha)
  refine ⟨hc.grown hg, Set.sdiff_subset.trans h.free, h.data, fun r hr' hne p hp => ?_,
    fun p f hne hp hw => ?_, fun f hf hne => ?_, fun a ha hS => ?_, fun a ha hS => ?_,
    fun a ha b hb x y hx hy => ?_⟩
  · rw [hg.other r hr' hne p hp, h.walk_other r hr' hne p hp]
  · rcases hg.walk_new tr hr p f hp hw with hw | hN
    · exact h.table p f hne hp hw
    · exact h.free (hg.sub hN)
  · rw [hg.mem f (fun hF => hf (h.free hF)) fun p hp _ hw => ?_, h.mem f hf hne]
    cases p with
    | nil => exact hne (Option.some.inj hw).symm
    | cons i p => exact hf (h.table _ f (by simp) hp hw)
  · rw [hentry a ha]
    refine (h.copied a ha hS).mono (fun pte he => ?_) (pool h₀)
    have hD := entry_mem hc.tables hr (getGptx_user ha) he
    exact hg.mem _ (hc.tables.data _ hD).2.2 fun p hp _ hw =>
      (hc.tables.table tr hr p _ hp hw).2.1 hD
  · rw [hentry a ha, h.other a ha hS]
  · rw [hentry a ha] at hx
    rw [hentry b hb] at hy
    exact h.inj a ha b hb x y hx hy

/-- A frame is taken from the free pages and is not used as a data page. -/
theorem take (h₀ : Consistent m₀ R userEntries D₀ F₀)
    (h : Copied m₀ m R D₀ F₀ fr tr S D F) {page : ℕ} (ha : Allocated m m' F page) :
    Copied m₀ m' R D₀ F₀ fr tr S D (F \ {page}) := by
  have hc := h.consistent
  have hentry : ∀ a, m'.entry tr a = m.entry tr a := entry_congr ha.mem tr
  refine ⟨hc.take ha, Set.sdiff_subset.trans h.free, h.data, fun r hr hne p hp => ?_,
    fun p f hne hp hw => ?_, fun f hf hne => ?_, fun a hau hS => ?_, fun a hau hS => ?_,
    fun a hau b hb x y hx hy => ?_⟩
  · rw [child_congr ha.mem, h.walk_other r hr hne p hp]
  · rw [child_congr ha.mem] at hw
    exact h.table p f hne hp hw
  · rw [ha.mem, h.mem f hf hne]
  · rw [hentry]
    exact (h.copied a hau hS).mono (fun pte _ => by rw [ha.mem]) (pool h₀)
  · rw [hentry, h.other a hau hS]
  · rw [hentry] at hx hy
    exact h.inj a hau b hb x y hx hy

/-- A frame is taken from the free pages as a data page, and filled. -/
theorem fill (h₀ : Consistent m₀ R userEntries D₀ F₀) (htr : tr ∈ R)
    (h : Copied m₀ m R D₀ F₀ fr tr S D F) {m₁ : Mm} {page : ℕ} (ha : Allocated m m₁ F page)
    (hmem : ∀ f, f ≠ page → m'.mem f = m₁.mem f) (hpmm : m'.pmm = m₁.pmm) :
    Copied m₀ m' R D₀ F₀ fr tr S (insert page D) (F \ {page}) := by
  have h₁ := h.take h₀ ha
  have hc₁ : Consistent m₁ R userEntries (insert page D) (F \ {page}) := h.consistent.alloc ha
  have hpage : page ∈ insert page D := Set.mem_insert page D
  have hfree := ha.mem_free
  have hentry : ∀ a < userEnd, m'.entry tr a = m₁.entry tr a := fun a hau =>
    hc₁.entry_write hpage hmem htr (getGptx_user hau)
  refine ⟨hc₁.write hpage hmem hpmm, h₁.free, h.data.trans (Set.subset_insert page D),
    fun r hr hne p hp => ?_, fun p f hne hp hw => ?_, fun f hf hne => ?_, fun a hau hS => ?_,
    fun a hau hS => ?_, fun a hau b hb x y hx hy => ?_⟩
  · rw [hc₁.walk_write hpage hmem hr hp, h₁.walk_other r hr hne p hp]
  · rw [hc₁.walk_write hpage hmem htr hp] at hw
    exact h₁.table p f hne hp hw
  · have hfp : f ≠ page := fun he => hf (he ▸ h.free hfree)
    rw [hmem f hfp, h₁.mem f hf hne]
  · rw [hentry a hau]
    refine (h₁.copied a hau hS).mono (fun pte he => hmem _ ?_) (pool h₀)
    have hD := entry_mem h₁.consistent.tables htr (getGptx_user hau) he
    exact fun hp => (h.consistent.tables.data _ hD).2.2 (hp ▸ hfree)
  · rw [hentry a hau, h₁.other a hau hS]
  · rw [hentry a hau] at hx
    rw [hentry b hb] at hy
    exact h₁.inj a hau b hb x y hx hy

/-- A page that the parent does not map is done. -/
theorem skip (h : Copied m₀ m R D₀ F₀ fr tr S D F) {a : ℕ} (hau : a < userEnd)
    (he : m₀.entry fr a = none) : Copied m₀ m R D₀ F₀ fr tr (insert (a / pageSize) S) D F := by
  refine ⟨h.consistent, h.free, h.data, h.walk_other, h.table, h.mem, fun b hb hS => ?_,
    fun b hb hS => h.other b hb fun hm => hS (Or.inr hm), h.inj⟩
  by_cases hm : b / pageSize ∈ S
  · exact h.copied b hb hm
  · have hba : b / pageSize = a / pageSize := hS.resolve_right hm
    have hidx := (indices_user hau hb).2 hba
    rw [entry, slot_congr_indices hidx]
    rw [entry] at he
    rw [he]
    exact h.other b hb hm

/-- The copy of a page is mapped. -/
theorem map (h₀ : Consistent m₀ R userEntries D₀ F₀) (htr : tr ∈ R)
    (h : Copied m₀ m R D₀ F₀ fr tr S D F) {a page pte : ℕ} (hau : a < userEnd)
    (hpage : page ∈ D) (hF₀ : page ∈ F₀) (hnone : m.entry tr a = none)
    (hfresh : ∀ b < userEnd, ∀ x, m.entry tr b = some x → pte2ppn x ≠ page)
    (he : m₀.entry fr a = some pte) (hcontent : m.mem page = m₀.mem (pte2ppn pte))
    (ht : Touched m m' R userEntries D F tr a
      (some (ppn2pte page (pteV ||| pte &&& pteUser))) D' F') :
    Copied m₀ m' R D₀ F₀ fr tr (insert (a / pageSize) S) D' F' := by
  have hc := h.consistent
  have hU := getGptx_user hau
  obtain ⟨rfl, hF'⟩ := ht.of_none hc htr hU hnone
  have hflags := pteV_or (user_flags pte)
  have hlt := pool h₀ page hF₀
  have hvalid : isValid (ppn2pte page (pteV ||| pte &&& pteUser)) :=
    (isValid_ppn2pte hlt hflags.1).2 hflags.2
  have hppn : pte2ppn (ppn2pte page (pteV ||| pte &&& pteUser)) = page :=
    pte2ppn_ppn2pte hlt hflags.1
  have hentry : ∀ b < userEnd, m'.entry tr b = if b / pageSize = a / pageSize then
      some (ppn2pte page (pteV ||| pte &&& pteUser)) else m.entry tr b := by
    intro b hb
    rw [ht.entry_eq hc htr hU htr (getGptx_user hb)]
    simp only [hvalid, if_true, true_and, indices_user hau hb]
  have hmem : ∀ b < userEnd, ∀ x, m.entry tr b = some x → m'.mem (pte2ppn x) = m.mem (pte2ppn x) :=
    fun b hb x hx => ht.mem_data hc htr hU (entry_mem hc.tables htr (getGptx_user hb) hx)
  refine ⟨hc.touched htr hU ht ?_, hF'.trans h.free, h.data, fun r hr hne p hp => ?_,
    fun p f hne hp hw => ?_, fun f hf hne => ?_, fun b hb hS => ?_, fun b hb hS => ?_,
    fun b hb c hcu x y hx hy => ?_⟩
  · rintro v hv q hq
    obtain rfl := Option.some.inj hv
    rw [target, if_pos hvalid, hppn] at hq
    exact Option.some.inj hq ▸ hpage
  · rw [ht.walk_other hc htr hU hr hne hp, h.walk_other r hr hne p hp]
  · rcases ht.walk_new hc htr hU hp hw with hw | hf
    · exact h.table p f hne hp hw
    · exact h.free hf
  · rw [ht.mem_eq htr hU (fun hF => hf (h.free hF)) fun p hp hw => ?_, h.mem f hf hne]
    cases p with
    | nil => exact hne (Option.some.inj hw).symm
    | cons i p => exact hf (h.table _ f (by simp) hp hw)
  · rw [hentry b hb]
    split_ifs with hba
    · have hidx := (indices_user hau hb).2 hba
      rw [entry, slot_congr_indices hidx]
      rw [entry] at he
      rw [he]
      exact ⟨page, hF₀, rfl, (ht.mem_data hc htr hU hpage).trans hcontent⟩
    · have hm : b / pageSize ∈ S := hS.resolve_left hba
      exact (h.copied b hb hm).mono (hmem b hb) (pool h₀)
  · have hba : b / pageSize ≠ a / pageSize := fun hba => hS (Or.inl hba)
    rw [hentry b hb, if_neg hba]
    exact h.other b hb fun hm => hS (Or.inr hm)
  · rw [hentry b hb] at hx
    rw [hentry c hcu] at hy
    intro hxy
    split_ifs at hx hy with hba hca hca
    · exact hba.trans hca.symm
    · obtain rfl := Option.some.inj hx
      exact absurd (hxy.symm.trans hppn) (hfresh c hcu y hy)
    · obtain rfl := Option.some.inj hy
      exact absurd (hxy.trans hppn) (hfresh b hb x hx)
    · exact h.inj b hb c hcu x y hx hy hxy

end Copied

/-! ### The loop of `copy_range` -/

/-- The entries of the parent stay as they were. -/
theorem Copied.parent_slot (h : Copied m₀ m R D₀ F₀ fr tr S D F) (hfr : fr ∈ R) (hne : fr ≠ tr)
    {a : ℕ} (hau : a < userEnd) : m.slot fr a = m₀.slot fr a := by
  rw [slot, slot, h.walk_other fr hfr hne _ (tablePath_addr (getGptx_user hau))]

theorem Copied.parent_load (h₀ : Consistent m₀ R userEntries D₀ F₀)
    (h : Copied m₀ m R D₀ F₀ fr tr S D F) (htr : tr ∈ R) (hfr : fr ∈ R) (hne : fr ≠ tr) {a : ℕ}
    (hau : a < userEnd) {s : PtePtr} (hs : m₀.slot fr a = some s) : m.load s = m₀.load s := by
  obtain ⟨hl, hk⟩ := slot_leaf (U := userEntries) hfr (getGptx_user hau) hs
  rw [load, load, h.mem s.1 (h₀.tables.leaf_notMem hl).1]
  rintro rfl
  exact h₀.tables.leaf_ne hl s.1 htr [] tablePath_nil (by simp) rfl

/-- **One round of `copy_range`** copies one page, if there is one. -/
theorem copyStep_sat (h₀ : Consistent m₀ R userEntries D₀ F₀) (hfr : fr ∈ R) (htr : tr ∈ R)
    (hne : fr ≠ tr) (h : Copied m₀ m R D₀ F₀ fr tr S D F) {start : ℕ} (hau : start < userEnd)
    (hS : m₀.slot fr start ≠ none → start / pageSize ∉ S) :
    Sat (copyStep m fr tr start) fun res => res.2.1 = 0 →
      res.2.2 = nextAddr m₀ fr start ∧
        ∃ D' F', Copied m₀ res.1 R D₀ F₀ fr tr (insert (start / pageSize) S) D' F' := by
  have hc := h.consistent
  have hU := getGptx_user hau
  unfold copyStep
  rw [getPte_false hc.tables hfr hU, ok_bind, h.parent_slot hfr hne hau]
  cases hs : m₀.slot fr start with
  | none =>
    refine fun _ => ⟨by rw [nextAddr, if_pos hs], D, F, h.skip hau ?_⟩
    rw [entry, hs]
    rfl
  | some p =>
    have hnext : u64 (start + pageSize) = nextAddr m₀ fr start := by
      rw [nextAddr, if_neg (by simp [hs])]
    have hload : m.load p = m₀.load p := h.parent_load h₀ htr hfr hne hau hs
    simp only
    split_ifs with hv
    · have he : m₀.entry fr start = some (m₀.load p) := by
        rw [entry_of_slot hs, if_pos (hload ▸ hv)]
      refine (getPte_sat hc.tables htr hU true).bind ?_
      rintro ⟨m₁, _ | q⟩ ⟨N, hg, -⟩
      · exact fun hret => absurd hret (show ¬ -eNoMem = 0 by decide)
      have h₁ := h.grown h₀ hg
      have hload₁ : m₁.load p = m₀.load p := h₁.parent_load h₀ htr hfr hne hau hs
      have hv₁ : isValid (m₀.load p) := hload ▸ hv
      simp only [hload₁, pte2page, assert_of hv₁, ok_bind]
      refine (allocPage_sat h₁.consistent.tables.free).bind ?_
      rintro ⟨m₂, _ | page⟩ ha
      · simp [Sat]
      have ha : Allocated m₁ m₂ (F \ N) page := ha
      refine (page2va_sat page).bind ?_
      rintro dst ⟨hdst, -⟩
      refine (page2va_sat (pte2ppn (m₀.load p))).bind ?_
      rintro src ⟨hsrc, -⟩
      rw [hdst, hsrc]
      have hsrc := entry_mem h₀.tables hfr hU he
      have h₃ : Copied m₀ (m₂.memcpyPage page (pte2ppn (m₀.load p))) R D₀ F₀ fr tr S
          (insert page D) ((F \ N) \ {page}) :=
        h₁.fill h₀ htr ha (fun f hf => by simp only [memcpyPage, Function.update_of_ne hf]) rfl
      refine (addPage_touched h₃.consistent htr hU (Set.mem_insert page D)
        (user_flags (m₀.load p))).bind ?_
      rintro ⟨m₄, ret⟩ ⟨w, D', F', ht, ⟨-, hret⟩ | ⟨rfl, hret⟩⟩
      · exact fun h0 => absurd (hret.symm.trans h0) (by decide)
      · refine fun _ => ⟨hnext, D', F', ?_⟩
        have hfree := ha.mem_free
        refine h₃.map h₀ htr hau (Set.mem_insert page D) (h₁.free hfree) (h₃.other start hau
          (hS (by simp [hs])))
          (fun b hb x hx hxp => ?_) he ?_ ht
        · -- the page was free, so the child does not map it yet
          rw [h₁.consistent.alloc ha |>.entry_write (Set.mem_insert page D)
            (fun f hf => by simp only [memcpyPage, Function.update_of_ne hf]) htr
            (getGptx_user hb), entry_congr ha.mem] at hx
          have hD := entry_mem h₁.consistent.tables htr (getGptx_user hb) hx
          exact (h₁.consistent.tables.data _ hD).2.2 (hxp ▸ hfree)
        · have hsrcF : pte2ppn (m₀.load p) ∉ F₀ := (h₀.tables.data _ hsrc).2.2
          have hsrctr : pte2ppn (m₀.load p) ≠ tr := fun heq =>
            (h₀.tables.table tr htr [] tr tablePath_nil rfl).2.1 (heq ▸ hsrc)
          simp only [memcpyPage, Function.update_self]
          rw [ha.mem, h₁.mem _ hsrcF hsrctr]
    · refine fun _ => ⟨hnext, D, F, h.skip hau ?_⟩
      rw [entry_of_slot hs, if_neg (hload ▸ hv)]

/-- **The loop of `copy_range`** comes to an end, and copies its range if it returns `0`. -/
theorem copyLoop_sat (h₀ : Consistent m₀ R userEntries D₀ F₀) (hfr : fr ∈ R) (htr : tr ∈ R)
    (hne : fr ≠ tr) {start₀ stop : ℕ} (hstart₀ : start₀ % pageSize = 0) (hstop : stop ≤ userEnd)
    (hend : stop % pageSize = 0) (hdisj : ∀ vpn ∈ pageRange start₀ stop, vpn ∉ S) (k : ℕ) :
    ∀ {start : ℕ} {m : Mm} {D F : Set ℕ}, (stop - start) / ptSize < k →
      Cursor m₀ fr start₀ stop start →
      Copied m₀ m R D₀ F₀ fr tr (S ∪ pageRange start₀ start) D F →
      Sat (copyLoop fr tr stop k m start) fun res => res.2 = 0 →
        ∃ D' F', Copied m₀ res.1 R D₀ F₀ fr tr (S ∪ pageRange start₀ stop) D' F' := by
  induction k with
  | zero =>
    intro start m D F hk
    exact absurd hk (Nat.not_lt_zero _)
  | succ k ih =>
    intro start m D F hk hcur h
    obtain ⟨h1, h2, h3, h4, h5⟩ := hcur.next (S := S) hstart₀ hstop hend
    unfold copyLoop
    refine (copyStep_sat h₀ hfr htr hne h (lt_of_lt_of_le hcur.lt hstop)
      (hcur.fresh hdisj)).bind ?_
    rintro ⟨m₁, ret, next⟩ hstep
    by_cases hret : ret = 0
    · obtain ⟨hnext, D', F', h'⟩ := hstep hret
      simp only at hnext h'
      rw [h3] at h'
      simp only [ne_eq, hret, not_true_eq_false, if_false, hnext]
      by_cases hcont : nextAddr m₀ fr start ≠ 0 ∧ nextAddr m₀ fr start < stop
      · rw [if_pos hcont]
        exact ih (h5 k hk hcont.2) (h4 hcont.2) h'
      · rw [if_neg hcont]
        have hdone : nextAddr m₀ fr start = stop := by omega
        rw [hdone] at h'
        exact fun _ => ⟨D', F', h'⟩
    · simp only [ne_eq, hret, not_false_eq_true, if_true]
      exact fun h0 => absurd h0 hret

end Mm

/-! ### The loop of `dup_vmm` -/

variable {m₀ m : Mm} {R D₀ F₀ D F : Set ℕ} {fr tr : ℕ}

theorem vmaPages_cons (v : Vma) (vmas : List Vma) :
    vmaPages (v :: vmas) = vmaPages vmas ∪ Mm.pageRange v.vmStart v.vmEnd := by
  ext vpn
  simp only [vmaPages, List.mem_cons, Set.mem_union, Set.mem_ofPred_eq, or_and_right, exists_or,
    exists_eq_left]
  exact or_comm

/-- What the call of `copy_range` for an area comes to. -/
theorem copyRange_eq {v : Vma} (h : v.vmStart % pageSize = 0 ∧ v.vmEnd % pageSize = 0 ∧
    userAccess v.vmStart v.vmEnd) (k : ℕ) (m : Mm) (from_ to_ : ℕ) :
    copyRange k m from_ to_ v.vmStart v.vmEnd = copyLoop from_ to_ v.vmEnd k m v.vmStart := by
  rw [copyRange, checkRange, assert_of ⟨h.1, h.2.1⟩, assert_of h.2.2]
  rfl

namespace VmasOk

variable {vma : Vma} {vmas done : List Vma}

/-- The areas that have been copied are above the next one. -/
theorem below (h : VmasOk (vmas ++ vma :: done)) : ∀ v ∈ done, vma.vmEnd ≤ v.vmStart :=
  (List.pairwise_cons.1 (List.pairwise_append.1 h.sorted).2.1).1

theorem fresh (h : VmasOk (vmas ++ vma :: done)) :
    ∀ vpn ∈ Mm.pageRange vma.vmStart vma.vmEnd, vpn ∉ vmaPages done := by
  rintro vpn ⟨-, h2⟩ ⟨w, hw, h3, -⟩
  have := h.below w hw
  omega

/-- The new area goes to the front of the child's areas, which are copies of those in `done`. -/
theorem addVma_eq (h : VmasOk (vmas ++ vma :: done)) {to_ : VmManager} {newVma : Vma}
    (hmap : to_.vmaList.map Vma.triple = done.map Vma.triple) (hnew : newVma.triple = vma.triple) :
    addVma to_ newVma = .ok { to_ with
      vmaList := newVma :: to_.vmaList, vmaCount := u32 (to_.vmaCount + 1) } := by
  simp only [Vma.triple, Prod.mk.injEq] at hnew
  obtain ⟨ht1, ht2, -⟩ := hnew
  obtain ⟨-, -, -, hlt, -⟩ := h.area vma (by simp)
  refine addVma_front (by omega) fun v hv => ?_
  have hmem : v.triple ∈ done.map Vma.triple := hmap ▸ List.mem_map_of_mem hv
  obtain ⟨w, hw, hwv⟩ := List.mem_map.1 hmem
  simp only [Vma.triple, Prod.mk.injEq] at hwv
  have hbw := h.below w hw
  obtain ⟨-, -, -, hlt, -⟩ := h.area w (by simp [hw])
  omega

end VmasOk

/-- **The loop of `dup_vmm`** : the areas `vmas` are still to be copied, the areas `done` after
them have been. -/
theorem dupVmas_sat (h₀ : Mm.Consistent m₀ R userEntries D₀ F₀) (hfr : fr ∈ R) (htr : tr ∈ R)
    (hne : fr ≠ tr) {k : ℕ} (hk : userEnd / ptSize ≤ k) {from_ : VmManager}
    (hfrom : from_.pGpt = some fr) (vmas : List Vma) :
    ∀ {done : List Vma} {to_ : VmManager} {m : Mm} {D F : Set ℕ}, to_.pGpt = some tr →
      VmasOk (vmas.reverse ++ done) → to_.vmaList.map Vma.triple = done.map Vma.triple →
      Mm.Copied m₀ m R D₀ F₀ fr tr (vmaPages done) D F →
      Sat (dupVmas k m from_ vmas to_) fun res => res.2.2 = 0 →
        res.2.1.pGpt = some tr ∧
        res.2.1.vmaList.map Vma.triple = (vmas.reverse ++ done).map Vma.triple ∧
        ∃ D' F', Mm.Copied m₀ res.1 R D₀ F₀ fr tr (vmaPages (vmas.reverse ++ done)) D' F' := by
  induction vmas with
  | nil =>
    intro done to_ m D F hto _ hmap h
    exact fun _ => ⟨hto, hmap, D, F, h⟩
  | cons vma vmas ih =>
    intro done to_ m D F hto hok hmap h
    rw [List.reverse_cons, List.append_assoc, List.singleton_append] at hok ⊢
    obtain ⟨hs, he, hu⟩ := hok.area vma (by simp)
    unfold dupVmas
    refine (initVma_sat h.consistent.tables.free _ _ _).bind ?_
    rintro ⟨m₁, newVma⟩ ⟨ha, htriple⟩
    have h₁ := h.take h₀ ha
    simp only [hok.addVma_eq hmap htriple, ok_bind, VmManager.gpt, hfrom, hto,
      copyRange_eq ⟨hs, he, hu⟩]
    refine (Mm.copyLoop_sat h₀ hfr htr hne hs hu.2.2 he hok.fresh k (rounds_lt hu hk)
      (.start hs hu.2.1) (by rw [Mm.union_pageRange_self]; exact h₁)).bind ?_
    rintro ⟨m₂, ret⟩ hloop
    by_cases hret : ret = 0
    · obtain ⟨D', F', h₂⟩ := hloop hret
      simp only [ne_eq, hret, not_true_eq_false, if_false]
      refine ih rfl hok ?_ (vmaPages_cons vma done ▸ h₂)
      rw [List.map_cons, List.map_cons, hmap, show newVma.triple = vma.triple from htriple]
    · simp only [ne_eq, hret, not_false_eq_true, if_true]
      exact fun h0 => absurd h0 (show ¬ -eNoMem = 0 by decide)

/-! ### The child is a copy -/

/-- The frames of a page table: its tables and the pages that it maps. -/
def Mm.frames (m : Mm) (r : ℕ) : Set ℕ :=
  {f | (∃ p, Mm.TablePath userEntries p ∧ walk m.child r p = some f) ∨
    ∃ a < userEnd, ∃ pte, m.entry r a = some pte ∧ pte2ppn pte = f}

/-- At this address the child has a copy of what the parent has there. -/
def CopiedAt (m m' : Mm) (fr tr a : ℕ) : Prop :=
  ∃ o o', m.lookup fr a = .ok o ∧ m'.lookup tr a = .ok o' ∧ (o'.isSome ↔ o.isSome) ∧
    ∀ p ∈ o, ∀ p' ∈ o', p'.2 &&& pteUser = p.2 &&& pteUser ∧ m'.mem p'.1 = m.mem p.1

theorem user_eq_mod (n : ℕ) : n &&& pteUser = n % 32 := Nat.and_two_pow_sub_one_eq_mod n 5

/-- The permissions of the copy of a page. -/
theorem copy_flags {pte page : ℕ} (hv : isValid pte) (hp : page < 2 ^ 54) :
    pteFlags (ppn2pte page (pteV ||| pte &&& pteUser)) &&& pteUser = pteFlags pte &&& pteUser := by
  have hodd := (isValid_iff pte).1 hv
  have hsmall : ∀ x < 32, x % 2 = 1 → (pteV ||| x) % 32 = x := by decide
  rw [pteFlags_ppn2pte hp (pteV_or (user_flags pte)).1, user_eq_mod, user_eq_mod, user_eq_mod,
    hsmall (pte % 32) (by omega) (by omega), pteFlags, pteShift]
  omega

/-- What the invariant says about an address in the areas. -/
theorem Mm.Copied.copiedAt {S : Set ℕ} (h₀ : Mm.Consistent m₀ R userEntries D₀ F₀)
    (h : Mm.Copied m₀ m R D₀ F₀ fr tr S D F) (hfr : fr ∈ R) (htr : tr ∈ R) {a : ℕ}
    (ha : a < userEnd) (hS : a / pageSize ∈ S) : CopiedAt m₀ m fr tr a := by
  have hU := getGptx_user ha
  refine ⟨_, _, Mm.lookup_eq h₀.tables hfr hU, Mm.lookup_eq h.consistent.tables htr hU, ?_⟩
  have hcopy := h.copied a ha hS
  cases he : m₀.entry fr a with
  | none =>
    rw [he] at hcopy
    rw [show m.entry tr a = none from hcopy]
    simp
  | some pte =>
    rw [he] at hcopy
    obtain ⟨page, hp, ho, hc⟩ := hcopy
    have hlt := Mm.Copied.pool h₀ page hp
    have hv : isValid pte := by
      unfold Mm.entry at he
      obtain ⟨s, -, hs⟩ := Option.bind_eq_some_iff.1 he
      split_ifs at hs with hv
      exact Option.some.inj hs ▸ hv
    rw [ho]
    refine ⟨by simp, ?_⟩
    rintro _ ⟨⟩ _ ⟨⟩
    refine ⟨copy_flags hv hlt, ?_⟩
    simp only
    rw [pte2ppn_ppn2pte hlt (pteV_or (user_flags pte)).1, hc]

/-- **`dup_vmm` copies an address space.**  The parent's areas are page-aligned, in order and
disjoint, and the user part of the child's page table is empty.  The call comes to an end; and if
it returns `0`, then the child has the areas of the parent; in the areas it maps what the parent
maps there, with the same permissions and the same content, and elsewhere nothing; its pages and
its tables below the root are frames that were free, and so none of the parent's, and no two of
its pages are the same; and the mappings and all frames of the parent are as before. -/
theorem dupVmm_copies (h : m.Consistent R userEntries D F) (hfr : fr ∈ R) (htr : tr ∈ R)
    (hne : fr ≠ tr) (hempty : ∀ i ∈ userEntries, ¬ isValid (m.mem tr i)) {from_ to_ : VmManager}
    (hfrom : from_.pGpt = some fr) (hto : to_.pGpt = some tr) (hok : VmasOk from_.vmaList)
    (hnil : to_.vmaList = []) {k : ℕ} (hk : userEnd / ptSize ≤ k) :
    dupVmm k m from_ to_ ≠ .error .diverges ∧
    ∀ m' to', dupVmm k m from_ to_ = .ok (m', to', 0) →
      to'.pGpt = some tr ∧
      to'.vmaList.map Vma.triple = from_.vmaList.map Vma.triple ∧
      (∀ a < userEnd, (∃ v ∈ from_.vmaList, v.holds a) → CopiedAt m m' fr tr a) ∧
      (∀ a < userEnd, (¬ ∃ v ∈ from_.vmaList, v.holds a) → m'.lookup tr a = .ok none) ∧
      (∀ f ∈ m'.frames tr, f ≠ tr → f ∈ F ∧ f ∉ m.frames fr) ∧
      (∀ a < userEnd, ∀ b < userEnd, ∀ p q, m'.lookup tr a = .ok (some p) →
        m'.lookup tr b = .ok (some q) → p.1 = q.1 → a / pageSize = b / pageSize) ∧
      (∀ a < userEnd, m'.lookup fr a = m.lookup fr a) ∧
      ∀ f ∈ m.frames fr, m'.mem f = m.mem f := by
  have hnilMap : to_.vmaList.map Vma.triple = [].map Vma.triple := by simp [hnil]
  have hrun : Sat (dupVmm k m from_ to_) _ := dupVmas_sat h hfr htr hne hk hfrom
    from_.vmaList.reverse hto (by simpa using hok) hnilMap
    (by rw [vmaPages_nil]; exact Mm.copied_start h hempty)
  refine ⟨hrun.ne_diverges, fun m' to' heq => ?_⟩
  obtain ⟨hgpt, hmap, D', F', hc⟩ := hrun.of_ok heq rfl
  simp only [List.reverse_reverse, List.append_nil] at hmap hc
  have hlookup : ∀ a < userEnd, m'.lookup tr a = .ok ((m'.entry tr a).map
      fun pte => (pte2ppn pte, pteFlags pte)) := fun a ha =>
    Mm.lookup_eq hc.consistent.tables htr (getGptx_user ha)
  -- the frames of the parent were in use before, so the copy takes none of them
  have hparent : ∀ f ∈ m.frames fr, f ∉ F ∧ f ≠ tr := by
    rintro f (⟨p, hp, hw⟩ | ⟨a, ha, pte, he, rfl⟩)
    · refine ⟨(h.tables.table fr hfr p f hp hw).1, ?_⟩
      rintro rfl
      exact hne (h.tables.separated.unique fr hfr f htr p [] f hp Mm.tablePath_nil hw rfl).1
    · have hD := Mm.entry_mem h.tables hfr (getGptx_user ha) he
      refine ⟨(h.tables.data _ hD).2.2, fun heq => ?_⟩
      exact (h.tables.table tr htr [] tr Mm.tablePath_nil rfl).2.1 (heq ▸ hD)
  refine ⟨hgpt, hmap, fun a ha hv => hc.copiedAt h hfr htr ha ((vmaPages_iff hok).2 hv),
    fun a ha hv => ?_, fun f hf hft => ?_, fun a ha b hb p q hp hq hpq => ?_, fun a ha => ?_,
    fun f hf => hc.mem f (hparent f hf).1 (hparent f hf).2⟩
  · rw [hlookup a ha, hc.other a ha fun hS => hv ((vmaPages_iff hok).1 hS)]
    rfl
  · have hfF : f ∈ F := by
      rcases hf with ⟨p, hp, hw⟩ | ⟨a, ha, pte, he, rfl⟩
      · refine hc.table p f ?_ hp hw
        rintro rfl
        exact hft (Option.some.inj hw).symm
      · -- the child has an entry only where it has got a copy, and that is on a fresh page
        by_cases hS : a / pageSize ∈ vmaPages from_.vmaList
        · have hcopy := hc.copied a ha hS
          rw [he] at hcopy
          cases hm : m.entry fr a with
          | none =>
            rw [hm] at hcopy
            cases hcopy
          | some pte₀ =>
            rw [hm] at hcopy
            obtain ⟨page, hp, ho, -⟩ := hcopy
            rw [Option.some.inj ho, pte2ppn_ppn2pte (Mm.Copied.pool h page hp)
              (pteV_or (user_flags pte₀)).1]
            exact hp
        · rw [hc.other a ha hS] at he
          cases he
    exact ⟨hfF, fun hm => (hparent f hm).1 hfF⟩
  · rw [hlookup a ha] at hp
    rw [hlookup b hb] at hq
    obtain ⟨x, hx, rfl⟩ := Option.map_eq_some_iff.1 (Except.ok.inj hp)
    obtain ⟨y, hy, rfl⟩ := Option.map_eq_some_iff.1 (Except.ok.inj hq)
    exact hc.inj a ha b hb x y hx hy hpq
  · have hU := getGptx_user ha
    have hslot := hc.parent_slot hfr hne ha
    rw [Mm.lookup_eq hc.consistent.tables hfr hU, Mm.lookup_eq h.tables hfr hU, Mm.entry, Mm.entry,
      hslot]
    cases hs : m.slot fr a with
    | none => rfl
    | some s => rw [Option.bind_some, Option.bind_some, hc.parent_load h htr hfr hne ha hs]

/-- A parent with one area of one page, which is mapped, and its child. -/
theorem dupVmm_copies_page : ∃ m m' to', dupVmm 4194304 m
    ⟨0x80000, [⟨0x80001, userBegin, userBegin + pageSize, vmaWrite⟩], none, some 0x80100, 1, 1⟩
    ⟨0x80002, [], none, some 0x80101, 0, 0⟩ = .ok (m', to', 0) ∧
      m.lookup 0x80100 userBegin = .ok (some (0x82000, pteV ||| pteR)) ∧
      CopiedAt m m' 0x80100 0x80101 userBegin := by
  have h₀ : (pageTables {0x80100, 0x80101}).Run [] emptyTables :=
    .start (emptyTables_init (by simp))
  obtain ⟨m₁, m, m', to', hm₁, hm, hempty, hlookup, hdup⟩ : ∃ m₁ m m' to',
      emptyTables.mm.allocPage = .ok (m₁, some 0x82000) ∧
      m₁.addPage 0x80100 0x82000 userBegin pteR = .ok (m, 0) ∧
      (isValid (m.mem 0x80101 0) = false ∧ isValid (m.mem 0x80101 1) = false) ∧
      m.lookup 0x80100 userBegin = .ok (some (0x82000, pteV ||| pteR)) ∧
      dupVmm 4194304 m ⟨0x80000, [⟨0x80001, userBegin, userBegin + pageSize, vmaWrite⟩], none,
        some 0x80100, 1, 1⟩ ⟨0x80002, [], none, some 0x80101, 0, 0⟩ = .ok (m', to', 0) :=
    ⟨_, _, _, _, rfl, rfl, ⟨rfl, rfl⟩, rfl, rfl⟩
  have h₁ : (pageTables {0x80100, 0x80101}).Run [.allocPage]
      ⟨m₁, ∅ ∪ {p | some 0x82000 = some p}⟩ := h₀.step ⟨_, hm₁, rfl⟩
  have h₂ : (pageTables {0x80100, 0x80101}).step ⟨m₁, ∅ ∪ {p | some 0x82000 = some p}⟩
      (.addPage 0x80100 0x82000 userBegin pteR 0) ⟨m, _ \ m.pmm.freePages⟩ :=
    ⟨Or.inl rfl, ⟨by decide, by decide⟩, Or.inr rfl, by decide, hm, rfl⟩
  obtain ⟨F, (hF : m.Consistent _ _ _ F)⟩ := pageTables_consistent ⟨_, h₁.step h₂⟩
  have hok : VmasOk [⟨0x80001, userBegin, userBegin + pageSize, vmaWrite⟩] :=
    ⟨List.pairwise_singleton _ _, fun v hv => by rw [List.mem_singleton.1 hv]; decide⟩
  obtain ⟨-, hcopy⟩ := dupVmm_copies (k := 4194304) hF (Or.inl rfl) (Or.inr rfl) (by decide)
    (fun i (hi : i < 2) => by
      obtain rfl | rfl : i = 0 ∨ i = 1 := by omega
      · simp [hempty.1]
      · simp [hempty.2])
    (show VmManager.pGpt ⟨0x80000, _, none, some 0x80100, 1, 1⟩ = _ from rfl)
    (show VmManager.pGpt ⟨0x80002, [], none, some 0x80101, 0, 0⟩ = _ from rfl) hok rfl (by decide)
  obtain ⟨-, -, hcopied, -⟩ := hcopy m' to' hdup
  exact ⟨m, m', to', hdup, hlookup,
    hcopied userBegin (by decide) ⟨_, List.mem_singleton.2 rfl, by decide⟩⟩

end GarretOS
