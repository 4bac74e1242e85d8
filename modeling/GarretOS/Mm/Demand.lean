import GarretOS.Mm.Consistent

/-!
# When `get_pte` succeeds

`get_pte` with creation needs a page for every table that is missing on the way to the leaf entry,
and it needs the page to be memory that exists.  Which pages it gets is decided by the allocator:
`nextPages` lists them, and reference counters play no role in it (`nextPages_withRefs`).

* `allocPage_eq`, `ensureTable_eq`, `getPte_eq` : the outcome of a call, as an equation, from the
  pages that the allocator hands out next;
* `Grown.leaf_eq` : creating tables does not change the content of a leaf entry, valid or not.
-/

namespace GarretOS

open Radix

/-! ### The pages that come next -/

namespace BestFit

/-- The pages that the next `k` calls of `alloc_page` return, fewer if memory is used up. -/
def nextPages : ℕ → BestFit → List ℕ
  | 0, _ => []
  | k + 1, s =>
    match s.bestFitAllocPages 1 with
    | .ok (s', some p) => p :: nextPages k s'
    | _ => []

/-- The allocator state with the reference counters `ρ`. -/
def withRefs (s : BestFit) (ρ : ℕ → ℕ) : BestFit :=
  { s with page := fun i => { s.page i with ref := ρ i } }

variable {s : BestFit} {ρ : ℕ → ℕ}

theorem modifyPage_withRefs {f : Page → Page} (hf : ∀ p n, f { p with ref := n } =
    { f p with ref := n }) (i : ℕ) :
    (s.withRefs ρ).modifyPage i f = (s.modifyPage i f).withRefs ρ := by
  unfold modifyPage withRefs
  congr 1
  funext j
  by_cases hj : j = i
  · subst hj
    simp only [Function.update_self]
    exact hf _ _
  · simp only [Function.update_of_ne hj]

theorem modifyRef_eq_withRefs (s : BestFit) (i n : ℕ) :
    (s.modifyPage i fun q => { q with ref := n }) =
      s.withRefs (Function.update (fun j => (s.page j).ref) i n) := by
  unfold modifyPage withRefs
  congr 1
  funext j
  by_cases hj : j = i
  · subst hj
    simp only [Function.update_self]
  · simp only [Function.update_of_ne hj]

theorem findBest_withRefs (n k : ℕ) (l : FreeLink) (page : Option ℕ) (m : ℕ) :
    (s.withRefs ρ).findBest n k l page m = s.findBest n k l page m := by
  induction k generalizing l page m with
  | zero => rfl
  | succ k ih =>
    rw [findBest, findBest]
    rw [show (s.withRefs ρ).freeLink = s.freeLink from rfl]
    cases s.freeLink.next l with
    | freeList => rfl
    | page p =>
      simp only [ih]
      rfl

theorem splitTail_withRefs (page n : ℕ) :
    (s.withRefs ρ).splitTail page n = (s.splitTail page n).withRefs ρ := by
  unfold splitTail
  simp only
  rw [modifyPage_withRefs fun _ _ => rfl, modifyPage_withRefs fun _ _ => rfl]
  rfl

theorem takeBlock_withRefs (page n : ℕ) :
    (s.withRefs ρ).takeBlock page n = (s.takeBlock page n).withRefs ρ := by
  -- what follows the cut, for any state
  have hrest : ∀ t : BestFit,
      (({ t.withRefs ρ with numFree := t.numFree - n } : BestFit).modifyPage page fun p =>
        { p with flags := p.flags &&& ~~~pageProperty }).modifyPage page
          (fun p => { p with property := 0 }) =
      ((({ t with numFree := t.numFree - n } : BestFit).modifyPage page fun p =>
        { p with flags := p.flags &&& ~~~pageProperty }).modifyPage page
          fun p => { p with property := 0 }).withRefs ρ := by
    intro t
    rw [← modifyPage_withRefs fun _ _ => rfl, ← modifyPage_withRefs fun _ _ => rfl]
    rfl
  unfold takeBlock
  by_cases hlt : n < (s.page page).property
  · have hlt' : n < ((s.withRefs ρ).page page).property := hlt
    simp only [hlt, hlt', if_true]
    rw [← hrest, ← splitTail_withRefs]
    rfl
  · have hlt' : ¬ n < ((s.withRefs ρ).page page).property := hlt
    simp only [hlt, hlt', if_false]
    exact hrest { s with freeLink := s.freeLink.delList (.page page) }

/-- The allocator does not look at reference counters. -/
theorem bestFitAllocPages_withRefs (n : ℕ) : (s.withRefs ρ).bestFitAllocPages n =
    (s.bestFitAllocPages n).map fun res => (res.1.withRefs ρ, res.2) := by
  unfold bestFitAllocPages assert
  rw [show (s.withRefs ρ).numFree = s.numFree from rfl,
    show (s.withRefs ρ).rounds = s.rounds from rfl, findBest_withRefs]
  by_cases hn : 0 < n
  · by_cases hlt : s.numFree < n
    · simp only [hn, hlt, if_true]
      rfl
    · simp only [hn, hlt, if_true, if_false, ok_bind]
      rcases s.findBest n s.rounds .freeList none uint32Max with e | (_ | p)
      · rfl
      · rfl
      · simp only [ok_bind, takeBlock_withRefs]
        rfl
  · simp only [hn, if_false]
    rfl

theorem nextPages_withRefs (k : ℕ) : (s.withRefs ρ).nextPages k = s.nextPages k := by
  induction k generalizing s with
  | zero => rfl
  | succ k ih =>
    unfold nextPages
    rw [bestFitAllocPages_withRefs]
    rcases s.bestFitAllocPages 1 with e | ⟨s', _ | p⟩
    · rfl
    · rfl
    · simp only [Except.map, ih]

theorem nextPages_take (s : BestFit) (k j : ℕ) :
    (s.nextPages (k + j)).take k = s.nextPages k := by
  induction k generalizing s with
  | zero => rfl
  | succ k ih =>
    rw [show k + 1 + j = k + j + 1 by omega, nextPages, nextPages]
    rcases s.bestFitAllocPages 1 with e | ⟨s', _ | p⟩
    · rfl
    · rfl
    · simp only [List.take_succ_cons, ih]

end BestFit

namespace Mm

/-- The next `k` calls of `alloc_page` return pages of memory that exists. -/
def Available (m : Mm) (k : ℕ) : Prop :=
  (m.pmm.nextPages k).length = k ∧ ∀ p ∈ m.pmm.nextPages k, p * pageSize < dramEndPa

/-- The content of the leaf entry for the address, `0` where there is none. -/
def leaf (m : Mm) (r addr : ℕ) : ℕ := ((m.slot r addr).map m.load).getD 0

/-- The number of tables that are missing on the way to the leaf entry. -/
def missing (m : Mm) (r addr : ℕ) : ℕ :=
  match m.child r (getGptx addr) with
  | none => 2
  | some f => if m.child f (getMptx addr) = none then 1 else 0

variable {m m' : Mm} {R U D F N : Set ℕ} {r addr : ℕ} {s : PtePtr}

theorem leaf_of_slot (hs : m.slot r addr = some s) : m.leaf r addr = m.load s := by
  rw [leaf, hs]
  rfl

/-- An empty entry maps no page. -/
theorem entry_of_leaf (h : m.leaf r addr = 0) : m.entry r addr = none := by
  cases hs : m.slot r addr with
  | none => rw [entry, hs, Option.bind_none]
  | some s =>
    rw [leaf_of_slot hs] at h
    rw [entry_of_slot hs, h]
    rfl

theorem slot_of_leaf (h : m.leaf r addr ≠ 0) : ∃ s, m.slot r addr = some s := by
  unfold leaf at h
  cases hs : m.slot r addr with
  | none => simp [hs] at h
  | some s => exact ⟨s, rfl⟩

/-- Where the leaf entry exists no table is missing. -/
theorem missing_of_slot (hs : m.slot r addr = some s) : m.missing r addr = 0 := by
  unfold slot at hs
  obtain ⟨f, hw, -⟩ := Option.map_eq_some_iff.1 hs
  obtain ⟨f₁, hf₁, hw⟩ := Option.bind_eq_some_iff.1 hw
  obtain ⟨f₂, hf₂, -⟩ := Option.bind_eq_some_iff.1 hw
  unfold missing
  rw [hf₁]
  simp [hf₂]

/-! ### Allocation as an equation -/

theorem nextPages_setRef (m : Mm) (i n k : ℕ) :
    (m.setRef i n).pmm.nextPages k = m.pmm.nextPages k := by
  rw [show (m.setRef i n).pmm = m.pmm.modifyPage i fun q => { q with ref := n } from rfl,
    BestFit.modifyRef_eq_withRefs, BestFit.nextPages_withRefs]

/-- **`alloc_page`** hands out the next page, or fails. -/
theorem allocPage_eq (h : FreeSet m.pmm F) :
    (∃ m' p, m.allocPage = .ok (m', some p) ∧ Allocated m m' F p ∧
      ∀ k, m.pmm.nextPages (k + 1) = p :: m'.pmm.nextPages k) ∨
    m.pmm.nextPages 1 = [] ∧ m.allocPage =
      if m.swapInit then .error (.panic "swap_out: g_test_vmm is NULL") else .ok (m, none) := by
  unfold allocPage allocPages
  rcases h.alloc with h | ⟨s', p, h, h1, h2, h3⟩
  · refine Or.inr ⟨by rw [BestFit.nextPages, h], ?_⟩
    simp only [h, ok_bind, true_and]
    rfl
  · refine Or.inl ⟨{ m with pmm := s' }, p, ?_, ⟨h1, h2, rfl, h3, rfl⟩, fun k => ?_⟩
    · simp only [h, ok_bind]
      rw [if_neg (by simp)]
      rfl
    · rw [BestFit.nextPages, h]

/-! ### `get_pte` as an equation -/

/-- `m'` is `m` with `k` more tables, of the page table `r`. -/
structure Created (m m' : Mm) (R U D F : Set ℕ) (r k : ℕ) (N : Set ℕ) : Prop where
  grown : Grown m m' R U D F r N
  /-- No leaf entry has another content, be it valid or not. -/
  leaf : ∀ r' ∈ R, ∀ b, getGptx b ∈ U → m'.leaf r' b = m.leaf r' b
  /-- The allocator has handed out `k` pages. -/
  next : ∀ j, m.pmm.nextPages (k + j) = m.pmm.nextPages k ++ m'.pmm.nextPages j

theorem Available.mono {k j : ℕ} (h : m.Available (k + j)) : m.Available k := by
  obtain ⟨h1, h2⟩ := h
  have htake := m.pmm.nextPages_take k j
  refine ⟨?_, fun p hp => h2 p ?_⟩
  · rw [← htake, List.length_take, h1]
    omega
  · rw [← htake] at hp
    exact List.mem_of_mem_take hp

theorem available_zero (m : Mm) : m.Available 0 := ⟨rfl, fun p hp => by cases hp⟩

namespace Created

variable {k j : ℕ}

theorem refl (h : Tables m R U D F) (hr : r ∈ R) : Created m m R U D F r 0 ∅ :=
  ⟨h.grown_refl hr, fun _ _ _ _ => rfl, fun j => by rw [Nat.zero_add]; rfl⟩

theorem trans {m'' : Mm} {N' : Set ℕ} (h : Created m m' R U D F r k N)
    (h' : Created m' m'' R U D (F \ N) r j N') : Created m m'' R U D F r (k + j) (N ∪ N') where
  grown := h.grown.trans h'.grown
  leaf r' hr' b hb := (h'.leaf r' hr' b hb).trans (h.leaf r' hr' b hb)
  next i := by rw [Nat.add_assoc, h.next, h'.next, h.next, List.append_assoc]

theorem available_iff (h : Created m m' R U D F r k N) (hk : m.Available k) :
    m.Available (k + j) ↔ m'.Available j := by
  unfold Available
  rw [h.next, List.length_append, hk.1]
  constructor
  · rintro ⟨h1, h2⟩
    exact ⟨by omega, fun p hp => h2 p (List.mem_append_right _ hp)⟩
  · rintro ⟨h1, h2⟩
    refine ⟨by omega, fun p hp => ?_⟩
    rcases List.mem_append.1 hp with hp | hp
    · exact hk.2 p hp
    · exact h2 p hp

end Created

/-- Creating empty tables changes the content of no leaf entry. -/
theorem Grown.leaf_eq (h : Tables m R U D F) {r₀ : ℕ} (hg : Grown m m' R U D F r₀ N)
    (hz : ∀ f ∈ N, m'.IsLeaf R U f → ∀ k, m'.mem f k = 0) (hr : r ∈ R) (hU : getGptx addr ∈ U) :
    m'.leaf r addr = m.leaf r addr := by
  have hp := tablePath_addr hU
  cases hw : walk m.child r [getGptx addr, getMptx addr] with
  | some f =>
    have hs : m.slot r addr = some (f, getPtx addr) := by rw [slot, hw, Option.map_some]
    have hs' : m'.slot r addr = some (f, getPtx addr) := by
      rw [slot, hg.walk_mono r hr _ f hp hw, Option.map_some]
    rw [leaf_of_slot hs, leaf_of_slot hs', load, load, leaf_mem h hg ⟨r, hr, _, _, hp, hw⟩]
  | none =>
    have hs : m.leaf r addr = 0 := by rw [leaf, slot, hw]; rfl
    rw [hs]
    cases hw' : walk m'.child r [getGptx addr, getMptx addr] with
    | none => rw [leaf, slot, hw']; rfl
    | some f =>
      -- the table is new, and so it is empty
      have hf : f ∈ N := (hg.walk_new r hr _ f hp hw').resolve_left (by rw [hw]; simp)
      have hs' : m'.slot r addr = some (f, getPtx addr) := by rw [slot, hw', Option.map_some]
      rw [leaf_of_slot hs']
      exact hz f hf ⟨r, hr, _, _, hp, hw'⟩ _

/-- **One level of `get_pte`** : it succeeds when the table exists or can be created. -/
theorem ensureTable_eq (h : Tables m R U D F) (hr : r ∈ R) {p : List ℕ} {x f k : ℕ}
    (hp : TablePath U (p ++ [x])) (hf : walk m.child r p = some f)
    (hk : k = if m.child f x = none then 1 else 0) :
    (m.Available k ∧ ∃ m' N g, m.ensureTable (f, x) true = .ok (m', true) ∧
      Created m m' R U D F r k N ∧ m'.child f x = some g ∧ (k = 0 → m' = m) ∧
      (k = 1 → ∀ y, m'.child g y = none)) ∨
    ¬ m.Available k ∧ ∀ m', m.ensureTable (f, x) true ≠ .ok (m', true) := by
  unfold ensureTable
  by_cases hv : isValid (m.load (f, x))
  · have hc : m.child f x = some (pte2ppn (m.load (f, x))) := child_of_valid hv
    obtain rfl : k = 0 := by rw [hk, hc]; rfl
    refine Or.inl ⟨available_zero m, m, ∅, _, if_pos hv, .refl h hr, hc, fun _ => rfl, by simp⟩
  · have hc : m.child f x = none := child_of_invalid hv
    obtain rfl : k = 1 := by rw [hk, if_pos hc]
    rw [if_neg hv, if_neg (by simp)]
    rcases allocPage_eq h.free with ⟨m₁, n, h1, hal, hnext⟩ | ⟨hnil, h1⟩
    · obtain ⟨hlo, hhi⟩ := h.free.mem_pool hal.mem_free
      have hone : m.pmm.nextPages 1 = [n] := hnext 0
      rw [h1, ok_bind]
      by_cases hn : n * pageSize < dramEndPa
      · obtain ⟨m', hm'⟩ : ∃ m', m' = ((m₁.setRef n 1).memset0 n).store (f, x) (ppn2pte n pteV) :=
          ⟨_, rfl⟩
        obtain ⟨hmem, hg, hc'⟩ := grown_alloc h hr hp hf hc hal hlo hn hm'
        have hfn : f ≠ n := fun he => (h.table r hr p f hp.prefix hf).1 (he ▸ hal.mem_free)
        have hzero : ∀ y, m'.mem n y = 0 := by
          intro y
          rw [hmem]
          simp [store, memset0, Function.update_of_ne (Ne.symm hfn)]
        refine Or.inl ⟨⟨by rw [hone]; rfl, ?_⟩, m', {n}, n, ?_, ⟨hg, ?_, ?_⟩, hc', by simp, ?_⟩
        · rw [hone]
          rintro q hq
          rwa [List.mem_singleton.1 hq]
        · simp only [page2va_eq hlo hn, page2ppn_eq hlo hhi, ok_bind, ← hm']
          rfl
        · refine fun r' hr' b hb => hg.leaf_eq h ?_ hr' hb
          rintro g rfl -
          exact hzero
        · intro j
          rw [hone, Nat.add_comm, hnext, hm']
          exact congrArg (n :: ·) (nextPages_setRef m₁ n 1 j).symm
        · exact fun _ y => child_of_invalid (by rw [hzero, isValid_zero]; exact Bool.false_ne_true)
      · -- the page is not memory, and `page2va` stops the kernel
        refine Or.inr ⟨fun ha => hn (ha.2 n (by rw [hone]; simp)), fun m' he => ?_⟩
        obtain ⟨va, hva, -⟩ := bind_eq_ok.1 he
        exact hn ((page2va_sat n).of_ok hva).2.2.2
    · refine Or.inr ⟨fun ha => by simpa [hnil] using ha.1, fun m' he => ?_⟩
      rw [h1] at he
      split_ifs at he
      · cases he
      · cases he

/-- **`get_pte`** with creation succeeds when the missing tables can be created, and then finds the
leaf entry with the content that it had. -/
theorem getPte_eq (h : Tables m R U D F) (hr : r ∈ R) (hU : getGptx addr ∈ U) :
    (m.Available (m.missing r addr) ∧ ∃ m' N s, m.getPte r addr true = .ok (m', some s) ∧
      Created m m' R U D F r (m.missing r addr) N ∧ m'.slot r addr = some s) ∨
    ¬ m.Available (m.missing r addr) ∧ ∀ m' s, m.getPte r addr true ≠ .ok (m', some s) := by
  have hp₂ := tablePath_addr hU
  have hp₁ : TablePath U [getGptx addr] := TablePath.prefix (q := [getMptx addr]) hp₂
  unfold getPte
  rcases ensureTable_eq h hr (p := []) (x := getGptx addr) hp₁ rfl rfl with
    ⟨ha₁, m₁, N₁, f₁, h1, hc₁, hf₁, hold, hnew⟩ | ⟨ha₁, h1⟩
  · obtain ⟨hw₁, hva₁⟩ := upper_table hc₁.grown.tables hr hU hf₁
    have hm : m.missing r addr = (if m.child r (getGptx addr) = none then 1 else 0) +
        if m₁.child f₁ (getMptx addr) = none then 1 else 0 := by
      unfold missing
      cases hc : m.child r (getGptx addr) with
      | none => simp [hnew (by rw [if_pos hc])]
      | some f =>
        -- the table of the first level was there, so memory is as before
        obtain rfl : m₁ = m := hold (by rw [hc]; rfl)
        obtain rfl : f = f₁ := Option.some.inj (hc.symm.trans hf₁)
        simp
    rw [h1, ok_bind]
    simp only [not_true_eq_false, if_false]
    rw [hva₁, ok_bind]
    rcases ensureTable_eq hc₁.grown.tables hr (p := [getGptx addr]) hp₂ hw₁ rfl with
      ⟨ha₂, m₂, N₂, f₂, h2, hc₂, hf₂, -⟩ | ⟨ha₂, h2⟩
    · obtain ⟨hw₂, hva₂⟩ := lower_table hc₂.grown.tables hr hU
        (hc₂.grown.walk_mono r hr _ f₁ hp₁ hw₁) hf₂
      rw [hm]
      refine Or.inl ⟨(hc₁.available_iff ha₁).2 ha₂, m₂, N₁ ∪ N₂, (f₂, getPtx addr), ?_,
        hc₁.trans hc₂, by rw [slot, hw₂]; rfl⟩
      rw [h2, ok_bind]
      simp only [not_true_eq_false, if_false]
      rw [hva₂]
      rfl
    · rw [hm]
      refine Or.inr ⟨fun ha => ha₂ ((hc₁.available_iff ha₁).1 ha), fun m' s he => ?_⟩
      obtain ⟨⟨m₂, b⟩, h3, he⟩ := bind_eq_ok.1 he
      cases b with
      | true => exact h2 m₂ h3
      | false => cases he
  · have hc : m.child r (getGptx addr) = none := by
      by_contra hc
      rw [if_neg hc] at ha₁
      exact ha₁ (available_zero m)
    rw [if_pos hc] at ha₁
    refine Or.inr ⟨fun ha => ha₁ (Available.mono (j := 1) ?_), fun m' s he => ?_⟩
    · rw [missing, hc] at ha
      exact ha
    · obtain ⟨⟨m₁, b⟩, h3, he⟩ := bind_eq_ok.1 he
      cases b with
      | true => exact h1 m₁ h3
      | false => cases he

/-! ### Where it fails -/

/-- What one level of `get_pte` does to an empty entry. -/
theorem ensureTable_cases {b : Bool} {f x : ℕ} (h : FreeSet m.pmm F) (hf : f ∉ F)
    (hx : m.child f x = none) (hok : m.ensureTable (f, x) true = .ok (m', b)) :
    b = false ∧ m' = m ∨ b = true ∧ ∃ n, m'.child f x = some n ∧ (∀ y, m'.child n y = none) ∧
      ∀ i, i ≠ x → m'.child f i = m.child f i := by
  have hv : ¬ isValid (m.load (f, x)) := by
    intro hv
    rw [child_of_valid hv] at hx
    cases hx
  rw [ensureTable, if_neg hv, if_neg (by simp)] at hok
  obtain ⟨⟨m₁, _ | n⟩, h1, hok⟩ := bind_eq_ok.1 hok
  · have hm : m₁ = m := (allocPage_sat h).of_ok h1
    obtain ⟨rfl, rfl⟩ := Prod.mk.inj (Except.ok.inj hok)
    exact Or.inl ⟨rfl, hm⟩
  · have ha : Allocated m m₁ F n := (allocPage_sat h).of_ok h1
    obtain ⟨va, h2, hok⟩ := bind_eq_ok.1 hok
    obtain ⟨rfl, hlo, hhi, -⟩ := (page2va_sat n).of_ok h2
    rw [page2ppn_eq hlo hhi, ok_bind] at hok
    obtain ⟨rfl, rfl⟩ := Prod.mk.inj (Except.ok.inj hok)
    have hfn : f ≠ va := fun he => hf (he ▸ ha.mem_free)
    have hlt : va < 2 ^ 54 := by
      rw [poolEnd_eq] at hhi
      omega
    have hold : ∀ g i, g ≠ va → ((m₁.setRef va 1).memset0 va).child g i = m.child g i :=
      fun g i hg => by
        simp only [child, memset0, setRef_mem, Function.update_of_ne hg, ha.mem]
    refine Or.inr ⟨rfl, va, ?_, fun y => ?_, fun i hi => ?_⟩
    · rw [child_store, setChild, if_pos ⟨rfl, rfl⟩, if_pos ((isValid_ppn2pte hlt (by decide)).2 rfl),
        pte2ppn_ppn2pte hlt (by decide)]
    · rw [child_store, setChild, if_neg fun hc => hfn hc.1.symm]
      simp [child, memset0]
    · rw [child_store, setChild, if_neg fun hc => hi hc.2, hold f i hfn]

/-- A call of `get_pte` that fails in a page table without tables has made the upper table for the
address at most. -/
theorem getPte_none (h : Tables m R U D F) (hr : r ∈ R) (hU : getGptx addr ∈ U)
    (hbare : ∀ i ∈ U, m.child r i = none) (hok : m.getPte r addr true = .ok (m', none)) :
    (∀ i ∈ U, i ≠ getGptx addr → m'.child r i = none) ∧
      ∀ f, m'.child r (getGptx addr) = some f → ∀ j, m'.child f j = none := by
  have hp₁ : TablePath U [getGptx addr] := TablePath.prefix (q := [getMptx addr]) (tablePath_addr hU)
  obtain ⟨⟨m₁, b₁⟩, h1, hres⟩ := bind_eq_ok.1 hok
  rcases ensureTable_cases h.free (h.table r hr [] r tablePath_nil rfl).1 (hbare _ hU) h1 with
    ⟨rfl, hm⟩ | ⟨rfl, n, hn, hempty, hother⟩
  · -- no page for the upper table
    obtain rfl : m₁ = m' := congrArg Prod.fst (Except.ok.inj hres)
    rw [hm]
    refine ⟨fun i hi _ => hbare i hi, fun f hf => ?_⟩
    rw [hbare _ hU] at hf
    cases hf
  · -- no page for the table of leaf entries
    obtain ⟨N, hg⟩ : ∃ N, Grown m m₁ R U D F r N := by
      rcases ensureTable_eq h hr (p := []) hp₁ rfl rfl with ⟨-, m₂, N, f, h2, hc, -⟩ | ⟨-, h2⟩
      · obtain rfl := congrArg Prod.fst (Except.ok.inj (h1.symm.trans h2))
        exact ⟨N, hc.grown⟩
      · exact absurd h1 (h2 m₁)
    obtain ⟨hw, hva⟩ := upper_table hg.tables hr hU hn
    obtain ⟨h2, -, -⟩ := hg.tables.table r hr _ n hp₁ hw
    simp only [not_true_eq_false, if_false] at hres
    rw [hva, ok_bind] at hres
    obtain ⟨⟨m₂, b₂⟩, h4, hres⟩ := bind_eq_ok.1 hres
    rcases ensureTable_cases hg.tables.free h2 (hempty _) h4 with ⟨rfl, hm⟩ | ⟨rfl, -⟩
    · obtain rfl : m₂ = m' := congrArg Prod.fst (Except.ok.inj hres)
      rw [hm]
      refine ⟨fun i hi hne => (hother i hne).trans (hbare i hi), fun f hf j => ?_⟩
      rw [← Option.some.inj (hn.symm.trans hf)]
      exact hempty j
    · obtain ⟨va, -, hres⟩ := bind_eq_ok.1 hres
      exact absurd (congrArg Prod.snd (Except.ok.inj hres)) (by simp)

end Mm

end GarretOS
