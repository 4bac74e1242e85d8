import GarretOS.Mm.Owned
import GarretOS.Mm.PageMap
import GarretOS.Mm.Range

/-!
# Tearing down an address space

`del_vmas` goes over the areas twice: `del_range` deletes the pages that are mapped in them, and
`free_range` frees the tables that the root entries for them name.  Then `free_gpt` frees the root
table and `del_vmm` the records.

* `delStep_deleted`, `delVmas_deleted` : the pages in the areas are given back (`Deleted`);
* `freeStep_unhung`, `delVmas_unhung` : the tables below the root are given back (`Unhung`);
* `teardown_freePages` : the free pages after the teardown, which are all frames of the address
  space but the tables of leaf entries, the tables that hang where there is no area, and the pages
  that are mapped where there is no area.
-/

namespace GarretOS

open Radix

/-- The entries of the root table for the addresses in the areas. -/
def vmaEntries (vmas : List Vma) : Set ℕ := {i | ∃ v ∈ vmas, ∃ a, v.holds a ∧ getGptx a = i}

/-! ### Loops -/

/-- A loop over a range that moves on by at least 512 bytes and does not step over the end. -/
theorem rangeLoop_eq {step : Mm → ℕ → Res (Mm × ℕ)} {stop : ℕ} {I : ℕ → Mm → Prop}
    (hstep : ∀ m start, start < stop → I start m → ∃ m' next, step m start = .ok (m', next) ∧
      start + ptSize ≤ next ∧ next ≤ stop ∧ I next m') (k : ℕ) :
    ∀ {m : Mm} {start : ℕ}, start < stop → (stop - start) / ptSize < k → I start m →
      ∃ m', rangeLoop step stop k m start = .ok m' ∧ I stop m' := by
  induction k with
  | zero => exact fun _ hk _ => absurd hk (Nat.not_lt_zero _)
  | succ k ih =>
    intro m start hlt hk h
    obtain ⟨m', next, h1, h2, h3, h4⟩ := hstep m start hlt h
    rw [ptSize_eq] at h2
    simp only [rangeLoop, h1, ok_bind]
    by_cases hnext : next < stop
    · rw [if_pos ⟨by omega, hnext⟩]
      refine ih hnext ?_ h4
      rw [ptSize_eq] at hk ⊢
      omega
    · obtain rfl : next = stop := by omega
      exact ⟨m', by rw [if_neg fun hc => hnext hc.2]; rfl, h4⟩

/-- A loop over the list of areas. -/
theorem forVmas_eq {f : Mm → Vma → Res Mm} {I : List Vma → Mm → Prop} (vmas : List Vma) :
    ∀ {done : List Vma} {m : Mm}, (∀ done v m, v ∈ vmas → I done m →
      ∃ m', f m v = .ok m' ∧ I (done ++ [v]) m') → I done m →
      ∃ m', forVmas f m vmas = .ok m' ∧ I (done ++ vmas) m' := by
  induction vmas with
  | nil =>
    intro done m _ h
    exact ⟨m, rfl, by rwa [List.append_nil]⟩
  | cons v vmas ih =>
    intro done m hstep h
    obtain ⟨m', h1, h2⟩ := hstep done v m List.mem_cons_self h
    obtain ⟨m'', h3, h4⟩ := ih (fun done w m hw => hstep done w m (List.mem_cons_of_mem v hw)) h2
    rw [List.append_assoc, List.singleton_append] at h4
    exact ⟨m'', by rw [forVmas, h1, ok_bind, h3], h4⟩

theorem checkRange_eq {v : Vma} (h : v.vmStart % pageSize = 0 ∧ v.vmEnd % pageSize = 0 ∧
    userAccess v.vmStart v.vmEnd) : checkRange v.vmStart v.vmEnd = .ok () := by
  rw [checkRange, assert_of ⟨h.1, h.2.1⟩, assert_of h.2.2]
  rfl

namespace Mm

variable {m₀ m m' : Mm} {R D₀ A D F S C F₁ : Set ℕ} {r : ℕ}

/-! ### What is written -/

/-- The frames outside of `C` keep their content. -/
def WritesOnly (m m' : Mm) (C : Set ℕ) : Prop := ∀ f, f ∉ C → m'.mem f = m.mem f

namespace WritesOnly

variable {C' : Set ℕ} {m₁ : Mm}

theorem of_eq (h : m'.mem = m.mem) : WritesOnly m m' C := fun f _ => by rw [h]

theorem trans (h : WritesOnly m m₁ C) (h' : WritesOnly m₁ m' C) : WritesOnly m m' C :=
  fun f hf => (h' f hf).trans (h f hf)

theorem mono (h : WritesOnly m m' C) (hC : C ⊆ C') : WritesOnly m m' C' :=
  fun f hf => h f fun hm => hf (hC hm)

theorem store (m : Mm) (s : PtePtr) (v : ℕ) : WritesOnly m (m.store s v) {s.1} := fun f hf => by
  funext i
  rw [store_mem, if_neg fun hc => hf hc.1]

end WritesOnly

/-- The leaf entry of an address is in a table. -/
theorem slot_mem_tablesOf {addr : ℕ} {s : PtePtr} (hU : getGptx addr ∈ userEntries)
    (hs : m.slot r addr = some s) : s.1 ∈ m.tablesOf r := by
  unfold slot at hs
  obtain ⟨f, hf, rfl⟩ := Option.map_eq_some_iff.1 hs
  exact ⟨_, by simp, tablePath_addr hU, hf⟩

/-! ### Deleting the pages -/

/-- The pages with numbers in `S` have been deleted from the page table `r`. -/
structure Deleted (m₀ m : Mm) (R D₀ : Set ℕ) (r : ℕ) (A S D F : Set ℕ) : Prop where
  owned : Owned m R D₀ r A ∅ D F
  walk_eq : ∀ p, TablePath userEntries p → walk m.child r p = walk m₀.child r p
  gone : ∀ a < userEnd, a / pageSize ∈ S → m.entry r a = none
  kept : ∀ a < userEnd, a / pageSize ∉ S → m.entry r a = m₀.entry r a

theorem Owned.deleted (h : Owned m R D₀ r A ∅ D F) : Deleted m m R D₀ r A ∅ D F :=
  ⟨h, fun _ _ => rfl, fun _ _ hS => absurd hS (Set.notMem_empty _), fun _ _ _ => rfl⟩

namespace Deleted

theorem slot_eq (h : Deleted m₀ m R D₀ r A S D F) {a : ℕ} (hau : a < userEnd) :
    m.slot r a = m₀.slot r a := by
  rw [slot, slot, h.walk_eq _ (tablePath_addr (getGptx_user hau))]

/-- A page that is not mapped is done. -/
theorem skip (h : Deleted m₀ m R D₀ r A S D F) {a : ℕ} (hau : a < userEnd)
    (he : m.entry r a = none) : Deleted m₀ m R D₀ r A (insert (a / pageSize) S) D F := by
  refine ⟨h.owned, h.walk_eq, fun b hb hS => ?_, fun b hb hS => h.kept b hb fun hm => hS (Or.inr hm)⟩
  rcases hS with hba | hm
  · rw [entry_congr_page hau hb hba, he]
  · exact h.gone b hb hm

/-- **`del_page`** of an address. -/
theorem delPage (h : Deleted m₀ m R D₀ r A S D F) {a : ℕ} (hau : a < userEnd) :
    ∃ m' D' F', m.delPage r a = .ok m' ∧
      Deleted m₀ m' R D₀ r A (insert (a / pageSize) S) D' F' ∧
      WritesOnly m m' (m₀.tablesOf r) := by
  have hc := h.owned.consistent
  have hr := h.owned.root
  have hU := getGptx_user hau
  rcases delPage_cases hc hr hU with ⟨he, hdel⟩ | ⟨s, m', hs, hdel, hrw⟩
  · exact ⟨m, D, F, hdel, h.skip hau he, .of_eq rfl⟩
  · have ht := hrw.touched hc.tables hr hs
    have hentry : ∀ b < userEnd, m'.entry r b =
        if b / pageSize = a / pageSize then none else m.entry r b := by
      intro b hb
      rw [ht.entry_eq hc hr hU hr (getGptx_user hb)]
      simp only [isValid_zero, Bool.false_eq_true, if_false, true_and, indices_user hau hb]
    refine ⟨m', _, _, hdel, ⟨h.owned.write hau (fun q => ?_) ht, fun p hp => ?_,
      fun b hb hS => ?_, fun b hb hS => ?_⟩, fun f hf => ?_⟩
    · simp [target]
    · rw [child_congr hrw.mem, walk_store hc.tables (slot_leaf hr hU hs).1 hr hp, h.walk_eq p hp]
    · rw [hentry b hb]
      split_ifs with hba
      · rfl
      · exact h.gone b hb (hS.resolve_left hba)
    · rw [hentry b hb, if_neg fun hba => hS (Or.inl hba)]
      exact h.kept b hb fun hm => hS (Or.inr hm)
    · have hs₀ : m₀.slot r a = some s := (h.slot_eq hau).symm.trans hs
      rw [hrw.mem]
      refine WritesOnly.store m s 0 f ?_
      rintro rfl
      exact hf (slot_mem_tablesOf hU hs₀)

end Deleted

/-- One round of `del_range` : nothing is done where no page is mapped; elsewhere `del_page` is
called. -/
theorem delStep_cases {start : ℕ} (h : Tables m R userEntries D F) (hr : r ∈ R)
    (hau : start < userEnd) (hslot : m.slot r start = m₀.slot r start) :
    m.entry r start = none ∧ delStep m r start = .ok (m, nextAddr m₀ r start) ∨
      ∀ m', m.delPage r start = .ok m' → delStep m r start = .ok (m', nextAddr m₀ r start) := by
  rw [delStep, getPte_false h hr (getGptx_user hau), ok_bind, nextAddr, ← hslot]
  cases hs : m.slot r start with
  | none =>
    refine Or.inl ⟨?_, rfl⟩
    rw [entry, hs]
    rfl
  | some p =>
    by_cases hp : m.load p = 0
    · refine Or.inl ⟨?_, ?_⟩
      · rw [entry_of_slot hs, hp]
        rfl
      · simp only [hp, ne_eq, not_true_eq_false, if_false, ok_bind]
        rfl
    · refine Or.inr fun m' hdel => ?_
      simp only [ne_eq, hp, not_false_eq_true, if_true, hdel, ok_bind]
      rfl

/-- **One round of `del_range`** deletes one page, if there is one. -/
theorem delStep_deleted (h : Deleted m₀ m R D₀ r A S D F) {start : ℕ} (hau : start < userEnd) :
    ∃ m' D' F', delStep m r start = .ok (m', nextAddr m₀ r start) ∧
      Deleted m₀ m' R D₀ r A (insert (start / pageSize) S) D' F' ∧
      WritesOnly m m' (m₀.tablesOf r) := by
  rcases delStep_cases h.owned.consistent.tables h.owned.root hau (h.slot_eq hau) with
    ⟨he, hstep⟩ | hstep
  · exact ⟨m, D, F, hstep, h.skip hau he, .of_eq rfl⟩
  · obtain ⟨m', D', F', hdel, h', hw⟩ := h.delPage hau
    exact ⟨m', D', F', hstep m' hdel, h', hw⟩

/-- The invariant of the loop of `del_range`, at the address `start`. -/
structure Deleting (m₀ : Mm) (R D₀ : Set ℕ) (r : ℕ) (A S : Set ℕ) (start₀ start : ℕ) (m : Mm) :
    Prop where
  le : start₀ ≤ start
  aligned : start % ptSize = 0
  table : start % pageSize = 0 ∨ m₀.slot r start = none
  deleted : ∃ D F, Deleted m₀ m R D₀ r A (S ∪ pageRange start₀ start) D F

/-- **`del_range`** deletes the pages of its range. -/
theorem delRange_deleted (h : Deleted m₀ m R D₀ r A S D F) {v : Vma}
    (hv : v.vmStart % pageSize = 0 ∧ v.vmEnd % pageSize = 0 ∧ userAccess v.vmStart v.vmEnd) {k : ℕ}
    (hk : userEnd / ptSize ≤ k) : ∃ m' D' F', delRange k m r v.vmStart v.vmEnd = .ok m' ∧
      Deleted m₀ m' R D₀ r A (S ∪ pageRange v.vmStart v.vmEnd) D' F' ∧
      WritesOnly m m' (m₀.tablesOf r) := by
  rw [delRange, checkRange_eq hv, ok_bind]
  have hrounds := rounds_lt hv.2.2 hk
  obtain ⟨h0, h1, -, hlt, hstop⟩ := hv
  have hstart : Deleting m₀ R D₀ r A S v.vmStart v.vmStart m := by
    refine ⟨le_rfl, ?_, Or.inl h0, D, F, by rwa [union_pageRange_self]⟩
    rw [pageSize_eq] at h0
    rw [ptSize_eq]
    omega
  have hstep : ∀ m₁ start, start < v.vmEnd → Deleting m₀ R D₀ r A S v.vmStart start m₁ ∧
      WritesOnly m m₁ (m₀.tablesOf r) →
      ∃ m' next, delStep m₁ r start = .ok (m', next) ∧ start + ptSize ≤ next ∧ next ≤ v.vmEnd ∧
        Deleting m₀ R D₀ r A S v.vmStart next m' ∧ WritesOnly m m' (m₀.tablesOf r) := by
    rintro m₁ start hlt' ⟨⟨hle, h512, halign, D, F, h⟩, hw⟩
    obtain ⟨h2, h3, h4, h5, h6, h7⟩ := nextAddr_spec hstop hlt' h512 h1 halign
    obtain ⟨m', D', F', h8, h9, hw'⟩ := delStep_deleted h (lt_of_lt_of_le hlt' hstop)
    rw [insert_pageRange h0 hle h2 h5] at h9
    exact ⟨m', _, h8, h6, h3, ⟨by omega, h4, h7, D', F', h9⟩, hw.trans hw'⟩
  obtain ⟨m', h2, ⟨-, -, -, D', F', h3⟩, hw⟩ :=
    rangeLoop_eq hstep k hlt hrounds ⟨hstart, .of_eq rfl⟩
  exact ⟨m', D', F', h2, h3, hw⟩

theorem vmaPages_concat (done : List Vma) (v : Vma) :
    vmaPages (done ++ [v]) = vmaPages done ∪ pageRange v.vmStart v.vmEnd := by
  ext vpn
  simp [vmaPages, or_and_right, exists_or]

/-- **The first loop of `del_vmas`** deletes the pages in the areas. -/
theorem delVmas_deleted (h : Owned m R D₀ r A ∅ D F) {vmas : List Vma}
    (hvmas : ∀ v ∈ vmas, v.vmStart % pageSize = 0 ∧ v.vmEnd % pageSize = 0 ∧
      userAccess v.vmStart v.vmEnd) {k : ℕ} (hk : userEnd / ptSize ≤ k) :
    ∃ m' D' F', forVmas (fun m v => delRange k m r v.vmStart v.vmEnd) m vmas = .ok m' ∧
      Deleted m m' R D₀ r A (vmaPages vmas) D' F' ∧ WritesOnly m m' (m.tablesOf r) := by
  have hstep : ∀ done v m₁, v ∈ vmas → (∃ D F, Deleted m m₁ R D₀ r A (vmaPages done) D F) ∧
      WritesOnly m m₁ (m.tablesOf r) → ∃ m', delRange k m₁ r v.vmStart v.vmEnd = .ok m' ∧
        (∃ D F, Deleted m m' R D₀ r A (vmaPages (done ++ [v])) D F) ∧
        WritesOnly m m' (m.tablesOf r) := by
    rintro done v m₁ hv ⟨⟨D, F, h₁⟩, hw⟩
    obtain ⟨m', D', F', h2, h3, hw'⟩ := delRange_deleted h₁ (hvmas v hv) hk
    exact ⟨m', h2, ⟨D', F', by rwa [vmaPages_concat]⟩, hw.trans hw'⟩
  obtain ⟨m', h1, ⟨D', F', h2⟩, hw⟩ := forVmas_eq vmas hstep ⟨⟨D, F, by
    rw [vmaPages_nil]
    exact h.deleted⟩, .of_eq rfl⟩
  exact ⟨m', D', F', h1, h2, hw⟩

/-! ### Freeing the tables -/

/-- The tables that the entries `C` of the root table name. -/
def hung (m : Mm) (r : ℕ) (C : Set ℕ) : Set ℕ :=
  {f | ∃ i ∈ C, i ∈ userEntries ∧ m.child r i = some f}

theorem hung_insert {i f : ℕ} (hi : i ∈ userEntries) (hf : m.child r i = some f) :
    m.hung r (insert i C) = insert f (m.hung r C) := by
  ext g
  constructor
  · rintro ⟨j, rfl | hj, hju, hg⟩
    · exact Or.inl (Option.some.inj (hg.symm.trans hf))
    · exact Or.inr ⟨j, hj, hju, hg⟩
  · rintro (rfl | ⟨j, hj, hju, hg⟩)
    · exact ⟨i, Or.inl rfl, hi, hf⟩
    · exact ⟨j, Or.inr hj, hju, hg⟩

theorem hung_insert_of {i : ℕ} (h : ∀ f, m.child r i = some f → i ∈ C) :
    m.hung r (insert i C) = m.hung r C := by
  ext g
  constructor
  · rintro ⟨j, rfl | hj, hju, hg⟩
    · exact ⟨j, h g hg, hju, hg⟩
    · exact ⟨j, hj, hju, hg⟩
  · rintro ⟨j, hj, hju, hg⟩
    exact ⟨j, Or.inr hj, hju, hg⟩

/-- The tables that the entries `C` of the root table `r` named in the memory `m₁` have been
freed, and the entries are cleared. -/
structure Unhung (m₁ m : Mm) (r : ℕ) (F₁ C : Set ℕ) : Prop where
  free : FreeSet m.pmm (F₁ ∪ m₁.hung r C)
  cut : ∀ i ∈ userEntries, i ∈ C → m.child r i = none
  rest : ∀ i ∈ userEntries, i ∉ C → m.child r i = m₁.child r i

theorem unhung_start {m₁ : Mm} (h : FreeSet m₁.pmm F₁) : Unhung m₁ m₁ r F₁ ∅ :=
  ⟨by simpa [hung] using h, fun _ _ hC => absurd hC (Set.notMem_empty _), fun _ _ _ => rfl⟩

theorem tablePath_one {i : ℕ} (hi : i ∈ userEntries) : TablePath userEntries [i] := by
  have hi' : i < 2 := hi
  refine ⟨by simp, fun j hj => ?_, fun j hj => ?_⟩
  · rw [List.mem_singleton.1 hj]
    omega
  · obtain rfl := Option.some.inj hj
    exact hi

theorem walk_one (m : Mm) (r i : ℕ) : walk m.child r [i] = m.child r i := by
  cases h : m.child r i <;> simp [walk, h]

/-- The tables that the root table names. -/
theorem child_table {m₁ : Mm} (h : Tables m₁ R userEntries D F₁) (hr : r ∈ R) {i f : ℕ}
    (hi : i ∈ userEntries) (hf : m₁.child r i = some f) :
    poolBegin ≤ f ∧ f < poolEnd ∧ f ∉ F₁ ∧ f ∉ D := by
  obtain ⟨h1, h2, h3⟩ := h.table r hr [i] f (tablePath_one hi) ((walk_one m₁ r i).trans hf)
  obtain ⟨h4, h5⟩ := h3 (by simp)
  rw [pageSize_eq, dramEndPa] at h5
  exact ⟨h4, by rw [poolEnd_eq]; omega, h1, h2⟩

/-- Different paths lead to different tables. -/
theorem path_unique {m₁ : Mm} (h : Tables m₁ R userEntries D F₁) (hr : r ∈ R) {p q : List ℕ}
    {f : ℕ} (hp : TablePath userEntries p) (hq : TablePath userEntries q)
    (h1 : walk m₁.child r p = some f) (h2 : walk m₁.child r q = some f) : p = q :=
  (h.separated.unique r hr r hr p q f hp hq h1 h2).2

/-- **One round of `free_range`** frees one table, if there is one. -/
theorem freeStep_unhung {m₁ : Mm} (ht : Tables m₁ R userEntries D F₁) (hr : r ∈ R)
    (h : Unhung m₁ m r F₁ C) {start : ℕ} (hau : start < userEnd) :
    ∃ m', freeStep m r start = .ok (m', u64 (start + ptSize)) ∧
      Unhung m₁ m' r F₁ (insert (getGptx start) C) ∧ WritesOnly m m' {r} := by
  have hU := getGptx_user hau
  obtain ⟨i, hi⟩ : ∃ i, i = getGptx start := ⟨_, rfl⟩
  rw [freeStep, ← hi]
  rw [← hi] at hU
  by_cases hv : isValid (m.load (r, i))
  · -- the entry names a table, so it has not been visited before
    obtain ⟨f, hf⟩ : ∃ f, f = pte2ppn (m.load (r, i)) := ⟨_, rfl⟩
    have hchild : m.child r i = some f := hf ▸ child_of_valid hv
    have hiC : i ∉ C := by
      intro hC
      rw [h.cut i hU hC] at hchild
      cases hchild
    rw [h.rest i hU hiC] at hchild
    obtain ⟨h1, h2, h3, -⟩ := child_table ht hr hU hchild
    have hnot : f ∉ F₁ ∪ m₁.hung r C := by
      rintro (hF | ⟨j, hjC, hj, hjf⟩)
      · exact h3 hF
      · have hij := path_unique ht hr (tablePath_one hU) (tablePath_one hj)
          ((walk_one m₁ r i).trans hchild) ((walk_one m₁ r j).trans hjf)
        simp only [List.cons.injEq, and_true] at hij
        exact hiC (hij ▸ hjC)
    obtain ⟨m₂, h4, h5, h6, -, -⟩ := freePage_eq h.free h1 h2 hnot
    have hcut : ∀ j, (m₂.store (r, i) 0).child r j = if j = i then none else m.child r j := by
      intro j
      rw [child_store, setChild, child_congr h6]
      simp only [true_and, isValid_zero, Bool.false_eq_true, if_false]
    refine ⟨m₂.store (r, i) 0, ?_, ⟨?_, fun j hj hjC => ?_, fun j hj hjC => ?_⟩,
      (WritesOnly.of_eq h6).trans (.store m₂ (r, i) 0)⟩
    · simp only [hv, if_true, pte2page, assert_of, ok_bind, ← hf, pure, Except.pure, h4]
    · rwa [store_pmm, hung_insert hU hchild, Set.union_insert]
    · rw [hcut]
      split_ifs with hji
      · rfl
      · exact h.cut j hj (hjC.resolve_left hji)
    · rw [hcut, if_neg fun hji => hjC (Or.inl hji)]
      exact h.rest j hj fun hm => hjC (Or.inr hm)
  · have hchild : m.child r i = none := child_of_invalid hv
    have hset : ∀ g, m₁.child r i = some g → i ∈ C := by
      intro g hg
      by_contra hC
      rw [h.rest i hU hC, hg] at hchild
      cases hchild
    refine ⟨m, by simp only [hv]; rfl, ⟨?_, fun j hj hjC => ?_, fun j hj hjC =>
      h.rest j hj fun hm => hjC (Or.inr hm)⟩, .of_eq rfl⟩
    · rw [hung_insert_of hset]
      exact h.free
    · rcases hjC with rfl | hjC
      · exact hchild
      · exact h.cut j hj hjC

/-- The entries of the root table for the addresses in a range. -/
def rangeEntries (start stop : ℕ) : Set ℕ := {i | ∃ a, start ≤ a ∧ a < stop ∧ getGptx a = i}

theorem insert_rangeEntries {start₀ start : ℕ} (h : start % ptSize = 0) (hle : start₀ ≤ start) :
    insert (getGptx start) (C ∪ rangeEntries start₀ start) =
      C ∪ rangeEntries start₀ (start + ptSize) := by
  rw [ptSize_eq] at h ⊢
  have hentries : insert (getGptx start) (rangeEntries start₀ start) =
      rangeEntries start₀ (start + 512) := by
    ext i
    constructor
    · rintro (rfl | ⟨a, h1, h2, rfl⟩)
      · exact ⟨start, hle, by omega, rfl⟩
      · exact ⟨a, h1, by omega, rfl⟩
    · rintro ⟨a, h1, h2, rfl⟩
      by_cases ha : a < start
      · exact Or.inr ⟨a, h1, ha, rfl⟩
      · refine Or.inl ?_
        rw [getGptx_eq, getGptx_eq]
        omega
  rw [← hentries, Set.union_insert]

/-- **`free_range`** frees the tables that the root table names for its range. -/
theorem freeRange_unhung {m₁ : Mm} (ht : Tables m₁ R userEntries D F₁) (hr : r ∈ R)
    (h : Unhung m₁ m r F₁ C) {v : Vma} (hv : v.vmStart % pageSize = 0 ∧ v.vmEnd % pageSize = 0 ∧
      userAccess v.vmStart v.vmEnd) {k : ℕ} (hk : userEnd / ptSize ≤ k) :
    ∃ m', freeRange k m r v.vmStart v.vmEnd = .ok m' ∧
      Unhung m₁ m' r F₁ (C ∪ rangeEntries v.vmStart v.vmEnd) ∧ WritesOnly m m' {r} := by
  have hrounds := rounds_lt hv.2.2 hk
  have hround : rounddown v.vmStart pageSize = v.vmStart := by
    rw [rounddown]
    exact Nat.div_mul_cancel (Nat.dvd_of_mod_eq_zero hv.1)
  rw [freeRange, checkRange_eq hv, ok_bind, hround]
  obtain ⟨h0, h1, -, hlt, hstop⟩ := hv
  rw [pageSize_eq] at h0 h1
  have hempty : C ∪ rangeEntries v.vmStart v.vmStart = C := by
    rw [Set.union_eq_left]
    rintro i ⟨a, h2, h3, -⟩
    omega
  have hstep : ∀ m₂ start, start < v.vmEnd → (v.vmStart ≤ start ∧ start % ptSize = 0 ∧
      Unhung m₁ m₂ r F₁ (C ∪ rangeEntries v.vmStart start) ∧ WritesOnly m m₂ {r}) →
      ∃ m' next, freeStep m₂ r start = .ok (m', next) ∧ start + ptSize ≤ next ∧ next ≤ v.vmEnd ∧
        v.vmStart ≤ next ∧ next % ptSize = 0 ∧
          Unhung m₁ m' r F₁ (C ∪ rangeEntries v.vmStart next) ∧ WritesOnly m m' {r} := by
    rintro m₂ start hlt' ⟨hle, h512, h, hw⟩
    obtain ⟨m', h2, h3, hw'⟩ := freeStep_unhung ht hr h (lt_of_lt_of_le hlt' hstop)
    rw [insert_rangeEntries h512 hle] at h3
    rw [ptSize_eq] at h2 h3 h512 ⊢
    simp only [userEnd] at hstop
    rw [u64_of_lt (by omega)] at h2
    exact ⟨m', _, h2, le_rfl, by omega, by omega, by omega, h3, hw.trans hw'⟩
  obtain ⟨m', h2, -, -, h3, hw⟩ := rangeLoop_eq hstep k hlt hrounds
    ⟨le_rfl, by rw [ptSize_eq]; omega, by rwa [hempty], .of_eq rfl⟩
  exact ⟨m', h2, h3, hw⟩

/-- **The second loop of `del_vmas`** frees the tables that the root table names for the areas. -/
theorem delVmas_unhung {m₁ : Mm} (ht : Tables m₁ R userEntries D F₁) (hr : r ∈ R) {vmas : List Vma}
    (hvmas : ∀ v ∈ vmas, v.vmStart % pageSize = 0 ∧ v.vmEnd % pageSize = 0 ∧
      userAccess v.vmStart v.vmEnd) {k : ℕ} (hk : userEnd / ptSize ≤ k) :
    ∃ m', forVmas (fun m v => freeRange k m r v.vmStart v.vmEnd) m₁ vmas = .ok m' ∧
      Unhung m₁ m' r F₁ (vmaEntries vmas) ∧ WritesOnly m₁ m' {r} := by
  have hconcat : ∀ done v, vmaEntries (done ++ [v]) =
      vmaEntries done ∪ rangeEntries v.vmStart v.vmEnd := by
    intro done v
    ext i
    simp [vmaEntries, rangeEntries, Vma.holds, or_and_right, exists_or, and_assoc]
  have hstep : ∀ done v m, v ∈ vmas →
      Unhung m₁ m r F₁ (vmaEntries done) ∧ WritesOnly m₁ m {r} →
      ∃ m', freeRange k m r v.vmStart v.vmEnd = .ok m' ∧
        Unhung m₁ m' r F₁ (vmaEntries (done ++ [v])) ∧ WritesOnly m₁ m' {r} := by
    rintro done v m hv ⟨h, hw⟩
    rw [hconcat]
    obtain ⟨m', h1, h2, hw'⟩ := freeRange_unhung ht hr h (hvmas v hv) hk
    exact ⟨m', h1, h2, hw.trans hw'⟩
  exact forVmas_eq vmas hstep ⟨by
    rw [show vmaEntries [] = ∅ by simp [vmaEntries]]
    exact unhung_start ht.free, .of_eq rfl⟩

/-! ### Freeing the records -/

/-- `free` of a record that takes one page. -/
theorem free_record {G : Set ℕ} (h : FreeSet m.pmm G) {p n : ℕ} (hn : numPages n = 1)
    (hpool : poolBegin ≤ p ∧ p < poolEnd) (hp : p ∉ G) :
    ∃ m', m.free p n = .ok m' ∧ FreeSet m'.pmm (insert p G) ∧ m'.mem = m.mem := by
  obtain ⟨m', h1, h2, h3, -⟩ := freePage_eq h hpool.1 hpool.2 hp
  refine ⟨m', ?_, h2, h3⟩
  rw [free, hn, assert_of ⟨one_pos, by decide⟩, ok_bind, va2page, assert_of hpool]
  exact h1

/-- The loop of `del_vmm`. -/
theorem forVmas_free (vmas : List Vma) :
    ∀ {m : Mm} {G : Set ℕ}, FreeSet m.pmm G → (vmas.map Vma.frame).Nodup →
      (∀ v ∈ vmas, (poolBegin ≤ v.frame ∧ v.frame < poolEnd) ∧ v.frame ∉ G) →
      ∃ m', forVmas (fun m v => m.free v.frame Vma.size) m vmas = .ok m' ∧
        FreeSet m'.pmm (G ∪ {f | f ∈ vmas.map Vma.frame}) ∧ m'.mem = m.mem := by
  induction vmas with
  | nil => exact fun h _ _ => ⟨_, rfl, by simpa using h, rfl⟩
  | cons v vmas ih =>
    intro m G h hnodup hpool
    rw [List.map_cons, List.nodup_cons] at hnodup
    obtain ⟨h1, h2⟩ := hpool v List.mem_cons_self
    obtain ⟨m₁, h3, h4, hmem₁⟩ := free_record h (show numPages Vma.size = 1 by decide) h1 h2
    obtain ⟨m₂, h5, h6, hmem₂⟩ := ih h4 hnodup.2 fun w hw => by
      obtain ⟨h7, h8⟩ := hpool w (List.mem_cons_of_mem v hw)
      refine ⟨h7, ?_⟩
      rintro (heq | hG)
      · exact hnodup.1 (heq ▸ List.mem_map_of_mem hw)
      · exact h8 hG
    refine ⟨m₂, by simp only [forVmas, h3, ok_bind, h5], ?_, hmem₂.trans hmem₁⟩
    convert h6 using 1
    ext f
    simp only [List.map_cons, List.mem_cons, Set.mem_union, Set.mem_ofPred_eq, Set.mem_insert_iff]
    tauto

/-! ### The whole teardown -/

/-- The frames of an address space that its teardown does not free: the tables of leaf entries,
the tables that hang where there is no area, and the pages that are mapped where there is no
area. -/
def leaked (m : Mm) (r : ℕ) (vmas : List Vma) : Set ℕ :=
  {f | (∃ i j, TablePath userEntries [i, j] ∧ walk m.child r [i, j] = some f) ∨
    (∃ i ∈ userEntries, i ∉ vmaEntries vmas ∧ m.child r i = some f) ∨
    ∃ a < userEnd, a / pageSize ∉ vmaPages vmas ∧ ∃ pte, m.entry r a = some pte ∧ pte2ppn pte = f}

/-- What is free when the pages and the tables have been freed. -/
theorem freed_eq {m₁ : Mm} {vmas : List Vma}
    (h : Deleted m m₁ R D₀ r A (vmaPages vmas) D F₁) :
    F₁ ∪ m₁.hung r (vmaEntries vmas) = (A \ D₀) \ m.leaked r vmas := by
  have ho := h.owned
  have ht := ho.consistent.tables
  have hr := ho.root
  have hwalk : ∀ p f, TablePath userEntries p → walk m.child r p = some f →
      walk m₁.child r p = some f := fun p f hp hw => (h.walk_eq p hp).trans hw
  have hchild : ∀ i ∈ userEntries, m₁.child r i = m.child r i := by
    intro i hi
    rw [← walk_one, ← walk_one, h.walk_eq _ (tablePath_one hi)]
  -- what is leaked is neither free nor one of the tables that are freed
  have hleaked : ∀ f ∈ m.leaked r vmas, f ∉ F₁ ∧ f ∉ m₁.hung r (vmaEntries vmas) := by
    rintro f (⟨i, j, hp, hw⟩ | ⟨i, hi, hiC, hf⟩ | ⟨a, ha, hS, pte, he, rfl⟩)
    · refine ⟨(ht.table r hr _ f hp (hwalk _ f hp hw)).1, ?_⟩
      rintro ⟨k, -, hk, hkf⟩
      have := path_unique ht hr hp (tablePath_one hk) (hwalk _ f hp hw)
        ((walk_one m₁ r k).trans hkf)
      simp at this
    · rw [← hchild i hi] at hf
      refine ⟨(child_table ht hr hi hf).2.2.1, ?_⟩
      rintro ⟨k, hkC, hk, hkf⟩
      have hik := path_unique ht hr (tablePath_one hi) (tablePath_one hk)
        ((walk_one m₁ r i).trans hf) ((walk_one m₁ r k).trans hkf)
      simp only [List.cons.injEq, and_true] at hik
      exact hiC (hik ▸ hkC)
    · have hD := entry_mem ht hr (getGptx_user ha) ((h.kept a ha hS).trans he)
      refine ⟨(ht.data _ hD).2.2, ?_⟩
      rintro ⟨k, -, hk, hkf⟩
      exact (child_table ht hr hk hkf).2.2.2 hD
  ext f
  constructor
  · rintro hf
    refine ⟨?_, fun hl => (hf.elim (hleaked f hl).1 (hleaked f hl).2)⟩
    rcases hf with hF | ⟨i, -, hi, hf⟩
    · exact ⟨ho.total ▸ Or.inl (Or.inl hF), fun h0 => (ht.data f (ho.base h0)).2.2 hF⟩
    · refine ⟨ho.total ▸ Or.inl (Or.inr ⟨[i], by simp, tablePath_one hi,
        (walk_one m₁ r i).trans hf⟩), fun h0 => (child_table ht hr hi hf).2.2.2 (ho.base h0)⟩
  · rintro ⟨⟨hA, h0⟩, hl⟩
    rw [← ho.total] at hA
    rcases hA with (hF | ⟨p, hne, hp, hw⟩) | hD
    · exact Or.inl hF
    · match p, hne, hp, hw with
      | [i], _, hp, hw =>
        have hi : i ∈ userEntries := hp.2.2 i rfl
        rw [walk_one] at hw
        refine Or.inr ⟨i, ?_, hi, hw⟩
        by_contra hC
        exact hl (Or.inr (Or.inl ⟨i, hi, hC, (hchild i hi).symm.trans hw⟩))
      | [i, j], _, hp, hw =>
        exact absurd (Or.inl ⟨i, j, hp, (h.walk_eq _ hp).symm.trans hw⟩) hl
      | _ :: _ :: _ :: _, _, hp, _ => exact absurd hp.1 (by simp)
    · obtain ⟨-, a, ha, pte, he, rfl⟩ := ho.single f hD h0 (Set.notMem_empty f)
      by_cases hS : a / pageSize ∈ vmaPages vmas
      · rw [h.gone a ha hS] at he
        cases he
      · exact absurd (Or.inr (Or.inr ⟨a, ha, hS, pte, (h.kept a ha hS).symm.trans he, rfl⟩)) hl

end Mm

open Mm in
/-- **The free pages after the teardown** of an address space; only its tables are written. -/
theorem teardown_freePages {m : Mm} {R D₀ A D F : Set ℕ} {r : ℕ} {vmm : VmManager}
    (h : m.Owned R D₀ r A ∅ D F) (hareas : AreasOk vmm) (hgpt : vmm.pGpt = some r)
    (huse : vmm.useCount = 0) (hnodup : (r :: vmm.frame :: vmm.vmaList.map Vma.frame).Nodup)
    (hrecords : ∀ f ∈ r :: vmm.frame :: vmm.vmaList.map Vma.frame,
      (poolBegin ≤ f ∧ f < poolEnd) ∧ f ∉ A) {k : ℕ} (hk : userEnd / ptSize ≤ k) :
    ∃ m', teardown k m vmm = .ok m' ∧ FreeSet m'.pmm
      (((A \ D₀) \ m.leaked r vmm.vmaList) ∪
        {f | f ∈ r :: vmm.frame :: vmm.vmaList.map Vma.frame}) ∧
      WritesOnly m m' (insert r (m.tablesOf r)) := by
  obtain ⟨m₁, D₁, F₁, h1, hdel, hw₁⟩ := delVmas_deleted h hareas.area hk
  obtain ⟨m₂, h2, hunhung, hw₂⟩ :=
    delVmas_unhung hdel.owned.consistent.tables h.root hareas.area hk
  have hfree := hunhung.free
  rw [freed_eq hdel] at hfree
  have hout : ∀ f ∈ r :: vmm.frame :: vmm.vmaList.map Vma.frame,
      f ∉ (A \ D₀) \ m.leaked r vmm.vmaList := fun f hf hm => (hrecords f hf).2 hm.1.1
  -- the root table, the areas and the manager are all different
  rw [List.nodup_cons, List.nodup_cons] at hnodup
  obtain ⟨hr, hframe, hvmas⟩ := hnodup
  have hroot := hrecords r (by simp)
  obtain ⟨m₃, h3, hfree₃, hmem₃, -⟩ := freePage_eq hfree hroot.1.1 hroot.1.2 (hout r (by simp))
  obtain ⟨m₄, h4, hfree₄, hmem₄⟩ := forVmas_free vmm.vmaList hfree₃ hvmas fun v hv => by
    have hmem : v.frame ∈ vmm.vmaList.map Vma.frame := List.mem_map_of_mem hv
    have hmem' : v.frame ∈ r :: vmm.frame :: vmm.vmaList.map Vma.frame := by simp [hmem]
    refine ⟨(hrecords _ hmem').1, ?_⟩
    rintro (heq | hm)
    · exact hr (heq ▸ List.mem_cons_of_mem _ hmem)
    · exact hout _ hmem' hm
  obtain ⟨m₅, h5, hfree₅, hmem₅⟩ := free_record (p := vmm.frame) hfree₄
    (show numPages VmManager.size = 1 by decide) (hrecords _ (by simp)).1 (by
      rintro ((heq | hm) | hm)
      · exact hr (heq ▸ List.mem_cons_self)
      · exact hout _ (by simp) hm
      · exact hframe hm)
  have hw : WritesOnly m m₅ (insert r (m.tablesOf r)) :=
    ((hw₁.mono (Set.subset_insert r _)).trans (hw₂.mono (by simp))).trans
      (.of_eq (hmem₅.trans (hmem₄.trans hmem₃)))
  refine ⟨m₅, ?_, ?_, hw⟩
  · have hvmm : vmm.gpt = .ok r := by rw [VmManager.gpt, hgpt]
    rw [teardown, delVmas, assert_of huse, ok_bind, hvmm, ok_bind, h1, ok_bind, h2, ok_bind, freeGpt,
      hvmm, ok_bind, va2page, assert_of hroot.1, ok_bind]
    simp only [pure, Except.pure, ok_bind, h3, delVmm, h4, h5]
  · convert hfree₅ using 1
    ext f
    simp only [List.mem_cons, Set.mem_union, Set.mem_ofPred_eq, Set.mem_insert_iff]
    tauto

end GarretOS
