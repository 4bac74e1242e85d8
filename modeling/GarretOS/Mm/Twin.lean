import GarretOS.Kernel.Follows
import GarretOS.Mm.AddressSpace

/-!
# Two memories with the same page table

`m.withMem w` is the memory `m` with other contents `w` of its frames.  If the tables of the page
table `r` have the same content in both, then `get_pte`, `add_page` and `alloc_page_gpte` do the
same in both: they hand out the same frames, and write the same entries.  All other frames keep
their contents, each memory its own.

* `Mm.Along` : what such a step does to both memories;
* `getPte_along`, `addPage_along`, `allocPageGpte_along` : the functions.
-/

namespace GarretOS

open Radix

namespace Mm

/-- The same memory with other contents. -/
def withMem (m : Mm) (w : ℕ → ℕ → ℕ) : Mm := { m with mem := w }

/-- `f` is a table of the page table `r`. -/
def IsTable (m : Mm) (r f : ℕ) : Prop := ∃ p, TablePath userEntries p ∧ walk m.child r p = some f

/-- The tables of `r` have their content in the other memory, too. -/
def SameTables (m : Mm) (w : ℕ → ℕ → ℕ) (r : ℕ) : Prop := ∀ f, m.IsTable r f → w f = m.mem f

/-- A step takes the memory `m` to `m'` and the other contents `w` to `w'`. -/
structure Along (m : Mm) (w : ℕ → ℕ → ℕ) (m' : Mm) (w' : ℕ → ℕ → ℕ) (r : ℕ) : Prop where
  same : m'.SameTables w' r
  /-- No table is given up. -/
  mono : ∀ f, m.IsTable r f → m'.IsTable r f
  /-- Other frames are not written. -/
  keep : ∀ f, ¬ m'.IsTable r f → m'.mem f = m.mem f ∧ w' f = w f
  /-- No frame becomes free. -/
  free : m'.pmm.freePages ⊆ m.pmm.freePages

/-- The other memory after a step that takes `m` to `m'`, and the same result. -/
def Paired {α : Type} (m : Mm) (w : ℕ → ℕ → ℕ) (r : ℕ) (y z : Mm × α) : Prop :=
  ∃ w', z = (y.1.withMem w', y.2) ∧ m.Along w y.1 w' r

variable {m m₁ m' : Mm} {w w₁ w' : ℕ → ℕ → ℕ} {R D F : Set ℕ} {r addr page flags : ℕ}

/-! ### Walks -/

theorem SameTables.walk_eq (h : m.SameTables w r) {p : List ℕ} (hp : TablePath userEntries p) :
    walk (m.withMem w).child r p = walk m.child r p := by
  -- all that is read on the way is in tables of `r`
  refine walk_congr fun q i f hq hf => ?_
  obtain ⟨t, rfl⟩ := hq
  rw [List.append_assoc] at hp
  have hw : w f = m.mem f := h f ⟨q, hp.prefix, hf⟩
  show child { m with mem := w } f i = m.child f i
  simp only [child, hw]

/-- The leaf entry for an address is at the same place, and has the same content. -/
theorem SameTables.slot_eq (h : m.SameTables w r) (hU : getGptx addr ∈ userEntries) :
    (m.withMem w).slot r addr = m.slot r addr := by
  rw [slot, slot, h.walk_eq (tablePath_addr hU)]

theorem SameTables.load_eq (h : m.SameTables w r) (hU : getGptx addr ∈ userEntries) {s : PtePtr}
    (hs : m.slot r addr = some s) : (m.withMem w).load s = m.load s := by
  obtain ⟨f, hw, rfl⟩ := Option.map_eq_some_iff.1 hs
  exact congrFun (h f ⟨_, tablePath_addr hU, hw⟩) _

/-- Both page tables map the same frames. -/
theorem SameTables.entry_eq (h : m.SameTables w r) (ha : addr < userEnd) :
    (m.withMem w).entry r addr = m.entry r addr := by
  have hU : getGptx addr ∈ userEntries := getGptx_user ha
  cases hs : m.slot r addr with
  | none => rw [entry, entry, h.slot_eq hU, hs, Option.bind_none, Option.bind_none]
  | some s => rw [entry_of_slot hs, entry_of_slot ((h.slot_eq hU).trans hs), h.load_eq hU hs]

namespace Along

theorem refl (h : m.SameTables w r) : m.Along w m w r :=
  ⟨h, fun _ hf => hf, fun _ _ => ⟨rfl, rfl⟩, subset_rfl⟩

theorem trans (h : m.Along w m₁ w₁ r) (h' : m₁.Along w₁ m' w' r) : m.Along w m' w' r := by
  refine ⟨h'.same, fun f hf => h'.mono f (h.mono f hf), fun f hf => ?_, h'.free.trans h.free⟩
  obtain ⟨h1, h2⟩ := h'.keep f hf
  obtain ⟨h3, h4⟩ := h.keep f fun hf' => hf (h'.mono f hf')
  exact ⟨h1.trans h3, h2.trans h4⟩

end Along

theorem isTable_congr (h : m'.mem = m.mem) (r f : ℕ) : m'.IsTable r f ↔ m.IsTable r f := by
  rw [IsTable, IsTable, child_congr h]

/-- Then the allocator has done something, too. -/
theorem Along.congr (h : m.Along w m₁ w₁ r) (hmem : m'.mem = m₁.mem)
    (hfree : m'.pmm.freePages ⊆ m.pmm.freePages) : m.Along w m' w₁ r := by
  refine ⟨fun f hf => ?_, fun f hf => (isTable_congr hmem r f).2 (h.mono f hf), fun f hf => ?_,
    hfree⟩
  · rw [hmem]
    exact h.same f ((isTable_congr hmem r f).1 hf)
  · rw [hmem]
    exact h.keep f fun hf' => hf ((isTable_congr hmem r f).2 hf')

/-! ### The allocator -/

/-- The allocator does not look at the contents of memory. -/
theorem follows_allocPages (m : Mm) (w : ℕ → ℕ → ℕ) (n : ℕ) :
    Follows (m.allocPages n) ((m.withMem w).allocPages n) fun y z => z = (y.1.withMem w, y.2) := by
  unfold allocPages
  refine (follows_self (Q := Eq) fun _ _ => rfl).bind ?_
  rintro ⟨a, page⟩ _ rfl
  rw [show (m.withMem w).swapInit = m.swapInit from rfl]
  dsimp only
  by_cases hfail : page = none ∧ m.swapInit = true
  · rw [if_pos hfail]
    exact follows_error
  · rw [if_neg hfail, if_neg hfail]
    exact follows_pure rfl

theorem follows_allocPage (m : Mm) (w : ℕ → ℕ → ℕ) :
    Follows m.allocPage (m.withMem w).allocPage fun y z => z = (y.1.withMem w, y.2) :=
  follows_allocPages m w 1

theorem follows_malloc (m : Mm) (w : ℕ → ℕ → ℕ) (n : ℕ) :
    Follows (m.malloc n) ((m.withMem w).malloc n) fun y z => z = (y.1.withMem w, y.2) := by
  unfold malloc
  refine (follows_self (Q := Eq) fun _ _ => rfl).bind fun _ _ _ => ?_
  refine (follows_allocPages m w _).bind ?_
  rintro ⟨m₁, _ | page⟩ _ rfl
  · exact follows_error
  · refine (follows_self (Q := Eq) fun _ _ => rfl).bind ?_
    rintro va _ rfl
    exact follows_pure rfl

theorem follows_freePage (m : Mm) (w : ℕ → ℕ → ℕ) (page : ℕ) :
    Follows (m.freePage page) ((m.withMem w).freePage page) fun y z =>
      z = y.withMem w ∧ y.mem = m.mem := by
  unfold freePage freePages
  refine (follows_self (Q := Eq) fun _ _ => rfl).bind ?_
  rintro a _ rfl
  exact follows_pure ⟨rfl, rfl⟩

theorem freePages_subset {m m' : Mm} {F F' : Set ℕ} (h : FreeSet m.pmm F) (h' : FreeSet m'.pmm F')
    (hsub : F' ⊆ F) : m'.pmm.freePages ⊆ m.pmm.freePages := by
  rw [h.freePages_eq, h'.freePages_eq]
  exact hsub

/-- A record of one page. -/
theorem malloc_follows (h : FreeSet m.pmm F) (w : ℕ → ℕ → ℕ) {n : ℕ} (hn : numPages n = 1) :
    Follows (m.malloc n) ((m.withMem w).malloc n) fun y z =>
      z = (y.1.withMem w, y.2) ∧ y.1.mem = m.mem ∧ y.1.pmm.freePages ⊆ m.pmm.freePages := by
  refine ((follows_malloc m w n).sat (malloc_sat h hn)).mono ?_
  rintro ⟨m₁, frame⟩ _ ⟨⟨ha, -⟩, rfl⟩
  exact ⟨rfl, ha.mem, freePages_subset h ha.free Set.sdiff_subset⟩

/-! ### Tables -/

/-- A fresh table is empty in both memories. -/
theorem along_create {f x n v : ℕ} (h : Tables m R userEntries D F) (hs : m.SameTables w r)
    (hg : Grown m m' R userEntries D F r {n}) (hf : m.IsTable r f)
    (hmem : m'.mem = ((m.memset0 n).store (f, x) v).mem) :
    m.Along w m' (((m.withMem w).memset0 n).store (f, x) v).mem r := by
  have hmono : ∀ g, m.IsTable r g → m'.IsTable r g := by
    rintro g ⟨p, hp, hw⟩
    exact ⟨p, hp, hg.walk_mono r hg.root p g hp hw⟩
  have hnew : m'.IsTable r n := by
    obtain ⟨p, -, hp, hw⟩ := hg.hung n rfl
    exact ⟨p, hp, hw⟩
  -- a table is an old one, or the fresh one, which has been cleared in both memories
  refine ⟨fun g htable => ?_, hmono, fun g hno => ?_,
    freePages_subset h.free hg.tables.free Set.sdiff_subset⟩
  · rw [hmem]
    funext j
    rw [store_mem, store_mem]
    by_cases hgn : g = n
    · subst hgn
      simp only [memset0, Function.update_self]
    · obtain ⟨p, hp, hw⟩ := htable
      have hold : w g = m.mem g :=
        hs g ⟨p, hp, (hg.walk_new r hg.root p g hp hw).resolve_right hgn⟩
      simp only [memset0, withMem, Function.update_of_ne hgn, hold]
  · have hgf : g ≠ f := fun he => hno (hmono g (he ▸ hf))
    have hgn : g ≠ n := fun he => hno (he ▸ hnew)
    rw [hmem]
    simp only [store, memset0, withMem, Function.update_of_ne hgf, Function.update_of_ne hgn,
      and_self]

/-- An entry of a leaf table is written in both memories. -/
theorem along_store {s : PtePtr} {v : ℕ} (h : Tables m R userEntries D F) (hs : m.SameTables w r)
    (hr : r ∈ R) (hU : getGptx addr ∈ userEntries) (hslot : m.slot r addr = some s)
    (hmem : m'.mem = (m.store s v).mem) (hfree : FreeSet m'.pmm F) :
    m.Along w m' ((m.withMem w).store s v).mem r := by
  have hl := (slot_leaf hr hU hslot).1
  have htable : m.IsTable r s.1 := by
    obtain ⟨g, hw, rfl⟩ := Option.map_eq_some_iff.1 hslot
    exact ⟨_, tablePath_addr hU, hw⟩
  have hiff : ∀ g, m'.IsTable r g ↔ m.IsTable r g := by
    intro g
    refine exists_congr fun p => and_congr_right fun hp => ?_
    rw [child_congr hmem, walk_store h hl hr hp]
  refine ⟨fun g hg => ?_, fun g hg => (hiff g).2 hg, fun g hg => ?_,
    freePages_subset h.free hfree subset_rfl⟩
  · rw [hmem]
    funext j
    have hold : w g = m.mem g := hs g ((hiff g).1 hg)
    rw [store_mem, store_mem]
    simp only [withMem, hold]
  · have hne : g ≠ s.1 := fun he => hg ((hiff g).2 (he ▸ htable))
    rw [hmem]
    simp only [store, withMem, Function.update_of_ne hne, and_self]

theorem ensureTable_along (h : Tables m R userEntries D F) (hr : r ∈ R) {p : List ℕ} {x f : ℕ}
    (hp : TablePath userEntries (p ++ [x])) (hf : walk m.child r p = some f)
    (hs : m.SameTables w r) (b : Bool) :
    Follows (m.ensureTable (f, x) b) ((m.withMem w).ensureTable (f, x) b) (m.Paired w r) := by
  have htable : m.IsTable r f := ⟨p, hp.prefix, hf⟩
  have hload : (m.withMem w).load (f, x) = m.load (f, x) := congrFun (hs f htable) x
  -- both read the same entry, and take the same branch
  unfold ensureTable
  rw [hload]
  split_ifs with hv hb
  · exact follows_ok ⟨w, rfl, .refl hs⟩
  · refine ((follows_allocPage m w).sat (allocPage_sat h.free)).bind ?_
    rintro ⟨m₁, _ | n⟩ _ ⟨hal, rfl⟩
    · obtain rfl : m₁ = m := hal
      exact follows_pure ⟨w, rfl, .refl hs⟩
    · have hal : Allocated m m₁ F n := hal
      refine ((follows_self (Q := Eq) fun _ _ => rfl).sat (page2va_sat n)).bind ?_
      rintro va _ ⟨⟨rfl, h1, h2, h3⟩, rfl⟩
      rw [page2ppn_eq h1 h2, ok_bind, ok_bind]
      obtain ⟨hmem, hg, -⟩ := grown_alloc h hr hp hf (child_of_invalid hv) hal h1 h3 rfl
      exact follows_pure ⟨_, rfl, along_create h hs hg htable hmem⟩
  · exact follows_ok ⟨w, rfl, .refl hs⟩

/-- **`get_pte`** finds or creates the same tables in both memories. -/
theorem getPte_along (h : Tables m R userEntries D F) (hr : r ∈ R)
    (hU : getGptx addr ∈ userEntries) (hs : m.SameTables w r) (b : Bool) :
    Follows (m.getPte r addr b) ((m.withMem w).getPte r addr b) (m.Paired w r) := by
  have hp₂ := tablePath_addr hU
  have hp₁ : TablePath userEntries [getGptx addr] := TablePath.prefix (q := [getMptx addr]) hp₂
  refine ((ensureTable_along h hr (p := []) hp₁ rfl hs b).sat
    (ensureTable_sat h hr (p := []) hp₁ rfl b)).bind ?_
  rintro ⟨m₁, _ | _⟩ _ ⟨⟨N₁, hg₁, hok₁⟩, w₁, rfl, ha₁⟩
  · exact follows_pure ⟨w₁, rfl, ha₁⟩
  obtain ⟨f₁, hf₁⟩ := hok₁ rfl
  obtain ⟨hw₁, hva₁⟩ := upper_table hg₁.tables hr hU hf₁
  have hload₁ : (m₁.withMem w₁).load (r, getGptx addr) = m₁.load (r, getGptx addr) :=
    congrFun (ha₁.same r ⟨[], tablePath_nil, rfl⟩) _
  simp only [not_true_eq_false, if_false]
  rw [hload₁, hva₁, ok_bind, ok_bind]
  refine ((ensureTable_along hg₁.tables hr (p := [getGptx addr]) hp₂ hw₁ ha₁.same b).sat
    (ensureTable_sat hg₁.tables hr (p := [getGptx addr]) hp₂ hw₁ b)).bind ?_
  rintro ⟨m₂, _ | _⟩ _ ⟨⟨N₂, hg₂, hok₂⟩, w₂, rfl, ha₂⟩
  · exact follows_pure ⟨w₂, rfl, ha₁.trans ha₂⟩
  have hload₂ : (m₂.withMem w₂).load (f₁, getMptx addr) = m₂.load (f₁, getMptx addr) :=
    congrFun (ha₂.same f₁ (ha₂.mono f₁ ⟨_, hp₁, hw₁⟩)) _
  simp only [not_true_eq_false, if_false]
  rw [hload₂]
  refine (follows_self (Q := Eq) fun _ _ => rfl).bind ?_
  rintro pt _ rfl
  exact follows_pure ⟨w₂, rfl, ha₁.trans ha₂⟩

/-- **`add_page`** at an address where no page is mapped. -/
theorem addPage_along (h : Consistent m R userEntries D F) (hr : r ∈ R) (hau : addr < userEnd)
    (hpage : page ∈ D) (hnone : m.entry r addr = none) (hs : m.SameTables w r) :
    Follows (m.addPage r page addr flags) ((m.withMem w).addPage r page addr flags)
      (m.Paired w r) := by
  have hU : getGptx addr ∈ userEntries := getGptx_user hau
  refine ((getPte_along h.tables hr hU hs true).sat (getPte_sat h.tables hr hU true)).bind ?_
  rintro ⟨m₁, _ | s⟩ _ ⟨⟨N, hg, hslot⟩, w₁, rfl, ha⟩
  · exact follows_pure ⟨w₁, rfl, ha⟩
  · have hslot := hslot s rfl
    have hv : ¬ isValid (m₁.mem s.1 s.2) := by
      intro hv
      have hv : isValid (m₁.load s) := hv
      rw [← hg.entry_eq h.tables hr hU, entry_of_slot hslot, if_pos hv] at hnone
      cases hnone
    obtain ⟨h1, h2, -⟩ := h.tables.data page hpage
    have hsame : w₁ s.1 s.2 = m₁.mem s.1 s.2 := ha.same.load_eq hU hslot
    -- no page is mapped there, so none is given back
    have hreplace : ∀ n, (m₁.setRef page n).replacePage r page addr s =
        .ok (m₁.setRef page n) := fun n => by rw [replacePage, load, setRef_mem, if_neg hv]
    have hreplace' : ∀ n, ((m₁.withMem w₁).setRef page n).replacePage r page addr s =
        .ok ((m₁.withMem w₁).setRef page n) := by
      intro n
      rw [replacePage, load, setRef_mem, show (m₁.withMem w₁).mem = w₁ from rfl, hsame, if_neg hv]
    simp only [hreplace, hreplace', ok_bind, page2ppn_eq h1 h2]
    refine follows_pure ⟨_, rfl, ha.trans (along_store hg.tables ha.same hr hU hslot ?_ ?_)⟩
    · simp only [store, setRef_mem]
    · exact hg.tables.free.modifyRef page _

/-- **`alloc_page_gpte`** at an address where no page is mapped, and where the page comes from. -/
theorem allocPageGpte_along (h : Consistent m R userEntries D F) (hr : r ∈ R)
    (hau : addr < userEnd) (hf : flags < 1024) (hnone : m.entry r addr = none)
    (hs : m.SameTables w r) :
    Follows (m.allocPageGpte r addr flags) ((m.withMem w).allocPageGpte r addr flags)
      fun y z => m.Paired w r y z ∧ ∀ p ∈ y.2, p ∈ F := by
  have hU : getGptx addr ∈ userEntries := getGptx_user hau
  refine ((follows_allocPage m w).sat (allocPage_sat h.tables.free)).bind ?_
  rintro ⟨m₁, _ | page⟩ _ ⟨hal, rfl⟩
  · obtain rfl : m₁ = m := hal
    exact follows_pure ⟨⟨w, rfl, .refl hs⟩, by simp⟩
  have hal : Allocated m m₁ F page := hal
  have h₁ := h.alloc hal
  have ha₁ : m.Along w m₁ w r :=
    (Along.refl hs).congr hal.mem (freePages_subset h.tables.free hal.free Set.sdiff_subset)
  have hp : page ∈ insert page D := Set.mem_insert page D
  refine ((addPage_along h₁ hr hau hp (by rw [entry_congr hal.mem, hnone]) ha₁.same).sat
    (addPage_touched h₁ hr hU hp hf)).bind ?_
  rintro ⟨m₂, ret⟩ _ ⟨⟨v, D', F', ht, hret⟩, w₂, rfl, ha₂⟩
  simp only at hret ⊢
  by_cases h0 : ret = 0
  · rw [if_neg (not_not.2 h0), if_neg (not_not.2 h0)]
    exact follows_pure ⟨⟨w₂, rfl, ha₁.trans ha₂⟩, by
      rintro p hp
      obtain rfl := Option.some.inj hp
      exact hal.mem_free⟩
  · -- `add_page` has failed: the page goes back
    rw [if_pos h0, if_pos h0]
    rcases hret with ⟨rfl, -⟩ | ⟨-, hret⟩
    · obtain ⟨m', N, hg, rfl, rfl, rfl⟩ := ht
      obtain ⟨h1, h2⟩ := h.tables.free.mem_pool hal.mem_free
      obtain ⟨m₃, h3, h4, -⟩ := freePage_eq hg.tables.free h1 h2 fun hN => hN.1.2 rfl
      refine ((follows_freePage m₂ w₂ page).knowing (P := fun m' => m' = m₃) fun m' hm' =>
        Except.ok.inj (hm'.symm.trans h3)).bind ?_
      rintro m' _ ⟨rfl, rfl, hmem⟩
      refine follows_pure ⟨⟨w₂, rfl, (ha₁.trans ha₂).congr hmem ?_⟩, by simp⟩
      refine freePages_subset h.tables.free h4 ?_
      rintro p (rfl | hp)
      · exact hal.mem_free
      · exact hp.1.1
    · exact absurd hret h0

end Mm

end GarretOS
