import GarretOS.Mm.FreeSet
import GarretOS.Radix.Basic
import Mathlib.Data.Set.Card

/-!
# Page tables as radix trees

The page tables with the roots `R`, restricted to the entries `U` of their root tables, are radix
trees in the memory of page frames.  `Tables m R U D F` says that they are separated, that no
table is a data page or free, and that the leaf entries map data pages; `D` is the set of data
pages and `F` the set of free pages.  `mappings m R U p` is the set of the valid leaf entries that
map the page `p`.

* `getPte_sat` : `get_pte` creates tables at most, from free pages (`Grown`);
* `Grown.entry_eq`, `Grown.mappings_eq` : creating tables changes no mapping.
-/

namespace GarretOS

open Radix

namespace Mm

/-- The table or page that the entry `i` of the table `f` names. -/
def child (m : Mm) (f i : ℕ) : Option ℕ :=
  if isValid (m.mem f i) then some (pte2ppn (m.mem f i)) else none

/-- The paths to tables: a root table, then at most two tables below the entries `U` of it. -/
def TablePath (U : Set ℕ) (p : List ℕ) : Prop :=
  p.length ≤ 2 ∧ (∀ i ∈ p, i < 512) ∧ ∀ i ∈ p.head?, i ∈ U

/-- `f` is a table of leaf entries. -/
def IsLeaf (m : Mm) (R U : Set ℕ) (f : ℕ) : Prop :=
  ∃ r ∈ R, ∃ i j, TablePath U [i, j] ∧ walk m.child r [i, j] = some f

/-- The valid leaf entries, over all page tables, that map the page `p`. -/
def mappings (m : Mm) (R U : Set ℕ) (p : ℕ) : Set PtePtr :=
  {s | m.IsLeaf R U s.1 ∧ s.2 < 512 ∧ m.child s.1 s.2 = some p}

/-- The leaf entry for the address, if its table exists. -/
def slot (m : Mm) (r addr : ℕ) : Option PtePtr :=
  (walk m.child r [getGptx addr, getMptx addr]).map fun f => (f, getPtx addr)

/-- The content of the leaf entry for the address, if that entry is valid. -/
def entry (m : Mm) (r addr : ℕ) : Option ℕ :=
  (m.slot r addr).bind fun s => if isValid (m.load s) then some (m.load s) else none

/-- The page tables are separated trees of allocated frames whose leaf entries map data pages. -/
structure Tables (m : Mm) (R U D F : Set ℕ) : Prop where
  /-- The free pages. -/
  free : FreeSet m.pmm F
  /-- No table is shared. -/
  separated : Separated m.child R (TablePath U)
  /-- Tables are neither free nor data pages, and those below the roots can be addressed. -/
  table : ∀ r ∈ R, ∀ p f, TablePath U p → walk m.child r p = some f → f ∉ F ∧ f ∉ D ∧
    (p ≠ [] → poolBegin ≤ f ∧ f * pageSize < dramEndPa)
  /-- Data pages are pages of the pool that are not free. -/
  data : ∀ p ∈ D, poolBegin ≤ p ∧ p < poolEnd ∧ p ∉ F
  /-- Leaf entries map data pages. -/
  mapped : ∀ p s, s ∈ m.mappings R U p → p ∈ D

/-- What creating tables from the free pages `N` in the page table `r` changes. -/
structure Grown (m m' : Mm) (R U D F : Set ℕ) (r : ℕ) (N : Set ℕ) : Prop where
  root : r ∈ R
  /-- The new tables were free. -/
  sub : N ⊆ F
  tables : Tables m' R U D (F \ N)
  /-- The old tables stay where they are. -/
  walk_mono : ∀ r ∈ R, ∀ p f, TablePath U p → walk m.child r p = some f →
    walk m'.child r p = some f
  /-- Other tables are new. -/
  walk_new : ∀ r ∈ R, ∀ p f, TablePath U p → walk m'.child r p = some f →
    walk m.child r p = some f ∨ f ∈ N
  /-- New leaf tables are empty. -/
  leaf_new : ∀ f ∈ N, m'.IsLeaf R U f → ∀ k, m'.child f k = none
  /-- The new tables are tables of `r`. -/
  hung : ∀ f ∈ N, ∃ p, p ≠ [] ∧ TablePath U p ∧ walk m'.child r p = some f
  /-- Other page tables have the same tables. -/
  other : ∀ r' ∈ R, r' ≠ r → ∀ p, TablePath U p → walk m'.child r' p = walk m.child r' p
  /-- Only the upper tables are written. -/
  mem : ∀ f, f ∉ F → (∀ p, TablePath U p → p.length < 2 → walk m.child r p ≠ some f) →
    m'.mem f = m.mem f
  /-- The other entries of the root tables are not written. -/
  kernel : ∀ r ∈ R, ∀ i, i ∉ U → m'.mem r i = m.mem r i
  ref : ∀ i, i ∉ N → m'.ref i = m.ref i
  swapInit : m'.swapInit = m.swapInit

/-! ### Paths and entries -/

section

variable {m m' : Mm} {R U D F N : Set ℕ} {r : ℕ}

theorem tablePath_nil : TablePath U [] := ⟨by simp, by simp, by simp⟩

theorem TablePath.prefix {p q : List ℕ} (h : TablePath U (p ++ q)) : TablePath U p := by
  obtain ⟨h1, h2, h3⟩ := h
  refine ⟨?_, fun i hi => h2 i (List.mem_append_left q hi), fun i hi => h3 i ?_⟩
  · rw [List.length_append] at h1
    omega
  · cases p with
    | nil => simp at hi
    | cons j p => simpa using hi

theorem tablePath_addr {addr : ℕ} (h : getGptx addr ∈ U) :
    TablePath U [getGptx addr, getMptx addr] := by
  obtain ⟨h1, h2, -⟩ := index_lt addr
  exact ⟨by simp, by simp [h1, h2], by simpa using h⟩

theorem child_of_valid {f i : ℕ} (h : isValid (m.mem f i)) :
    m.child f i = some (pte2ppn (m.mem f i)) := if_pos h

theorem child_of_invalid {f i : ℕ} (h : ¬ isValid (m.mem f i)) : m.child f i = none := if_neg h

theorem child_congr (h : m'.mem = m.mem) : m'.child = m.child := by
  unfold child
  rw [h]

/-- The effect of a write on the tree. -/
theorem child_store (m : Mm) (f i v : ℕ) : (m.store (f, i) v).child =
    setChild m.child f i (if isValid v then some (pte2ppn v) else none) := by
  funext g j
  simp only [child, setChild, store_mem]
  split_ifs <;> rfl

theorem pte2va_eq {f i g : ℕ} (h : m.child f i = some g) (h1 : poolBegin ≤ g)
    (h2 : g * pageSize < dramEndPa) : pte2va (m.load (f, i)) = .ok g := by
  unfold child at h
  split_ifs at h with hv
  obtain rfl := Option.some.inj h
  rw [pte2va, pte2page, load, assert_of hv]
  exact page2va_eq h1 h2

namespace Tables

theorem setRef (h : Tables m R U D F) (i n : ℕ) : Tables (m.setRef i n) R U D F :=
  ⟨h.free.modifyRef i n, h.separated, h.table, h.data, h.mapped⟩

theorem grown_refl (h : Tables m R U D F) (hr : r ∈ R) : Grown m m R U D F r ∅ where
  root := hr
  sub := Set.empty_subset F
  tables := by rwa [Set.sdiff_empty]
  walk_mono _ _ _ _ _ hw := hw
  walk_new _ _ _ _ _ hw := Or.inl hw
  leaf_new f hf := absurd hf (Set.notMem_empty f)
  hung f hf := absurd hf (Set.notMem_empty f)
  other _ _ _ _ _ := rfl
  mem _ _ _ := rfl
  kernel _ _ _ _ := rfl
  ref _ _ := rfl
  swapInit := rfl

/-- A leaf table is reached along no shorter path. -/
theorem leaf_ne (h : Tables m R U D F) {f : ℕ} (hf : m.IsLeaf R U f) :
    ∀ r ∈ R, ∀ p, TablePath U p → p.length < 2 → walk m.child r p ≠ some f := by
  obtain ⟨r', hr', i, j, hp', hw'⟩ := hf
  rintro r hr p hp hlen hw
  have := (h.separated.unique r hr r' hr' p [i, j] f hp hp' hw hw').2
  rw [this] at hlen
  simp at hlen

theorem leaf_notMem (h : Tables m R U D F) {f : ℕ} (hf : m.IsLeaf R U f) : f ∉ F ∧ f ∉ D := by
  obtain ⟨r, hr, i, j, hp, hw⟩ := hf
  obtain ⟨h1, h2, -⟩ := h.table r hr [i, j] f hp hw
  exact ⟨h1, h2⟩

theorem leaf_pool (h : Tables m R U D F) {f : ℕ} (hf : m.IsLeaf R U f) :
    poolBegin ≤ f ∧ f * pageSize < dramEndPa := by
  obtain ⟨r, hr, i, j, hp, hw⟩ := hf
  exact (h.table r hr [i, j] f hp hw).2.2 (by simp)

end Tables

namespace Grown

theorem leaf_mem (h : Tables m R U D F) (hg : Grown m m' R U D F r N) {f : ℕ}
    (hf : m.IsLeaf R U f) : m'.mem f = m.mem f :=
  hg.mem f (h.leaf_notMem hf).1 (h.leaf_ne hf r hg.root)

theorem leaf_mono (hg : Grown m m' R U D F r N) {f : ℕ} (hf : m.IsLeaf R U f) :
    m'.IsLeaf R U f := by
  obtain ⟨r, hr, i, j, hp, hw⟩ := hf
  exact ⟨r, hr, i, j, hp, hg.walk_mono r hr _ f hp hw⟩

/-- Creating tables twice. -/
theorem trans {m'' : Mm} {N' : Set ℕ} (hg : Grown m m' R U D F r N)
    (hg' : Grown m' m'' R U D (F \ N) r N') : Grown m m'' R U D F r (N ∪ N') where
  root := hg.root
  sub := Set.union_subset hg.sub (hg'.sub.trans Set.sdiff_subset)
  tables := by
    rw [← Set.sdiff_sdiff]
    exact hg'.tables
  walk_mono r hr p f hp hw := hg'.walk_mono r hr p f hp (hg.walk_mono r hr p f hp hw)
  walk_new r hr p f hp hw := by
    rcases hg'.walk_new r hr p f hp hw with hw | hf
    · rcases hg.walk_new r hr p f hp hw with hw | hf
      · exact Or.inl hw
      · exact Or.inr (Or.inl hf)
    · exact Or.inr (Or.inr hf)
  leaf_new f hf hl k := by
    by_cases hf' : f ∈ N'
    · exact hg'.leaf_new f hf' hl k
    · have hfN : f ∈ N := hf.resolve_right hf'
      obtain ⟨r, hr, i, j, hp, hw⟩ := hl
      have hl' : m'.IsLeaf R U f :=
        ⟨r, hr, i, j, hp, (hg'.walk_new r hr _ f hp hw).resolve_right hf'⟩
      have hmem := hg'.mem f (fun hm => hm.2 hfN) (hg.tables.leaf_ne hl' _ hg.root)
      have hnone := hg.leaf_new f hfN hl' k
      simpa only [child, hmem] using hnone
  hung f hf := by
    rcases hf with hf | hf
    · obtain ⟨p, hne, hp, hw⟩ := hg.hung f hf
      exact ⟨p, hne, hp, hg'.walk_mono r hg.root p f hp hw⟩
    · exact hg'.hung f hf
  other r' hr' hne p hp := by rw [hg'.other r' hr' hne p hp, hg.other r' hr' hne p hp]
  mem f hf hne := by
    rw [hg'.mem f (fun hm => hf hm.1) fun p hp hlen hw => ?_, hg.mem f hf hne]
    rcases hg.walk_new r hg.root p f hp hw with hw | hf'
    · exact hne p hp hlen hw
    · exact hf (hg.sub hf')
  kernel r' hr' i hi := by rw [hg'.kernel r' hr' i hi, hg.kernel r' hr' i hi]
  ref i hi := by
    rw [hg'.ref i fun hn => hi (Or.inr hn), hg.ref i fun hn => hi (Or.inl hn)]
  swapInit := hg'.swapInit.trans hg.swapInit

/-- No mapping changes. -/
theorem entry_eq (h : Tables m R U D F) {r₀ : ℕ} (hg : Grown m m' R U D F r₀ N) (hr : r ∈ R)
    {addr : ℕ} (hU : getGptx addr ∈ U) : m'.entry r addr = m.entry r addr := by
  have hp := tablePath_addr hU
  unfold entry slot
  cases hw : walk m.child r [getGptx addr, getMptx addr] with
  | some f =>
    rw [hg.walk_mono r hr _ f hp hw]
    rw [Option.map_some, Option.bind_some, Option.bind_some, load, load,
      leaf_mem h hg ⟨r, hr, _, _, hp, hw⟩]
  | none =>
    cases hw' : walk m'.child r [getGptx addr, getMptx addr] with
    | none => rfl
    | some f =>
      rcases hg.walk_new r hr _ f hp hw' with hw'' | hf
      · rw [hw] at hw''
        cases hw''
      · have hnone := hg.leaf_new f hf ⟨r, hr, _, _, hp, hw'⟩ (getPtx addr)
        have hinv : ¬ isValid (m'.load (f, getPtx addr)) := by
          intro hv
          rw [child_of_valid hv] at hnone
          cases hnone
        rw [Option.map_some, Option.bind_some, if_neg hinv]
        rfl

theorem mappings_eq (h : Tables m R U D F) (hg : Grown m m' R U D F r N) (p : ℕ) :
    m'.mappings R U p = m.mappings R U p := by
  ext ⟨f, k⟩
  simp only [mappings, Set.mem_ofPred_eq]
  constructor
  · rintro ⟨hl, hk, hc⟩
    obtain ⟨r, hr, i, j, hp, hw⟩ := hl
    rcases hg.walk_new r hr _ f hp hw with hw' | hf
    · have hl' : m.IsLeaf R U f := ⟨r, hr, i, j, hp, hw'⟩
      rw [child, leaf_mem h hg hl'] at hc
      exact ⟨hl', hk, hc⟩
    · rw [hg.leaf_new f hf ⟨r, hr, i, j, hp, hw⟩ k] at hc
      cases hc
  · rintro ⟨hl, hk, hc⟩
    refine ⟨hg.leaf_mono hl, hk, ?_⟩
    rw [child, leaf_mem h hg hl]
    exact hc

end Grown

/-! ### Creating tables -/

/-- A fresh page, zeroed and hung into an empty entry of an upper table. -/
theorem grown_create (h : Tables m R U D F) (hr : r ∈ R) {p : List ℕ} {x f n : ℕ}
    (hp : TablePath U (p ++ [x])) (hf : walk m.child r p = some f) (hx : m.child f x = none)
    (hn : n ∈ F) (h1 : poolBegin ≤ n) (h2 : n * pageSize < dramEndPa)
    (hfree : FreeSet m'.pmm (F \ {n})) (hmem : m'.mem = ((m.memset0 n).store (f, x)
      (ppn2pte n pteV)).mem) (href : ∀ i, i ≠ n → m'.ref i = m.ref i)
    (hswap : m'.swapInit = m.swapInit) :
    Grown m m' R U D F r {n} ∧ m'.child f x = some n := by
  have hused : ∀ r' ∈ R, ∀ q, TablePath U q → walk m.child r' q ≠ some n := fun r' hr' q hq hw =>
    (h.table r' hr' q n hq hw).1 hn
  have hfn : f ≠ n := fun he => hused r hr p hp.prefix (he ▸ hf)
  have hlt : n < 2 ^ 54 := by
    rw [pageSize_eq, dramEndPa] at h2
    omega
  -- zeroing the fresh page changes no walk
  have hzero : ∀ j, (m.memset0 n).child n j = none := by
    intro j
    simp [child, memset0]
  have hother : ∀ g j, g ≠ n → (m.memset0 n).child g j = m.child g j := by
    intro g j hg
    simp [child, memset0, hg]
  have hwalk₀ : ∀ r' ∈ R, ∀ q, TablePath U q →
      walk (m.memset0 n).child r' q = walk m.child r' q := fun r' hr' q hq =>
    walk_congr fun q' i g hq' hg => hother g i fun he => by
      obtain ⟨t, rfl⟩ := hq'
      rw [List.append_assoc] at hq
      exact hused r' hr' q' hq.prefix (he ▸ hg)
  have hsep₀ : Separated (m.memset0 n).child R (TablePath U) :=
    h.separated.of_walk fun r' hr' q g hq hw => by rwa [hwalk₀ r' hr' q hq] at hw
  have hchild : m'.child = setChild (m.memset0 n).child f x (some n) := by
    rw [child_congr hmem, child_store, if_pos ((isValid_ppn2pte hlt (by decide)).2 rfl),
      pte2ppn_ppn2pte hlt (by decide)]
  have hf₀ : walk (m.memset0 n).child r p = some f := by rw [hwalk₀ r hr p hp.prefix, hf]
  have hx₀ : (m.memset0 n).child f x = none := by rw [hother f x hfn, hx]
  have hfresh₀ : ∀ r' ∈ R, ∀ q, TablePath U q → walk (m.memset0 n).child r' q ≠ some n :=
    fun r' hr' q hq => by rw [hwalk₀ r' hr' q hq]; exact hused r' hr' q hq
  have hwalk : ∀ r' ∈ R, ∀ q, TablePath U q → walk m'.child r' q =
      if r' = r ∧ q = p ++ [x] then some n else walk m.child r' q := by
    intro r' hr' q hq
    rw [hchild, walk_graft hsep₀ hr hp.prefix hf₀ hx₀ (Ne.symm hfn) hzero hr' hq, hwalk₀ r' hr' q hq]
  have hempty : ∀ k, m'.child n k = none := by
    intro k
    rw [hchild, setChild, if_neg fun hc => hfn hc.1.symm, hzero]
  have hmono : ∀ r' ∈ R, ∀ q g, TablePath U q → walk m.child r' q = some g →
      walk m'.child r' q = some g := by
    intro r' hr' q g hq hw
    rw [hwalk r' hr' q hq, if_neg, hw]
    rintro ⟨rfl, rfl⟩
    rw [walk_concat, hf, Option.bind_some, hx] at hw
    cases hw
  have hnew : ∀ r' ∈ R, ∀ q g, TablePath U q → walk m'.child r' q = some g →
      walk m.child r' q = some g ∨ g = n := by
    intro r' hr' q g hq hw
    rw [hwalk r' hr' q hq] at hw
    split_ifs at hw with hc
    · exact Or.inr (Option.some.inj hw).symm
    · exact Or.inl hw
  have hmemf : ∀ g, g ≠ f → g ≠ n → m'.mem g = m.mem g := by
    intro g hgf hgn
    rw [hmem]
    simp [store, memset0, Function.update_of_ne hgf, Function.update_of_ne hgn]
  have hlen : p.length < 2 := by
    have := hp.1
    rw [List.length_append, List.length_singleton] at this
    omega
  refine ⟨⟨hr, by simpa using hn, ⟨hfree, ?_, ?_, ?_, ?_⟩, hmono,
    fun r' hr' q g hq hw => hnew r' hr' q g hq hw, ?_, fun g hg => ?_, fun r' hr' hne q hq => ?_,
    fun g hg hne => hmemf g ?_ ?_, fun r' hr' i hi => ?_, fun i hi => href i hi, hswap⟩, ?_⟩
  · rw [hchild]
    exact hsep₀.graft hr hp.prefix hf₀ hx₀ hzero hfresh₀
  · intro r' hr' q g hq hw
    rcases hnew r' hr' q g hq hw with hw' | rfl
    · obtain ⟨h3, h4, h5⟩ := h.table r' hr' q g hq hw'
      exact ⟨fun hm => h3 hm.1, h4, h5⟩
    · exact ⟨fun hm => hm.2 rfl, fun hD => (h.data _ hD).2.2 hn, fun _ => ⟨h1, h2⟩⟩
  · intro g hg
    obtain ⟨h3, h4, h5⟩ := h.data g hg
    exact ⟨h3, h4, fun hm => h5 hm.1⟩
  · rintro g ⟨l, k⟩ ⟨⟨r', hr', i, j, hq, hw⟩, hk, hc⟩
    rcases hnew r' hr' _ l hq hw with hw' | rfl
    · have hl : m.IsLeaf R U l := ⟨r', hr', i, j, hq, hw'⟩
      refine h.mapped g (l, k) ⟨hl, hk, ?_⟩
      have hlf : l ≠ f := fun he => h.leaf_ne hl r hr p hp.prefix hlen (he ▸ hf)
      have hln : l ≠ n := fun he => hused r' hr' _ hq (he ▸ hw')
      rwa [child, hmemf l hlf hln] at hc
    · rw [hempty] at hc
      cases hc
  · rintro g rfl - k
    exact hempty k
  · obtain rfl := hg
    exact ⟨p ++ [x], by simp, hp, by rw [hwalk r hr _ hp, if_pos ⟨rfl, rfl⟩]⟩
  · rw [hwalk r' hr' q hq, if_neg fun hc => hne hc.1]
  · rintro rfl
    exact hne p hp.prefix hlen hf
  · rintro rfl
    exact hg hn
  · have hrn : r' ≠ n := fun he => hused r' hr' [] tablePath_nil (by rw [he]; rfl)
    rw [hmem, store_mem, if_neg]
    · simp only [memset0, Function.update_of_ne hrn]
    rintro ⟨rfl, rfl⟩
    obtain ⟨-, rfl⟩ := h.separated.unique r hr r' hr' p [] r' hp.prefix tablePath_nil hf rfl
    exact hi (hp.2.2 i rfl)
  · rw [hchild, setChild, if_pos ⟨rfl, rfl⟩]

/-- The table that `get_pte` makes of a page from the allocator. -/
theorem grown_alloc {m₁ : Mm} (h : Tables m R U D F) (hr : r ∈ R) {p : List ℕ} {x f n : ℕ}
    (hp : TablePath U (p ++ [x])) (hf : walk m.child r p = some f) (hx : m.child f x = none)
    (hal : Allocated m m₁ F n) (h1 : poolBegin ≤ n) (h2 : n * pageSize < dramEndPa)
    (hm' : m' = ((m₁.setRef n 1).memset0 n).store (f, x) (ppn2pte n pteV)) :
    m'.mem = ((m.memset0 n).store (f, x) (ppn2pte n pteV)).mem ∧
      Grown m m' R U D F r {n} ∧ m'.child f x = some n := by
  subst hm'
  have hmem : (((m₁.setRef n 1).memset0 n).store (f, x) (ppn2pte n pteV)).mem =
      ((m.memset0 n).store (f, x) (ppn2pte n pteV)).mem := by
    simp only [store, memset0, setRef_mem, hal.mem]
  refine ⟨hmem, grown_create h hr hp hf hx hal.mem_free h1 h2 (hal.free.modifyRef n 1) hmem
    (fun i hi => ?_) hal.swapInit⟩
  have href : ((m₁.setRef n 1).memset0 n).ref i = (m₁.setRef n 1).ref i := rfl
  rw [store_ref, href, setRef_ref, if_neg hi, hal.ref]

/-- One level of `get_pte`. -/
theorem ensureTable_sat (h : Tables m R U D F) (hr : r ∈ R) {p : List ℕ} {x f : ℕ}
    (hp : TablePath U (p ++ [x])) (hf : walk m.child r p = some f) (b : Bool) :
    Sat (m.ensureTable (f, x) b) fun res => ∃ N, Grown m res.1 R U D F r N ∧
      (res.2 = true → ∃ g, res.1.child f x = some g) := by
  unfold ensureTable
  split_ifs with hv hb
  · exact ⟨∅, h.grown_refl hr, fun _ => ⟨_, child_of_valid hv⟩⟩
  · refine (allocPage_sat h.free).bind ?_
    rintro ⟨m₁, _ | n⟩ hal
    · obtain rfl : m₁ = m := hal
      exact ⟨∅, h.grown_refl hr, by simp⟩
    · have hal : Allocated m m₁ F n := hal
      refine (page2va_sat n).bind ?_
      rintro va ⟨rfl, h1, h2, h3⟩
      rw [page2ppn_eq h1 h2, ok_bind]
      obtain ⟨-, hg, hchild⟩ := grown_alloc h hr hp hf (child_of_invalid hv) hal h1 h3 rfl
      exact ⟨{va}, hg, fun _ => ⟨va, hchild⟩⟩
  · exact ⟨∅, h.grown_refl hr, by simp⟩

/-- The table of the first level on the way to an address. -/
theorem upper_table (h : Tables m R U D F) (hr : r ∈ R) {addr f : ℕ} (hU : getGptx addr ∈ U)
    (hf : m.child r (getGptx addr) = some f) :
    walk m.child r [getGptx addr] = some f ∧ pte2va (m.load (r, getGptx addr)) = .ok f := by
  have hw : walk m.child r [getGptx addr] = some f := by simp [walk, hf]
  have hp : TablePath U [getGptx addr] := TablePath.prefix (q := [getMptx addr]) (tablePath_addr hU)
  obtain ⟨-, -, ht⟩ := h.table r hr _ f hp hw
  exact ⟨hw, pte2va_eq hf (ht (by simp)).1 (ht (by simp)).2⟩

/-- The table of leaf entries on the way to an address. -/
theorem lower_table (h : Tables m R U D F) (hr : r ∈ R) {addr f g : ℕ} (hU : getGptx addr ∈ U)
    (hf : walk m.child r [getGptx addr] = some f) (hg : m.child f (getMptx addr) = some g) :
    walk m.child r [getGptx addr, getMptx addr] = some g ∧
      pte2va (m.load (f, getMptx addr)) = .ok g := by
  have hw : walk m.child r [getGptx addr, getMptx addr] = some g := by
    rw [show [getGptx addr, getMptx addr] = [getGptx addr] ++ [getMptx addr] from rfl, walk_concat,
      hf, Option.bind_some, hg]
  obtain ⟨-, -, ht⟩ := h.table r hr _ g (tablePath_addr hU) hw
  exact ⟨hw, pte2va_eq hg (ht (by simp)).1 (ht (by simp)).2⟩

/-- **`get_pte`** creates tables at most, and returns the leaf entry of the address if its table
exists. -/
theorem getPte_sat (h : Tables m R U D F) (hr : r ∈ R) {addr : ℕ} (hU : getGptx addr ∈ U)
    (b : Bool) : Sat (m.getPte r addr b) fun res => ∃ N, Grown m res.1 R U D F r N ∧
      ∀ s, res.2 = some s → res.1.slot r addr = some s := by
  have hp₂ := tablePath_addr hU
  have hp₁ : TablePath U [getGptx addr] := TablePath.prefix (q := [getMptx addr]) hp₂
  refine (ensureTable_sat h hr (p := []) (x := getGptx addr) hp₁ rfl b).bind ?_
  rintro ⟨m₁, _ | _⟩ ⟨N₁, hg₁, hok₁⟩
  · exact ⟨N₁, hg₁, by simp⟩
  obtain ⟨f₁, hf₁⟩ := hok₁ rfl
  obtain ⟨hw₁, hva₁⟩ := upper_table hg₁.tables hr hU hf₁
  simp only [not_true_eq_false, if_false]
  rw [hva₁, ok_bind]
  refine (ensureTable_sat hg₁.tables hr (p := [getGptx addr]) hp₂ hw₁ b).bind ?_
  rintro ⟨m₂, _ | _⟩ ⟨N₂, hg₂, hok₂⟩
  · exact ⟨N₁ ∪ N₂, hg₁.trans hg₂, by simp⟩
  obtain ⟨f₂, hf₂⟩ := hok₂ rfl
  obtain ⟨hw₂, hva₂⟩ := lower_table hg₂.tables hr hU (hg₂.walk_mono r hr _ f₁ hp₁ hw₁) hf₂
  simp only [not_true_eq_false, if_false]
  rw [hva₂, ok_bind]
  refine ⟨N₁ ∪ N₂, hg₁.trans hg₂, ?_⟩
  rintro s hs
  obtain rfl := Option.some.inj hs
  rw [slot, hw₂]
  rfl

/-- `get_pte` finds the leaf entry of the address if its table exists. -/
theorem getPte_of_slot (h : Tables m R U D F) (hr : r ∈ R) {addr : ℕ} (hU : getGptx addr ∈ U)
    {s : PtePtr} (hs : m.slot r addr = some s) (b : Bool) :
    m.getPte r addr b = .ok (m, some s) := by
  have hstep : ∀ f i g, m.child f i = some g → m.ensureTable (f, i) b = .ok (m, true) := by
    intro f i g hg
    have hv : isValid (m.load (f, i)) := by
      by_contra hv
      rw [child_of_invalid hv] at hg
      cases hg
    rw [ensureTable, if_pos hv]
  unfold slot at hs
  obtain ⟨f₂, hw₂, rfl⟩ := Option.map_eq_some_iff.1 hs
  obtain ⟨f₁, hf₁, hw₁⟩ := Option.bind_eq_some_iff.1 hw₂
  obtain ⟨g, hf₂, hg⟩ := Option.bind_eq_some_iff.1 hw₁
  obtain rfl := Option.some.inj hg
  obtain ⟨hw₁, hva₁⟩ := upper_table h hr hU hf₁
  obtain ⟨-, hva₂⟩ := lower_table h hr hU hw₁ hf₂
  unfold getPte
  rw [hstep _ _ _ hf₁, ok_bind]
  simp only [not_true_eq_false, if_false]
  rw [hva₁, ok_bind, hstep _ _ _ hf₂, ok_bind]
  simp only [not_true_eq_false, if_false]
  rw [hva₂]
  rfl

/-- **`get_pte`** without creation changes nothing. -/
theorem getPte_false (h : Tables m R U D F) (hr : r ∈ R) {addr : ℕ} (hU : getGptx addr ∈ U) :
    m.getPte r addr false = .ok (m, m.slot r addr) := by
  have hstep : ∀ f i, m.ensureTable (f, i) false = .ok (m, (m.child f i).isSome) := by
    intro f i
    unfold ensureTable child load
    split_ifs <;> simp_all
  unfold getPte slot
  rw [hstep, ok_bind]
  cases hf₁ : m.child r (getGptx addr) with
  | none => simp [walk, hf₁, pure, Except.pure]
  | some f₁ =>
    obtain ⟨hw₁, hva₁⟩ := upper_table h hr hU hf₁
    simp only [Option.isSome_some, not_true_eq_false, if_false]
    rw [hva₁, ok_bind, hstep, ok_bind]
    cases hf₂ : m.child f₁ (getMptx addr) with
    | none => simp [walk, hf₁, hf₂, pure, Except.pure]
    | some f₂ =>
      obtain ⟨hw₂, hva₂⟩ := lower_table h hr hU hw₁ hf₂
      simp only [Option.isSome_some, not_true_eq_false, if_false]
      rw [hva₂, hw₂]
      rfl

end

end Mm

end GarretOS
