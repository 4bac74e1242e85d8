import GarretOS.Mm.Mapping

/-!
# Operations on consistent page tables

`Consistent m R U D F` : the page tables with the roots `R` are in order (`Tables`), every data
page counts its mappings, and free pages have no references.  Each operation of `pmm.c` keeps this
and has an effect on the leaf entries that is described by at most one changed entry (`Effect`):

* `getPte_effect`, `allocPage_effect` : no entry changes;
* `addPage_effect` : an entry is written, or the call fails with `-E_NO_MEM`;
* `delPage_effect` : an entry is cleared;
* `allocPageGpte_effect` : a fresh page is mapped, or the call returns `NULL`.

`Touched` says more closely what `get_pte`, `add_page` and `del_page` do to memory: tables are
created, and then one leaf entry may be written.
-/

namespace GarretOS

open Radix

/-- The entries of a root table for the user part of the address space. -/
def userEntries : Set ℕ := {i | i < 2}

/-- `addr` is in `[USER_BEGIN, USER_END)`. -/
def UserAddr (addr : ℕ) : Prop := userBegin ≤ addr ∧ addr < userEnd

theorem UserAddr.index {addr : ℕ} (h : UserAddr addr) : getGptx addr ∈ userEntries :=
  getGptx_user h.2

theorem indices_user {a b : ℕ} (ha : a < userEnd) (hb : b < userEnd) :
    indices b = indices a ↔ b / pageSize = a / pageSize := by
  simp only [userEnd] at ha hb
  rw [pageSize_eq]
  exact indices_eq_iff (by omega) (by omega)

namespace Mm

/-- The page tables are in order, the counters are right, and free pages have no references. -/
structure Consistent (m : Mm) (R U D F : Set ℕ) : Prop where
  tables : Tables m R U D F
  refs : RefOk m R U D
  unused : ∀ p ∈ F, m.ref p = 0

/-- Tables are created from the free pages, and then the leaf entry for the address may get a
new value. -/
def Touched (m m' : Mm) (R U D F : Set ℕ) (r addr : ℕ) (w : Option ℕ) (D' F' : Set ℕ) : Prop :=
  ∃ m₁ N, Grown m m₁ R U D F r N ∧ match w with
    | none => m' = m₁ ∧ D' = D ∧ F' = F \ N
    | some v => ∃ s, m₁.slot r addr = some s ∧ Rewritten m₁ m' (F \ N) s v ∧
        D' = D \ m₁.dropped s v ∧ F' = F \ N ∪ m₁.dropped s v

variable {m m' : Mm} {R U D F D' F' : Set ℕ} {r addr page : ℕ} {w : Option ℕ} {s : PtePtr}

/-! ### Looking up -/

/-- The page and the permissions that the page table holds for the address, as `get_page` finds
them. -/
def lookup (m : Mm) (pGpt addr : ℕ) : Res (Option (ℕ × ℕ)) := do
  match ← m.getPage pGpt addr with
  | (some p, some page) => return some (page, pteFlags (m.load p))
  | _ => return none

/-- **Looking up** an address finds its leaf entry. -/
theorem lookup_eq (h : Tables m R U D F) (hr : r ∈ R) (hU : getGptx addr ∈ U) :
    m.lookup r addr = .ok ((m.entry r addr).map fun pte => (pte2ppn pte, pteFlags pte)) := by
  rw [lookup, getPage, getPte_false h hr hU, ok_bind, entry]
  cases m.slot r addr with
  | none => rfl
  | some s =>
    by_cases hv : isValid (m.load s)
    · simp only [hv, if_true, Option.bind_some, Option.map_some, pte2page, assert_of, ok_bind]
      rfl
    · simp only [hv, Option.bind_some]
      rfl

theorem lookup_eq_none_iff (h : Tables m R U D F) (hr : r ∈ R) (hU : getGptx addr ∈ U) :
    m.lookup r addr = .ok none ↔ m.entry r addr = none := by
  rw [lookup_eq h hr hU, Except.ok.injEq, Option.map_eq_none_iff]

/-- The page of a leaf entry is a data page. -/
theorem entry_mem (h : Tables m R U D F) (hr : r ∈ R) (hU : getGptx addr ∈ U) {pte : ℕ}
    (he : m.entry r addr = some pte) : pte2ppn pte ∈ D := by
  cases hs : m.slot r addr with
  | none => simp [entry, hs] at he
  | some s =>
    rw [entry_of_slot hs] at he
    obtain ⟨hl, hk⟩ := slot_leaf hr hU hs
    split_ifs at he with hv
    obtain rfl := Option.some.inj he
    exact h.mapped _ s ⟨hl, hk, child_of_valid hv⟩

/-- The page of a leaf entry with content. -/
theorem entry_eq_some_iff (hs : m.slot r addr = some s) {pte : ℕ} :
    m.entry r addr = some pte ↔ isValid (m.load s) ∧ m.load s = pte := by
  rw [entry_of_slot hs]
  split_ifs with hv
  · simp [hv]
  · simp [hv]

/-! ### What the operations keep -/

theorem Tables.alloc (h : Tables m R U D F) (ha : Allocated m m' F page) :
    Tables m' R U (insert page D) (F \ {page}) := by
  obtain ⟨h1, h2⟩ := h.free.mem_pool ha.mem_free
  have hchild := child_congr ha.mem
  refine ⟨ha.free, hchild ▸ h.separated, fun r hr p f hp hf => ?_, fun p hp => ?_,
    fun p s hs => Or.inr (h.mapped p s ?_)⟩
  · rw [hchild] at hf
    obtain ⟨h3, h4, h5⟩ := h.table r hr p f hp hf
    refine ⟨fun hm => h3 hm.1, ?_, h5⟩
    rintro (rfl | hD)
    · exact h3 ha.mem_free
    · exact h4 hD
  · rcases hp with rfl | hp
    · exact ⟨h1, h2, fun hm => hm.2 rfl⟩
    · obtain ⟨h3, h4, h5⟩ := h.data p hp
      exact ⟨h3, h4, fun hm => h5 hm.1⟩
  · simpa only [mappings, IsLeaf, hchild] using hs

theorem mappings_congr (h : m'.mem = m.mem) (p : ℕ) : m'.mappings R U p = m.mappings R U p := by
  simp only [mappings, IsLeaf, child_congr h]

theorem entry_congr (h : m'.mem = m.mem) (r addr : ℕ) : m'.entry r addr = m.entry r addr := by
  simp only [entry, slot, load, child_congr h, h]
  rfl

/-- Only data pages are mapped. -/
theorem mappings_eq_empty (h : Tables m R U D F) {p : ℕ} (hp : p ∉ D) : m.mappings R U p = ∅ :=
  Set.eq_empty_of_forall_notMem fun s hs => hp (h.mapped p s hs)

/-! ### Writing pages that are not tables -/

namespace Tables

section

variable (h : Tables m R U D F) (hmem : ∀ f, f ∉ F → f ∉ D → m'.mem f = m.mem f)

include h hmem

/-- Tables are neither free nor data pages, so they do not change when only those are written. -/
theorem walk_frame (hr : r ∈ R) {p : List ℕ} (hp : TablePath U p) :
    walk m'.child r p = walk m.child r p := by
  refine walk_congr fun q i f hq hf => ?_
  obtain ⟨t, rfl⟩ := hq
  rw [List.append_assoc] at hp
  obtain ⟨hfree, hdata, -⟩ := h.table r hr q f hp.prefix hf
  simp only [child, hmem f hfree hdata]

theorem mappings_frame (p : ℕ) : m'.mappings R U p = m.mappings R U p := by
  have hleaf : ∀ f, m'.IsLeaf R U f ↔ m.IsLeaf R U f := by
    intro f
    constructor
    · rintro ⟨r, hr, i, j, hp, hw⟩
      exact ⟨r, hr, i, j, hp, h.walk_frame hmem hr hp ▸ hw⟩
    · rintro ⟨r, hr, i, j, hp, hw⟩
      exact ⟨r, hr, i, j, hp, (h.walk_frame hmem hr hp).symm ▸ hw⟩
  ext ⟨f, k⟩
  simp only [mappings, Set.mem_ofPred_eq, hleaf]
  refine and_congr_right fun hl => ?_
  obtain ⟨hfree, hdata⟩ := h.leaf_notMem hl
  simp only [child, hmem f hfree hdata]

/-- Page tables stay in order. -/
theorem frame (hfree : FreeSet m'.pmm F) : Tables m' R U D F := by
  refine ⟨hfree, h.separated.of_walk fun r hr p f hp hf => by rwa [h.walk_frame hmem hr hp] at hf,
    fun r hr p f hp hf => h.table r hr p f hp (h.walk_frame hmem hr hp ▸ hf), h.data,
    fun p s hs => h.mapped p s ?_⟩
  rwa [h.mappings_frame hmem] at hs

/-- What is mapped stays the same. -/
theorem entry_frame (hr : r ∈ R) (hU : getGptx addr ∈ U) : m'.entry r addr = m.entry r addr := by
  have hslot : m'.slot r addr = m.slot r addr := by
    rw [slot, slot, h.walk_frame hmem hr (tablePath_addr hU)]
  rw [entry, entry, hslot]
  cases hs : m.slot r addr with
  | none => rfl
  | some s =>
    obtain ⟨hfree, hdata⟩ := h.leaf_notMem (slot_leaf hr hU hs).1
    rw [Option.bind_some, Option.bind_some, load, load, hmem _ hfree hdata]

theorem lookup_frame (hfree : FreeSet m'.pmm F) (hr : r ∈ R) (hU : getGptx addr ∈ U) :
    m'.lookup r addr = m.lookup r addr := by
  rw [lookup_eq (h.frame hmem hfree) hr hU, lookup_eq h hr hU, h.entry_frame hmem hr hU]

end

end Tables

namespace Consistent

theorem alloc (h : Consistent m R U D F) (ha : Allocated m m' F page) :
    Consistent m' R U (insert page D) (F \ {page}) := by
  refine ⟨h.tables.alloc ha, fun p hp => ?_, fun p hp => by rw [ha.ref, h.unused p hp.1]⟩
  rw [mappings_congr ha.mem, ha.ref]
  rcases hp with rfl | hp
  · rw [mappings_eq_empty h.tables fun hD => (h.tables.data p hD).2.2 ha.mem_free,
      h.unused p ha.mem_free, Set.ncard_empty]
  · exact h.refs p hp

/-- A page that is not mapped can be freed. -/
theorem free (h : Consistent m R U D F) (hD : page ∈ D) (hm : m.mappings R U page = ∅) :
    ∃ m', m.freePage page = .ok m' ∧ Consistent m' R U (D \ {page}) (insert page F) ∧
      m'.mem = m.mem := by
  obtain ⟨h1, h2, h3⟩ := h.tables.data page hD
  obtain ⟨m', h4, h5, h6, -, h8⟩ := freePage_eq h.tables.free h1 h2 h3
  have hchild := child_congr h6
  refine ⟨m', h4, ⟨⟨h5, hchild ▸ h.tables.separated, fun r hr p f hp hf => ?_, fun p hp => ?_,
    fun p s hs => ?_⟩, fun p hp => ?_, fun p hp => ?_⟩, h6⟩
  · rw [hchild] at hf
    obtain ⟨h7, h9, h10⟩ := h.tables.table r hr p f hp hf
    refine ⟨?_, fun hm => h9 hm.1, h10⟩
    rintro (rfl | hF)
    · exact h9 hD
    · exact h7 hF
  · obtain ⟨h7, h9, h10⟩ := h.tables.data p hp.1
    refine ⟨h7, h9, ?_⟩
    rintro (rfl | hF)
    · exact hp.2 rfl
    · exact h10 hF
  · rw [mappings_congr h6] at hs
    refine ⟨h.tables.mapped p s hs, ?_⟩
    rintro rfl
    rw [hm] at hs
    exact hs
  · rw [mappings_congr h6, h8, if_neg (show p ≠ page from hp.2)]
    exact h.refs p hp.1
  · rw [h8]
    split_ifs with hpp
    · rfl
    · exact h.unused p (hp.resolve_left hpp)

/-- Page tables stay in order when free pages are taken. -/
theorem shrink (h : Consistent m R U D F) (hmem : m'.mem = m.mem)
    (href : ∀ i, m'.ref i = m.ref i) (hfree : FreeSet m'.pmm F') (hsub : F' ⊆ F) :
    Consistent m' R U D F' := by
  have hchild := child_congr hmem
  refine ⟨⟨hfree, hchild ▸ h.tables.separated, fun r hr p f hp hf => ?_, fun p hp => ?_,
    fun p t ht => h.tables.mapped p t (mappings_congr hmem p ▸ ht)⟩, fun p hp => ?_,
    fun p hp => by rw [href, h.unused p (hsub hp)]⟩
  · rw [hchild] at hf
    obtain ⟨h1, h2, h3⟩ := h.tables.table r hr p f hp hf
    exact ⟨fun hF => h1 (hsub hF), h2, h3⟩
  · obtain ⟨h1, h2, h3⟩ := h.tables.data p hp
    exact ⟨h1, h2, fun hF => h3 (hsub hF)⟩
  · rw [mappings_congr hmem, href, h.refs p hp]

/-- Page tables stay in order when pages are freed that are neither mapped nor tables. -/
theorem widen {A : Set ℕ} (h : Consistent m R U D F) (hmem : m'.mem = m.mem)
    (hfree : FreeSet m'.pmm (F ∪ A)) (hA : ∀ p ∈ A, m.mappings R U p = ∅)
    (htab : ∀ r ∈ R, ∀ p f, TablePath U p → walk m.child r p = some f → f ∉ A)
    (href : ∀ i, (i ∈ A → m'.ref i = 0) ∧ (i ∉ A → m'.ref i = m.ref i)) :
    Consistent m' R U (D \ A) (F ∪ A) := by
  have hchild := child_congr hmem
  refine ⟨⟨hfree, hchild ▸ h.tables.separated, fun r hr p f hp hf => ?_, fun p hp => ?_,
    fun p t ht => ?_⟩, fun p hp => ?_, fun p hp => ?_⟩
  · rw [hchild] at hf
    obtain ⟨h1, h2, h3⟩ := h.tables.table r hr p f hp hf
    refine ⟨?_, fun hD => h2 hD.1, h3⟩
    rintro (hF | hfA)
    · exact h1 hF
    · exact htab r hr p f hp hf hfA
  · obtain ⟨h1, h2, h3⟩ := h.tables.data p hp.1
    refine ⟨h1, h2, ?_⟩
    rintro (hF | hpA)
    · exact h3 hF
    · exact hp.2 hpA
  · rw [mappings_congr hmem] at ht
    refine ⟨h.tables.mapped p t ht, fun hpA => ?_⟩
    rw [hA p hpA] at ht
    exact ht
  · rw [mappings_congr hmem, (href p).2 hp.2, h.refs p hp.1]
  · by_cases hpA : p ∈ A
    · exact (href p).1 hpA
    · rw [(href p).2 hpA, h.unused p (hp.resolve_right hpA)]

/-- A frame is taken for a record. -/
theorem take (h : Consistent m R U D F) (ha : Allocated m m' F page) :
    Consistent m' R U D (F \ {page}) :=
  h.shrink ha.mem ha.ref ha.free Set.sdiff_subset

section

variable (h : Consistent m R U D F) (hD : page ∈ D) (hmem : ∀ f, f ≠ page → m'.mem f = m.mem f)

include h hD hmem

/-- Tables do not change when a data page is written. -/
theorem walk_write (hr : r ∈ R) {p : List ℕ} (hp : TablePath U p) :
    walk m'.child r p = walk m.child r p :=
  h.tables.walk_frame (fun f _ hf => hmem f fun he => hf (he ▸ hD)) hr hp

/-- Entries do not change when a data page is written. -/
theorem entry_write (hr : r ∈ R) (hU : getGptx addr ∈ U) : m'.entry r addr = m.entry r addr :=
  h.tables.entry_frame (fun f _ hf => hmem f fun he => hf (he ▸ hD)) hr hU

/-- Data pages may be written. -/
theorem write (hpmm : m'.pmm = m.pmm) : Consistent m' R U D F := by
  have hdata : ∀ f, f ∉ F → f ∉ D → m'.mem f = m.mem f := fun f _ hf =>
    hmem f fun he => hf (he ▸ hD)
  have href : m'.ref = m.ref := by
    unfold ref
    rw [hpmm]
  refine ⟨h.tables.frame hdata (hpmm ▸ h.tables.free), fun p hp => ?_, fun p hp => ?_⟩
  · rw [h.tables.mappings_frame hdata, href, h.refs p hp]
  · rw [href, h.unused p hp]

end

theorem grown (h : Consistent m R U D F) {N : Set ℕ} (hg : Grown m m' R U D F r N) :
    Consistent m' R U D (F \ N) :=
  ⟨hg.tables, hg.refOk h.tables h.refs, fun p hp => by rw [hg.ref p hp.2, h.unused p hp.1]⟩

/-- What `add_page` and `del_page` do keeps everything in order. -/
theorem touched (h : Consistent m R U D F) (hr : r ∈ R) (hU : getGptx addr ∈ U)
    (ht : Touched m m' R U D F r addr w D' F')
    (hw : ∀ v ∈ w, ∀ q, target v = some q → q ∈ D) : Consistent m' R U D' F' := by
  obtain ⟨m₁, N, hg, ht⟩ := ht
  have h₁ := h.grown hg
  cases w with
  | none =>
    obtain ⟨rfl, rfl, rfl⟩ := ht
    exact h₁
  | some v =>
    obtain ⟨s, hs, hrw, rfl, rfl⟩ := ht
    obtain ⟨hl, hk⟩ := slot_leaf hr hU hs
    obtain ⟨h2, h3⟩ := hrw.keep h₁.tables h₁.refs hl hk (hw v rfl)
    refine ⟨h2, h3, fun p hp => ?_⟩
    have href := hrw.ref p
    rcases hp with hp | hp
    · rw [h₁.unused p hp] at href
      have hD : p ∉ D := fun hD => (h₁.tables.data p hD).2.2 hp
      rw [if_neg fun ht => hD (hw v rfl p ht)] at href
      omega
    · rw [if_pos hp.1, if_neg hp.2.1, hp.2.2] at href
      omega

end Consistent

namespace Touched

/-- Only the entry for the address changes. -/
theorem entry_eq (h : Consistent m R U D F) (hr : r ∈ R) (hU : getGptx addr ∈ U)
    (ht : Touched m m' R U D F r addr w D' F') {r' b : ℕ} (hr' : r' ∈ R) (hUb : getGptx b ∈ U) :
    m'.entry r' b = match w with
      | none => m.entry r' b
      | some v => if r' = r ∧ indices b = indices addr then (if isValid v then some v else none)
          else m.entry r' b := by
  obtain ⟨m₁, N, hg, ht⟩ := ht
  cases w with
  | none =>
    obtain ⟨rfl, -, -⟩ := ht
    exact hg.entry_eq h.tables hr' hUb
  | some v =>
    obtain ⟨s, hs, hrw, -, -⟩ := ht
    simp only
    rw [hrw.entry_eq (h.grown hg).tables hr hU hs hr' hUb, hg.entry_eq h.tables hr' hUb]

/-- The kernel entries of the root tables do not change. -/
theorem root_eq (h : Consistent m R U D F) (hr : r ∈ R) (hU : getGptx addr ∈ U)
    (ht : Touched m m' R U D F r addr w D' F') {r' i : ℕ} (hr' : r' ∈ R) (hi : i ∉ U) :
    m'.mem r' i = m.mem r' i := by
  obtain ⟨m₁, N, hg, ht⟩ := ht
  have hroot := hg.kernel r' hr' i hi
  cases w with
  | none =>
    obtain ⟨rfl, -, -⟩ := ht
    exact hroot
  | some v =>
    obtain ⟨s, hs, hrw, -, -⟩ := ht
    have hl := (slot_leaf hr hU hs).1
    rw [hrw.mem, store_mem, if_neg, hroot]
    rintro ⟨rfl, -⟩
    exact (h.grown hg).tables.leaf_ne hl s.1 hr' [] tablePath_nil (by simp) rfl

/-- Exactly the pages that lose their last mapping are freed. -/
theorem freed_iff (h : Consistent m R U D F) (hr : r ∈ R) (hU : getGptx addr ∈ U)
    (ht : Touched m m' R U D F r addr w D' F') (p : ℕ) :
    (p ∈ F' ∧ p ∉ F) ↔ (m.mappings R U p).Nonempty ∧ m'.mappings R U p = ∅ := by
  obtain ⟨m₁, N, hg, ht⟩ := ht
  have h₁ := h.grown hg
  rw [← hg.mappings_eq h.tables]
  cases w with
  | none =>
    obtain ⟨rfl, -, rfl⟩ := ht
    constructor
    · rintro ⟨h1, h2⟩
      exact absurd h1.1 h2
    · rintro ⟨h1, h2⟩
      rw [h2] at h1
      exact absurd h1 Set.not_nonempty_empty
  | some v =>
    obtain ⟨s, hs, hrw, -, rfl⟩ := ht
    obtain ⟨hl, hk⟩ := slot_leaf hr hU hs
    rw [← hrw.mem_dropped_iff h₁.tables h₁.refs hl hk]
    constructor
    · rintro ⟨hF | hd, h2⟩
      · exact absurd hF.1 h2
      · exact hd
    · intro hd
      exact ⟨Or.inr hd, (h.tables.data p (Rewritten.dropped_subset h₁.tables hl hk hd)).2.2⟩

/-- Pages that are still in use are neither created tables nor freed. -/
theorem held_eq (h : Consistent m R U D F) (ht : Touched m m' R U D F r addr w D' F') :
    D' = D \ F' := by
  obtain ⟨m₁, N, hg, ht⟩ := ht
  have hdisj : ∀ p ∈ D, p ∉ F \ N := fun p hp hF => (h.tables.data p hp).2.2 hF.1
  cases w with
  | none =>
    obtain ⟨rfl, rfl, rfl⟩ := ht
    ext p
    exact ⟨fun hp => ⟨hp, hdisj p hp⟩, fun hp => hp.1⟩
  | some v =>
    obtain ⟨s, hs, hrw, rfl, rfl⟩ := ht
    ext p
    simp only [Set.mem_sdiff, Set.mem_union, not_or]
    exact ⟨fun hp => ⟨hp.1, hdisj p hp.1, hp.2⟩, fun hp => ⟨hp.1, hp.2.2⟩⟩

/-- Only tables of the page table are written. -/
theorem mem_eq (hr : r ∈ R) (hU : getGptx addr ∈ U)
    (ht : Touched m m' R U D F r addr w D' F') {f : ℕ} (hf : f ∉ F)
    (hne : ∀ p, TablePath U p → walk m.child r p ≠ some f) : m'.mem f = m.mem f := by
  obtain ⟨m₁, N, hg, ht⟩ := ht
  have hmem := hg.mem f hf fun p hp _ => hne p hp
  cases w with
  | none =>
    obtain ⟨rfl, -, -⟩ := ht
    exact hmem
  | some v =>
    obtain ⟨s, hs, hrw, -, -⟩ := ht
    have hsf : f ≠ s.1 := by
      rintro rfl
      unfold slot at hs
      obtain ⟨g, hg', rfl⟩ := Option.map_eq_some_iff.1 hs
      rcases hg.walk_new r hr _ g (tablePath_addr hU) hg' with hw | hN
      · exact hne _ (tablePath_addr hU) hw
      · exact hf (hg.sub hN)
    rw [hrw.mem]
    funext i
    rw [store_mem, if_neg (fun hc => hsf hc.1), hmem]

/-- Data pages are not written. -/
theorem mem_data (h : Consistent m R U D F) (hr : r ∈ R) (hU : getGptx addr ∈ U)
    (ht : Touched m m' R U D F r addr w D' F') {p : ℕ} (hp : p ∈ D) : m'.mem p = m.mem p :=
  ht.mem_eq hr hU (h.tables.data p hp).2.2 fun q hq hw => (h.tables.table r hr q p hq hw).2.1 hp

theorem walk_eq (h : Consistent m R U D F) (hr : r ∈ R) (hU : getGptx addr ∈ U)
    (ht : Touched m m' R U D F r addr w D' F') : ∃ m₁ N, Grown m m₁ R U D F r N ∧
      F' ∩ N = ∅ ∧ ∀ r' ∈ R, ∀ p, TablePath U p → walk m'.child r' p = walk m₁.child r' p := by
  obtain ⟨m₁, N, hg, ht⟩ := ht
  have h₁ := h.grown hg
  refine ⟨m₁, N, hg, ?_, fun r' hr' p hp => ?_⟩
  · cases w with
    | none =>
      obtain ⟨-, -, rfl⟩ := ht
      exact Set.sdiff_inter_self
    | some v =>
      obtain ⟨s, hs, hrw, -, rfl⟩ := ht
      obtain ⟨hl, hk⟩ := slot_leaf hr hU hs
      refine Set.eq_empty_of_forall_notMem ?_
      rintro p ⟨hp | hp, hN⟩
      · exact hp.2 hN
      · exact (h.tables.data p (Rewritten.dropped_subset h₁.tables hl hk hp)).2.2 (hg.sub hN)
  · cases w with
    | none =>
      obtain ⟨rfl, -, -⟩ := ht
      rfl
    | some v =>
      obtain ⟨s, hs, hrw, -, -⟩ := ht
      rw [child_congr hrw.mem, walk_store h₁.tables (slot_leaf hr hU hs).1 hr' hp]

/-- The other page tables keep their tables. -/
theorem walk_other (h : Consistent m R U D F) (hr : r ∈ R) (hU : getGptx addr ∈ U)
    (ht : Touched m m' R U D F r addr w D' F') {r' : ℕ} (hr' : r' ∈ R) (hne : r' ≠ r)
    {p : List ℕ} (hp : TablePath U p) : walk m'.child r' p = walk m.child r' p := by
  obtain ⟨m₁, N, hg, -, hwalk⟩ := ht.walk_eq h hr hU
  rw [hwalk r' hr' p hp, hg.other r' hr' hne p hp]

/-- New tables were free. -/
theorem walk_new (h : Consistent m R U D F) (hr : r ∈ R) (hU : getGptx addr ∈ U)
    (ht : Touched m m' R U D F r addr w D' F') {p : List ℕ} (hp : TablePath U p) {f : ℕ}
    (hf : walk m'.child r p = some f) : walk m.child r p = some f ∨ f ∈ F := by
  obtain ⟨m₁, N, hg, -, hwalk⟩ := ht.walk_eq h hr hU
  rw [hwalk r hr p hp] at hf
  exact (hg.walk_new r hr p f hp hf).imp_right fun hN => hg.sub hN

/-- No page is freed when the address was not mapped. -/
theorem of_none (h : Consistent m R U D F) (hr : r ∈ R) (hU : getGptx addr ∈ U)
    (ht : Touched m m' R U D F r addr w D' F') (he : m.entry r addr = none) :
    D' = D ∧ F' ⊆ F := by
  obtain ⟨m₁, N, hg, ht⟩ := ht
  cases w with
  | none =>
    obtain ⟨-, rfl, rfl⟩ := ht
    exact ⟨rfl, Set.sdiff_subset⟩
  | some v =>
    obtain ⟨s, hs, hrw, rfl, rfl⟩ := ht
    have hd : m₁.dropped s v = ∅ := by
      refine Set.eq_empty_of_forall_notMem fun q hq => ?_
      rw [← hg.entry_eq h.tables hr hU, entry_of_slot hs] at he
      have hinv : ¬ isValid (m₁.load s) := fun hv => by simp [hv] at he
      have hq := hq.1
      rw [child_eq_target, target, if_neg hinv] at hq
      cases hq
    rw [hd, Set.sdiff_empty, Set.union_empty]
    exact ⟨rfl, Set.sdiff_subset⟩

end Touched

/-! ### The effect of an operation -/

/-- The leaf entries after the change `c`: the root, the address and the new value of the entry
that is written, if one is. -/
def written (c : Option (ℕ × ℕ × ℕ)) (e : ℕ → ℕ → Option ℕ) (r b : ℕ) : Option ℕ :=
  match c with
  | none => e r b
  | some (r₀, a, v) =>
    if r = r₀ ∧ indices b = indices a then (if isValid v then some v else none) else e r b

/-- What an operation that makes the change `c` does to the leaf entries and to the free pages. -/
structure Effect (m m' : Mm) (R U F : Set ℕ) (c : Option (ℕ × ℕ × ℕ)) (D' F' : Set ℕ) :
    Prop where
  consistent : Consistent m' R U D' F'
  entry : ∀ r ∈ R, ∀ b, getGptx b ∈ U → m'.entry r b = written c m.entry r b
  root : ∀ r ∈ R, ∀ i, i ∉ U → m'.mem r i = m.mem r i
  freed : ∀ p, (p ∈ F' ∧ p ∉ F) ↔ (m.mappings R U p).Nonempty ∧ m'.mappings R U p = ∅

theorem Touched.effect (h : Consistent m R U D F) (hr : r ∈ R) (hU : getGptx addr ∈ U)
    (ht : Touched m m' R U D F r addr w D' F') (hw : ∀ v ∈ w, ∀ q, target v = some q → q ∈ D) :
    Effect m m' R U F (w.map fun v => (r, addr, v)) D' F' := by
  refine ⟨h.touched hr hU ht hw, fun r' hr' b hb => ?_, fun r' hr' i hi => ht.root_eq h hr hU hr' hi,
    ht.freed_iff h hr hU⟩
  rw [ht.entry_eq h hr hU hr' hb]
  cases w <;> rfl

/-- Nothing happens when the memory stays as it is and no page is freed. -/
theorem effect_of_mem (h : Consistent m' R U D' F') (hmem : m'.mem = m.mem) (hF : F' ⊆ F) :
    Effect m m' R U F none D' F' := by
  refine ⟨h, fun r hr b hb => entry_congr hmem r b, fun r hr i hi => by rw [hmem], fun p => ?_⟩
  rw [mappings_congr hmem]
  constructor
  · rintro ⟨h1, h2⟩
    exact absurd (hF h1) h2
  · rintro ⟨h1, h2⟩
    rw [h2] at h1
    exact absurd h1 Set.not_nonempty_empty

/-- A page is allocated before the operation. -/
theorem Effect.of_alloc {m₁ : Mm} {c : Option (ℕ × ℕ × ℕ)}
    (ha : Allocated m m₁ F page)
    (he : Effect m₁ m' R U (F \ {page}) c D' F') (hp : page ∉ F') :
    Effect m m' R U F c D' F' := by
  refine ⟨he.consistent, fun r hr b hb => ?_, fun r hr i hi => ?_, fun p => ?_⟩
  · rw [he.entry r hr b hb, show m₁.entry = m.entry from
      funext fun r => funext fun b => entry_congr ha.mem r b]
  · rw [he.root r hr i hi, ha.mem]
  · rw [← mappings_congr ha.mem, ← he.freed]
    constructor
    · rintro ⟨h1, h2⟩
      exact ⟨h1, fun hm => h2 hm.1⟩
    · rintro ⟨h1, h2⟩
      exact ⟨h1, fun hm => h2 ⟨hm, fun hpp => hp (hpp ▸ h1)⟩⟩

/-- `add_page` creates tables and then writes the entry, or fails. -/
theorem addPage_touched (h : Consistent m R U D F) (hr : r ∈ R) (hU : getGptx addr ∈ U)
    {flags : ℕ} (hpage : page ∈ D) (hf : flags < 1024) :
    Sat (m.addPage r page addr flags) fun res => ∃ w D' F', Touched m res.1 R U D F r addr w D' F' ∧
      (w = none ∧ res.2 = -eNoMem ∨ w = some (ppn2pte page (pteV ||| flags)) ∧ res.2 = 0) := by
  refine (addPage_sat h.tables h.refs hr hU hpage hf).mono ?_
  rintro ⟨m', ret⟩ ⟨N, m₁, hg, hres | ⟨hret, s, hs, hrw⟩⟩
  · obtain ⟨rfl, rfl⟩ := Prod.mk.inj hres
    exact ⟨none, D, F \ N, ⟨m', N, hg, rfl, rfl, rfl⟩, Or.inl ⟨rfl, rfl⟩⟩
  · exact ⟨some (ppn2pte page (pteV ||| flags)), _, _, ⟨m₁, N, hg, s, hs, hrw, rfl, rfl⟩,
      Or.inr ⟨rfl, hret⟩⟩

/-- The pages that `add_page` maps. -/
theorem target_of_mem (h : Consistent m R U D F) {flags : ℕ} (hpage : page ∈ D) (hf : flags < 1024) :
    target (ppn2pte page (pteV ||| flags)) = some page := by
  obtain ⟨-, hlt, -⟩ := h.tables.data page hpage
  rw [poolEnd_eq] at hlt
  exact target_ppn2pte (by omega) hf

/-- **`add_page`** has the effect of writing an entry, or fails and has none. -/
theorem addPage_effect (h : Consistent m R U D F) (hr : r ∈ R) (hU : getGptx addr ∈ U)
    {flags : ℕ} (hpage : page ∈ D) (hf : flags < 1024) :
    Sat (m.addPage r page addr flags) fun res => ∃ F', (res.2 = 0 ∨ res.2 = -eNoMem) ∧
      page ∉ F' ∧ (res.2 = -eNoMem → F' ⊆ F ∧ ∀ p, res.1.mappings R U p = m.mappings R U p) ∧
      Effect m res.1 R U F
        (if res.2 = 0 then some (r, addr, ppn2pte page (pteV ||| flags)) else none)
        (D \ F') F' := by
  have htarget := target_of_mem h hpage hf
  have hfree := (h.tables.data page hpage).2.2
  have hne : (0 : ℤ) ≠ -eNoMem := by decide
  refine (addPage_touched h hr hU hpage hf).mono ?_
  rintro ⟨m', ret⟩ ⟨w, D', F', ht, ⟨rfl, hret⟩ | ⟨rfl, hret⟩⟩
  · simp only at hret ht
    have hD := ht.held_eq h
    obtain ⟨m₁, N, hg, rfl, hDD, rfl⟩ := ht
    refine ⟨F \ N, Or.inr hret, fun hF => hfree hF.1,
      fun _ => ⟨Set.sdiff_subset, hg.mappings_eq h.tables⟩, ?_⟩
    rw [if_neg (by rw [hret]; exact Ne.symm hne), ← hD]
    exact Touched.effect (w := none) h hr hU ⟨m', N, hg, rfl, hDD, rfl⟩ (by simp)
  · simp only at hret ht
    have hD := ht.held_eq h
    refine ⟨F', Or.inl hret, fun hF => ?_, fun he => absurd (hret.symm.trans he) hne, ?_⟩
    · obtain ⟨m₁, N, -, s, -, -, -, rfl⟩ := ht
      rcases hF with hF | hd
      · exact hfree hF.1
      · exact hd.2.1 htarget
    · rw [if_pos hret, ← hD]
      refine ht.effect h hr hU ?_
      rintro v hv q hq
      obtain rfl := Option.some.inj hv
      obtain rfl := Option.some.inj (htarget.symm.trans hq)
      exact hpage

/-- Writing a leaf entry needs no new tables. -/
theorem Rewritten.touched {v : ℕ} (h : Tables m R U D F) (hr : r ∈ R)
    (hs : m.slot r addr = some s) (hrw : Rewritten m m' F s v) :
    Touched m m' R U D F r addr (some v) (D \ m.dropped s v) (F ∪ m.dropped s v) := by
  refine ⟨m, ∅, h.grown_refl hr, s, hs, ?_, rfl, ?_⟩
  · rwa [Set.sdiff_empty]
  · rw [Set.sdiff_empty]

/-- `del_page` does nothing, or clears a valid entry. -/
theorem delPage_cases (h : Consistent m R U D F) (hr : r ∈ R) (hU : getGptx addr ∈ U) :
    (m.entry r addr = none ∧ m.delPage r addr = .ok m) ∨
    ∃ s m', m.slot r addr = some s ∧ m.delPage r addr = .ok m' ∧ Rewritten m m' F s 0 := by
  cases he : m.entry r addr with
  | none => exact Or.inl ⟨rfl, delPage_of_none h.tables hr hU he⟩
  | some pte =>
    cases hs : m.slot r addr with
    | none => simp [entry, hs] at he
    | some s =>
      obtain ⟨hl, hk⟩ := slot_leaf hr hU hs
      have hv : isValid (m.load s) := ((entry_eq_some_iff hs).1 he).1
      have hq : m.child s.1 s.2 = some (pte2ppn (m.load s)) := child_of_valid hv
      have hmem : s ∈ m.mappings R U (pte2ppn (m.load s)) := ⟨hl, hk, hq⟩
      have href := h.refs _ (h.tables.mapped _ s hmem)
      have hpos := (Set.ncard_pos (mappings_finite h.tables _)).2 ⟨s, hmem⟩
      have hlt := mappings_ncard_lt h.tables (pte2ppn (m.load s))
      obtain ⟨m', h1, h2⟩ := delPage_of_some h.tables hr hU hs hq (by omega) (by omega)
      exact Or.inr ⟨s, m', rfl, h1, h2⟩

/-- **`del_page`** never fails, and has the effect of clearing an entry. -/
theorem delPage_effect (h : Consistent m R U D F) (hr : r ∈ R) (hU : getGptx addr ∈ U) :
    ∃ m' F', m.delPage r addr = .ok m' ∧
      Effect m m' R U F (some (r, addr, 0)) (D \ F') F' := by
  rcases delPage_cases h hr hU with ⟨he, hdel⟩ | ⟨s, m', hs, hdel, hrw⟩
  · refine ⟨m, F, hdel, ?_⟩
    have hDF : D \ F = D := by
      ext p
      exact ⟨fun hp => hp.1, fun hp => ⟨hp, (h.tables.data p hp).2.2⟩⟩
    rw [hDF]
    have hnone := effect_of_mem (m := m) h rfl (subset_refl F)
    refine ⟨hnone.consistent, fun r' hr' b hb => ?_, hnone.root, hnone.freed⟩
    simp only [written, isValid_zero, Bool.false_eq_true, if_false]
    split_ifs with hc
    · obtain ⟨rfl, hi⟩ := hc
      rw [entry, slot_congr_indices hi]
      exact he
    · rfl
  · have ht := hrw.touched h.tables hr hs
    have hD := ht.held_eq h
    refine ⟨m', F ∪ m.dropped s 0, hdel, ?_⟩
    rw [← hD]
    refine ht.effect h hr hU ?_
    rintro v hv q hq
    obtain rfl := Option.some.inj hv
    cases hq

/-- **`get_pte`** has no effect on the leaf entries. -/
theorem getPte_effect (h : Consistent m R U D F) (hr : r ∈ R) (hU : getGptx addr ∈ U) (b : Bool) :
    Sat (m.getPte r addr b) fun res => ∃ F', Effect m res.1 R U F none D F' := by
  refine (getPte_sat h.tables hr hU b).mono ?_
  rintro ⟨m', p⟩ ⟨N, hg, -⟩
  have ht : Touched m m' R U D F r addr none D (F \ N) := ⟨m', N, hg, rfl, rfl, rfl⟩
  exact ⟨_, ht.effect h hr hU (by simp)⟩

/-- **`alloc_page`** has no effect on the leaf entries. -/
theorem allocPage_effect (h : Consistent m R U D F) :
    Sat m.allocPage fun res => ∃ F', Effect m res.1 R U F none (D ∪ {p | res.2 = some p}) F' := by
  refine (allocPage_sat h.tables.free).mono ?_
  rintro ⟨m', _ | page⟩ ha
  · obtain rfl : m' = m := ha
    refine ⟨F, ?_⟩
    simp only [reduceCtorEq, Set.ofPred_false, Set.union_empty]
    exact effect_of_mem h rfl (subset_refl F)
  · have ha : Allocated m m' F page := ha
    refine ⟨F \ {page}, ?_⟩
    have hD : D ∪ {p | some page = some p} = insert page D := by
      ext p
      simp [eq_comm]
    rw [hD]
    exact effect_of_mem (h.alloc ha) ha.mem Set.sdiff_subset

/-- **`alloc_page_gpte`** has the effect of writing an entry, or returns `NULL` and has none. -/
theorem allocPageGpte_effect (h : Consistent m R U D F) (hr : r ∈ R) (hU : getGptx addr ∈ U)
    {flags : ℕ} (hf : flags < 1024) :
    Sat (m.allocPageGpte r addr flags) fun res => (∀ page ∈ res.2, page < poolEnd) ∧
      ∃ F', Effect m res.1 R U F
        (res.2.map fun page => (r, addr, ppn2pte page (pteV ||| flags)))
        ((D ∪ {p | res.2 = some p}) \ F') F' := by
  have hsdiff : ∀ {m' : Mm} {F' : Set ℕ}, Consistent m' R U D F' → D \ F' = D := by
    intro m' F' hc
    ext p
    exact ⟨fun hp => hp.1, fun hp => ⟨hp, (hc.tables.data p hp).2.2⟩⟩
  refine (allocPage_sat h.tables.free).bind ?_
  rintro ⟨m₁, _ | page⟩ ha
  · obtain rfl : m₁ = m := ha
    refine ⟨by simp, F, ?_⟩
    simp only [reduceCtorEq, Set.ofPred_false, Set.union_empty, hsdiff h, Option.map_none]
    exact effect_of_mem h rfl (subset_refl F)
  · have ha : Allocated m m₁ F page := ha
    have h₁ := h.alloc ha
    have hD : D ∪ {p | some page = some p} = insert page D := by
      ext p
      simp [eq_comm]
    refine (addPage_effect h₁ hr hU (Set.mem_insert page D) hf).bind ?_
    rintro ⟨m₂, ret⟩ ⟨F₂, hret, hp₂, hfail, he⟩
    simp only at hret hfail he
    by_cases hret0 : ret = 0
    · subst hret0
      simp only [ne_eq, not_true_eq_false, if_false]
      refine ⟨fun p hp => Option.some.inj hp ▸ (h.tables.free.mem_pool ha.mem_free).2, F₂, ?_⟩
      simp only [if_true] at he
      rw [hD]
      exact he.of_alloc ha hp₂
    · -- `add_page` has failed: the page is not mapped and goes back
      have hret : ret = -eNoMem := hret.resolve_left hret0
      obtain ⟨hsub, hmap⟩ := hfail hret
      simp only [ne_eq, hret0, not_false_eq_true, if_true]
      rw [if_neg hret0] at he
      have hnD : page ∉ D := fun hD => (h.tables.data page hD).2.2 ha.mem_free
      have hpD : page ∈ insert page D \ F₂ := ⟨Set.mem_insert page D, hp₂⟩
      have hmap₂ : m₂.mappings R U page = ∅ := by
        rw [hmap, mappings_congr ha.mem, mappings_eq_empty h.tables hnD]
      obtain ⟨m₃, h4, h5, h6⟩ := he.consistent.free hpD hmap₂
      rw [h4, ok_bind]
      have hD₃ : (insert page D \ F₂) \ {page} = D := by
        ext p
        simp only [Set.mem_sdiff, Set.mem_insert_iff, Set.mem_singleton_iff]
        constructor
        · rintro ⟨⟨hp | hp, -⟩, hne⟩
          · exact absurd hp hne
          · exact hp
        · intro hp
          refine ⟨⟨Or.inr hp, fun hF => (h.tables.data p hp).2.2 (hsub hF).1⟩, ?_⟩
          rintro rfl
          exact hnD hp
      rw [hD₃] at h5
      refine ⟨by simp, insert page F₂, ?_⟩
      simp only [reduceCtorEq, Set.ofPred_false, Set.union_empty, hsdiff h5, Option.map_none]
      refine ⟨h5, fun r hr b hb => ?_, fun r hr i hi => ?_, fun p => ?_⟩
      · rw [entry_congr h6, he.entry r hr b hb]
        exact entry_congr ha.mem r b
      · rw [h6, he.root r hr i hi, ha.mem]
      · rw [mappings_congr h6, hmap, mappings_congr ha.mem]
        constructor
        · rintro ⟨hp | hp, hF⟩
          · exact absurd (hp ▸ ha.mem_free) hF
          · exact absurd (hsub hp).1 hF
        · rintro ⟨h7, h8⟩
          rw [h8] at h7
          exact absurd h7 Set.not_nonempty_empty

end Mm

end GarretOS
