import GarretOS.Mm.PageTable
import Mathlib.Order.Interval.Finset.Nat

/-!
# Mapping pages

`add_page` and `del_page` write one leaf entry, and change the reference counters and the
allocator accordingly: `Rewritten m m' F s v` says that the entry `s` got the value `v`.

* `ncard_store` : a write to a leaf entry moves one mapping from the page that the old value maps
  to the page that the new value maps;
* `Rewritten.keep` : the page tables stay separated, and every data page counts its mappings;
* `Rewritten.entry_eq` : only the entry for the address changes;
* `delPage_of_none`, `delPage_of_some` : what `del_page` does;
* `addPage_sat` : what `add_page` does.
-/

namespace GarretOS

open Radix

namespace Mm

/-- The page that a leaf entry with this content maps. -/
def target (pte : ℕ) : Option ℕ := if isValid pte then some (pte2ppn pte) else none

/-- Each data page counts the leaf entries that map it. -/
def RefOk (m : Mm) (R U D : Set ℕ) : Prop := ∀ p ∈ D, m.ref p = (m.mappings R U p).ncard

/-- The page that loses its last reference when the leaf entry `s` gets the value `v`. -/
def dropped (m : Mm) (s : PtePtr) (v : ℕ) : Set ℕ :=
  {q | m.child s.1 s.2 = some q ∧ target v ≠ some q ∧ m.ref q = 1}

/-- The leaf entry `s` gets the value `v`; the counters follow, and a page that loses its last
reference is freed. -/
structure Rewritten (m m' : Mm) (F : Set ℕ) (s : PtePtr) (v : ℕ) : Prop where
  mem : m'.mem = (m.store s v).mem
  free : FreeSet m'.pmm (F ∪ m.dropped s v)
  ref : ∀ p, m'.ref p + (if m.child s.1 s.2 = some p then 1 else 0) =
    m.ref p + (if target v = some p then 1 else 0)
  swapInit : m'.swapInit = m.swapInit

variable {m m' : Mm} {R U D F N : Set ℕ} {r addr v : ℕ} {s : PtePtr}

theorem child_eq_target (m : Mm) (s : PtePtr) : m.child s.1 s.2 = target (m.load s) := rfl

theorem target_ppn2pte {page flags : ℕ} (hp : page < 2 ^ 54) (hf : flags < 1024) :
    target (ppn2pte page (pteV ||| flags)) = some page := by
  have hv := pteV_or hf
  rw [target, if_pos ((isValid_ppn2pte hp hv.1).2 hv.2), pte2ppn_ppn2pte hp hv.1]

/-! ### Writing a leaf entry -/

theorem walk_store (h : Tables m R U D F) (hl : m.IsLeaf R U s.1) {r' : ℕ} (hr' : r' ∈ R)
    {q : List ℕ} (hq : TablePath U q) : walk (m.store s v).child r' q = walk m.child r' q := by
  obtain ⟨r, hr, i, j, hp, hw⟩ := hl
  rw [show m.store s v = m.store (s.1, s.2) v from rfl, child_store]
  refine walk_leaf h.separated hr hp hw (fun hend => ?_) hr' hq
  have := hend.1
  simp at this

theorem isLeaf_store (h : Tables m R U D F) (hl : m.IsLeaf R U s.1) (f : ℕ) :
    (m.store s v).IsLeaf R U f ↔ m.IsLeaf R U f := by
  constructor
  · rintro ⟨r, hr, i, j, hp, hw⟩
    exact ⟨r, hr, i, j, hp, by rwa [walk_store h hl hr hp] at hw⟩
  · rintro ⟨r, hr, i, j, hp, hw⟩
    exact ⟨r, hr, i, j, hp, by rwa [walk_store h hl hr hp]⟩

theorem load_store (m : Mm) (s t : PtePtr) (v : ℕ) :
    (m.store s v).load t = if t = s then v else m.load t := by
  simp only [load, store_mem, Prod.ext_iff]

/-- The mappings of a page after a write to a leaf entry. -/
theorem mappings_store (h : Tables m R U D F) (hl : m.IsLeaf R U s.1) (hk : s.2 < 512) (q : ℕ) :
    (m.store s v).mappings R U q =
      if target v = some q then insert s (m.mappings R U q) else m.mappings R U q \ {s} := by
  have hiff : ∀ t, t ∈ (m.store s v).mappings R U q ↔
      m.IsLeaf R U t.1 ∧ t.2 < 512 ∧ target (if t = s then v else m.load t) = some q := by
    intro t
    simp only [mappings, Set.mem_ofPred_eq, isLeaf_store h hl, child_eq_target, load_store]
  ext t
  rw [hiff]
  by_cases hts : t = s
  · subst hts
    rw [if_pos rfl]
    by_cases hv : target v = some q
    · simp [hv, hl, hk]
    · simp [hv]
  · rw [if_neg hts, ← child_eq_target]
    split_ifs
    · simp [mappings, hts]
    · simp [mappings, hts]

/-- Only the pages of the pool hold leaf entries. -/
theorem mappings_subset (h : Tables m R U D F) (q : ℕ) :
    m.mappings R U q ⊆ Set.Iio 0x88000 ×ˢ Set.Iio 512 := by
  rintro ⟨f, k⟩ ⟨hl, hk, -⟩
  have hf := (h.leaf_pool hl).2
  rw [pageSize_eq, dramEndPa] at hf
  exact ⟨by simp only [Set.mem_Iio] at hf ⊢; omega, hk⟩

theorem mappings_finite (h : Tables m R U D F) (q : ℕ) : (m.mappings R U q).Finite :=
  ((Set.finite_Iio _).prod (Set.finite_Iio _)).subset (mappings_subset h q)

/-- A reference counter does not overflow. -/
theorem mappings_ncard_lt (h : Tables m R U D F) (q : ℕ) :
    (m.mappings R U q).ncard < 2 ^ 32 - 1 := by
  have hle := Set.ncard_le_ncard (mappings_subset h q) ((Set.finite_Iio _).prod (Set.finite_Iio _))
  rw [Set.ncard_prod, ← Finset.coe_Iio, ← Finset.coe_Iio, Set.ncard_coe_finset,
    Set.ncard_coe_finset, Nat.card_Iio, Nat.card_Iio] at hle
  omega

/-- A write takes one mapping from the page that the old value maps and gives one to the page
that the new value maps. -/
theorem ncard_store (h : Tables m R U D F) (hl : m.IsLeaf R U s.1) (hk : s.2 < 512) (q : ℕ) :
    ((m.store s v).mappings R U q).ncard + (if m.child s.1 s.2 = some q then 1 else 0) =
      (m.mappings R U q).ncard + (if target v = some q then 1 else 0) := by
  have hfin := mappings_finite h q
  have hs : s ∈ m.mappings R U q ↔ m.child s.1 s.2 = some q := by
    simp [mappings, hl, hk]
  rw [mappings_store h hl hk]
  by_cases hc : m.child s.1 s.2 = some q
  · have hmem := hs.2 hc
    rw [if_pos hc]
    split_ifs with hv
    · rw [Set.insert_eq_of_mem hmem]
    · exact Set.ncard_sdiff_singleton_add_one hmem hfin
  · have hmem := fun hm => hc (hs.1 hm)
    rw [if_neg hc]
    split_ifs with hv
    · exact Set.ncard_insert_of_notMem hmem hfin
    · rw [Set.sdiff_singleton_eq_self hmem]

theorem Grown.refOk (h : Tables m R U D F) (hg : Grown m m' R U D F r N) (hrc : m.RefOk R U D) :
    m'.RefOk R U D := fun p hp => by
  rw [hg.mappings_eq h, hg.ref p fun hN => (h.data p hp).2.2 (hg.sub hN), hrc p hp]

namespace Rewritten

/-- The page that is freed is the one that has lost its last mapping. -/
theorem mem_dropped_iff (h : Tables m R U D F) (hrc : m.RefOk R U D) (hl : m.IsLeaf R U s.1)
    (hk : s.2 < 512) (hw : Rewritten m m' F s v) (q : ℕ) :
    q ∈ m.dropped s v ↔ (m.mappings R U q).Nonempty ∧ m'.mappings R U q = ∅ := by
  have hmap : m'.mappings R U q = (m.store s v).mappings R U q := by
    simp only [mappings, IsLeaf, child_congr hw.mem]
  have hnc := ncard_store (v := v) h hl hk q
  rw [hmap, ← Set.ncard_pos (mappings_finite h q)]
  have hfin : ((m.store s v).mappings R U q).Finite := by
    rw [mappings_store h hl hk]
    have := mappings_finite h q
    split_ifs
    · exact this.insert s
    · exact this.sdiff
  rw [← Set.ncard_eq_zero hfin]
  constructor
  · rintro ⟨h1, h2, h3⟩
    have hD : q ∈ D := h.mapped q s ⟨hl, hk, h1⟩
    rw [hrc q hD] at h3
    rw [if_pos h1, if_neg h2, h3] at hnc
    omega
  · rintro ⟨h1, h2⟩
    split_ifs at hnc with hc ht
    · omega
    · refine ⟨hc, ht, ?_⟩
      rw [hrc q (h.mapped q s ⟨hl, hk, hc⟩)]
      omega
    · omega
    · omega

theorem dropped_subset (h : Tables m R U D F) (hl : m.IsLeaf R U s.1) (hk : s.2 < 512) :
    m.dropped s v ⊆ D := fun q hq => h.mapped q s ⟨hl, hk, hq.1⟩

/-- A write to a leaf entry keeps the page tables and the reference counters in order. -/
theorem keep (h : Tables m R U D F) (hrc : m.RefOk R U D) (hl : m.IsLeaf R U s.1)
    (hk : s.2 < 512) (hw : Rewritten m m' F s v) (hv : ∀ q, target v = some q → q ∈ D) :
    Tables m' R U (D \ m.dropped s v) (F ∪ m.dropped s v) ∧
      m'.RefOk R U (D \ m.dropped s v) := by
  have hchild := child_congr hw.mem
  have hmap : ∀ q, m'.mappings R U q = (m.store s v).mappings R U q := by
    intro q
    simp only [mappings, IsLeaf, hchild]
  have hwalk : ∀ r ∈ R, ∀ p, TablePath U p → walk m'.child r p = walk m.child r p :=
    fun r hr p hp => by rw [hchild, walk_store h hl hr hp]
  refine ⟨⟨hw.free, h.separated.of_walk fun r hr p f hp hf => by rwa [hwalk r hr p hp] at hf,
    fun r hr p f hp hf => ?_, fun p hp => ?_, fun q t ht => ?_⟩, fun q hq => ?_⟩
  · rw [hwalk r hr p hp] at hf
    obtain ⟨h1, h2, h3⟩ := h.table r hr p f hp hf
    refine ⟨?_, fun hD => h2 hD.1, h3⟩
    rintro (hF | hd)
    · exact h1 hF
    · exact h2 (dropped_subset h hl hk hd)
  · obtain ⟨h1, h2, h3⟩ := h.data p hp.1
    refine ⟨h1, h2, ?_⟩
    rintro (hF | hd)
    · exact h3 hF
    · exact hp.2 hd
  · refine ⟨?_, fun hd => ?_⟩
    · have ht := ht
      rw [hmap, mappings_store h hl hk] at ht
      split_ifs at ht with htv
      · exact hv q htv
      · exact h.mapped q t ht.1
    · rw [((mem_dropped_iff h hrc hl hk hw q).1 hd).2] at ht
      exact ht
  · have hnc := ncard_store (v := v) h hl hk q
    have href := hw.ref q
    rw [hrc q hq.1] at href
    rw [hmap]
    omega

end Rewritten

/-! ### Entries by address -/

/-- The slot of an address is in a leaf table. -/
theorem slot_leaf (hr : r ∈ R) (hU : getGptx addr ∈ U) (hs : m.slot r addr = some s) :
    m.IsLeaf R U s.1 ∧ s.2 < 512 := by
  unfold slot at hs
  obtain ⟨f, hf, rfl⟩ := Option.map_eq_some_iff.1 hs
  exact ⟨⟨r, hr, _, _, tablePath_addr hU, hf⟩, (index_lt addr).2.2⟩

/-- Different addresses have different slots, except on one page of one address space. -/
theorem slot_inj (h : Tables m R U D F) (hr : r ∈ R) (hU : getGptx addr ∈ U)
    (hs : m.slot r addr = some s) {r' b : ℕ} (hr' : r' ∈ R) (hUb : getGptx b ∈ U)
    (hs' : m.slot r' b = some s) : r' = r ∧ indices b = indices addr := by
  unfold slot at hs hs'
  obtain ⟨f, hf, rfl⟩ := Option.map_eq_some_iff.1 hs
  obtain ⟨g, hg, heq⟩ := Option.map_eq_some_iff.1 hs'
  obtain ⟨rfl, hk⟩ := Prod.mk.inj heq
  obtain ⟨hrr, hp⟩ := h.separated.unique r' hr' r hr _ _ g (tablePath_addr hUb)
    (tablePath_addr hU) hg hf
  simp only [List.cons.injEq] at hp
  exact ⟨hrr, by simp only [indices, hp.1, hp.2.1, hk]⟩

theorem slot_congr_indices {b : ℕ} (h : indices b = indices addr) :
    m.slot r b = m.slot r addr := by
  simp only [indices, Prod.mk.injEq] at h
  simp only [slot, h.1, h.2.1, h.2.2]

theorem entry_of_slot (hs : m.slot r addr = some s) :
    m.entry r addr = if isValid (m.load s) then some (m.load s) else none := by
  rw [entry, hs, Option.bind_some]

/-- **A write changes the entry for its address and no other.** -/
theorem Rewritten.entry_eq (h : Tables m R U D F) (hr : r ∈ R) (hU : getGptx addr ∈ U)
    (hs : m.slot r addr = some s) (hw : Rewritten m m' F s v) {r' b : ℕ} (hr' : r' ∈ R)
    (hUb : getGptx b ∈ U) : m'.entry r' b =
      if r' = r ∧ indices b = indices addr then (if isValid v then some v else none)
      else m.entry r' b := by
  have hl := (slot_leaf hr hU hs).1
  have hslot : m'.slot r' b = m.slot r' b := by
    simp only [slot, child_congr hw.mem, walk_store h hl hr' (tablePath_addr hUb)]
  have hload : ∀ t, m'.load t = if t = s then v else m.load t := by
    intro t
    rw [← load_store, load, load, hw.mem]
  unfold entry
  rw [hslot]
  cases hb : m.slot r' b with
  | none =>
    rw [if_neg]
    · rfl
    · rintro ⟨rfl, hi⟩
      rw [slot_congr_indices hi, hs] at hb
      cases hb
  | some t =>
    rw [Option.bind_some, Option.bind_some, hload]
    by_cases hts : t = s
    · subst hts
      rw [if_pos rfl, if_pos (slot_inj h hr hU hs hr' hUb hb)]
    · have hne : ¬ (r' = r ∧ indices b = indices addr) := by
        rintro ⟨rfl, hi⟩
        rw [slot_congr_indices hi, hs] at hb
        exact hts (Option.some.inj hb).symm
      rw [if_neg hts, if_neg hne]

/-! ### `del_page` -/

/-- `del_page` of an address without a mapping does nothing. -/
theorem delPage_of_none (h : Tables m R U D F) (hr : r ∈ R) (hU : getGptx addr ∈ U)
    (he : m.entry r addr = none) : m.delPage r addr = .ok m := by
  rw [delPage, getPte_false h hr hU, ok_bind]
  cases hs : m.slot r addr with
  | none => rfl
  | some s =>
    rw [entry_of_slot hs] at he
    have hv : ¬ isValid (m.load s) := fun hv => by simp [hv] at he
    simp only [hv]
    rfl

theorem u32_pred {n : ℕ} (h0 : 0 < n) (hlt : n < 2 ^ 32) : u32 (n + 2 ^ 32 - 1) = n - 1 := by
  simp only [u32]
  omega

/-- **`del_page`** clears the entry and drops one reference. -/
theorem delPage_of_some (h : Tables m R U D F) (hr : r ∈ R) (hU : getGptx addr ∈ U) {q : ℕ}
    (hs : m.slot r addr = some s) (hq : m.child s.1 s.2 = some q) (h0 : 0 < m.ref q)
    (hlt : m.ref q < 2 ^ 32) : ∃ m', m.delPage r addr = .ok m' ∧ Rewritten m m' F s 0 := by
  obtain ⟨hl, hk⟩ := slot_leaf hr hU hs
  obtain ⟨h1, h2, h3⟩ := h.data q (h.mapped q s ⟨hl, hk, hq⟩)
  have hv : isValid (m.load s) := by
    by_contra hv
    rw [child_eq_target, target, if_neg hv] at hq
    cases hq
  have hpage : pte2page (m.load s) = .ok q := by
    rw [child_eq_target, target, if_pos hv] at hq
    rw [pte2page, assert_of hv, ok_bind, Option.some.inj hq]
    rfl
  set m₁ := m.setRef q (u32 (m.ref q + 2 ^ 32 - 1)) with hm₁
  have href₁ : m₁.ref q = m.ref q - 1 := by
    rw [hm₁, setRef_ref, if_pos rfl, u32_pred h0 hlt]
  have hdel : m.delPage r addr =
      (if m₁.ref q = 0 then m₁.freePage q else .ok m₁) >>= fun m => pure (m.store s 0) := by
    rw [delPage, getPte_false h hr hU, hs, ok_bind]
    simp only [hv, if_true, hpage, ok_bind]
    rfl
  have hcount : ∀ p, (if m.child s.1 s.2 = some p then 1 else 0) = if p = q then 1 else 0 := by
    intro p
    rw [hq]
    simp only [Option.some.injEq, eq_comm]
  have htarget : ∀ p, (if target 0 = some p then 1 else 0) = 0 := fun p => if_neg (by simp [target])
  by_cases hone : m.ref q = 1
  · -- this was the last entry that mapped the page, so the page is freed
    obtain ⟨m₂, h4, h5, h6, h7, h8⟩ := freePage_eq (m := m₁)
      (h.free.modifyRef q _) h1 h2 h3
    refine ⟨m₂.store s 0, ?_, ?_, ?_, fun p => ?_, h7⟩
    · rw [hdel, if_pos (by omega), h4]
      rfl
    · simp only [store, h6, hm₁, setRef_mem]
    · have hd : m.dropped s 0 = {q} := by
        ext i
        simp only [dropped, Set.mem_ofPred_eq, Set.mem_singleton_iff, hq, Option.some.injEq]
        constructor
        · rintro ⟨rfl, -⟩
          rfl
        · rintro rfl
          exact ⟨rfl, by simp [target], hone⟩
      rw [hd, Set.union_singleton]
      exact h5
    · rw [hcount, htarget, store_ref, h8]
      by_cases hp : p = q
      · rw [if_pos hp, if_pos hp, hp, hone]
      · rw [if_neg hp, if_neg hp, hm₁, setRef_ref, if_neg hp]
  · -- other entries still map the page
    refine ⟨m₁.store s 0, ?_, rfl, ?_, fun p => ?_, rfl⟩
    · rw [hdel, if_neg (by omega)]
      rfl
    · have hd : m.dropped s 0 = ∅ := by
        refine Set.eq_empty_of_forall_notMem fun i hi => hone ?_
        rw [dropped, Set.mem_ofPred_eq, hq] at hi
        rw [Option.some.inj hi.1]
        exact hi.2.2
      rw [hd, Set.union_empty]
      exact h.free.modifyRef q _
    · rw [hcount, htarget, store_ref]
      by_cases hp : p = q
      · rw [if_pos hp, hp, href₁]
        omega
      · rw [if_neg hp, hm₁, setRef_ref, if_neg hp]

/-! ### `add_page` -/

/-- The middle of `add_page`: the new reference is counted, the old mapping is taken away, and
then the entry is written. -/
theorem replacePage_eq (h : Tables m R U D F) (hrc : m.RefOk R U D) (hr : r ∈ R)
    (hU : getGptx addr ∈ U) {page : ℕ} (hpage : page ∈ D) (hs : m.slot r addr = some s)
    (hv : target v = some page) :
    ∃ m', (m.setRef page (u32 (m.ref page + 1))).replacePage r page addr s = .ok m' ∧
      Rewritten m (m'.store s v) F s v := by
  obtain ⟨hl, hk⟩ := slot_leaf hr hU hs
  have hlt : ∀ q ∈ D, m.ref q + 1 < 2 ^ 32 := by
    intro q hq
    have := mappings_ncard_lt h q
    rw [hrc q hq]
    omega
  rw [u32_of_lt (hlt page hpage)]
  have hload : ∀ n, (m.setRef page n).load s = m.load s := fun _ => rfl
  unfold replacePage
  rw [hload]
  by_cases hvalid : isValid (m.load s)
  · have hq : m.child s.1 s.2 = some (pte2ppn (m.load s)) := by
      rw [child_eq_target, target, if_pos hvalid]
    set q := pte2ppn (m.load s) with hqd
    have hqD : q ∈ D := h.mapped q s ⟨hl, hk, hq⟩
    rw [if_pos hvalid, pte2page, assert_of hvalid, ok_bind, ← hqd]
    simp only [pure, Except.pure, ok_bind]
    by_cases hqp : q = page
    · -- mapping the same page again
      rw [if_pos hqp]
      refine ⟨_, rfl, rfl, ?_, fun p => ?_, rfl⟩
      · have hd : m.dropped s v = ∅ := by
          refine Set.eq_empty_of_forall_notMem fun i hi => hi.2.1 ?_
          rw [hv, ← hqp, ← hq]
          exact hi.1
        rw [hd, Set.union_empty]
        exact (h.free.modifyRef _ _).modifyRef _ _
      · simp only [hq, hv, hqp, store_ref, setRef_ref, if_true]
        split_ifs with hp hp'
        · rw [u32_pred (by omega) (hlt page hpage), hp]
          rfl
        · exact absurd (by rw [hp]) hp'
        · rfl
        · rfl
    · -- another page is mapped here
      rw [if_neg hqp]
      have hmem : s ∈ m.mappings R U q := ⟨hl, hk, hq⟩
      have h0 : 0 < m.ref q := by
        rw [hrc q hqD, Set.ncard_pos (mappings_finite h q)]
        exact ⟨s, hmem⟩
      have href : (m.setRef page (m.ref page + 1)).ref q = m.ref q := by
        rw [setRef_ref, if_neg hqp]
      obtain ⟨m₃, h1, h2⟩ := delPage_of_some (h.setRef page (m.ref page + 1)) hr hU hs hq
        (by rw [href]; exact h0) (by rw [href]; have := hlt q hqD; omega)
      refine ⟨m₃, h1, ?_, ?_, fun p => ?_, h2.swapInit⟩
      · have hmem₃ := h2.mem
        simp only [store, hmem₃, setRef_mem, Function.update_self, Function.update_idem]
      · have hd : (m.setRef page (m.ref page + 1)).dropped s 0 = m.dropped s v := by
          ext i
          simp only [dropped, Set.mem_ofPred_eq]
          have hiff : m.child s.1 s.2 = some i → (m.setRef page (m.ref page + 1)).ref i = m.ref i ∧
              i ≠ page := by
            intro hi
            rw [hq] at hi
            obtain rfl := Option.some.inj hi
            exact ⟨href, hqp⟩
          constructor
          · rintro ⟨h3, -, h5⟩
            obtain ⟨h6, h7⟩ := hiff h3
            exact ⟨h3, by rw [hv]; exact fun he => h7 (Option.some.inj he).symm, h6 ▸ h5⟩
          · rintro ⟨h3, -, h5⟩
            exact ⟨h3, by simp [target], (hiff h3).1.symm ▸ h5⟩
        rw [← hd]
        exact h2.free
      · have hp := h2.ref p
        rw [store_ref, hv]
        rw [setRef_ref, show (m.setRef page (m.ref page + 1)).child s.1 s.2 = m.child s.1 s.2 from rfl,
          show target 0 = none from rfl] at hp
        by_cases hpp : p = page
        · rw [if_pos hpp] at hp
          rw [hp, hpp]
          simp
        · rw [if_neg hpp] at hp
          rw [hp, if_neg fun he => hpp (Option.some.inj he).symm]
          simp
  · have hq : m.child s.1 s.2 = none := by rw [child_eq_target, target, if_neg hvalid]
    rw [if_neg hvalid]
    refine ⟨_, rfl, rfl, ?_, fun p => ?_, rfl⟩
    · have hd : m.dropped s v = ∅ := by
        refine Set.eq_empty_of_forall_notMem fun i hi => ?_
        rw [dropped, Set.mem_ofPred_eq, hq] at hi
        cases hi.1
      rw [hd, Set.union_empty]
      exact h.free.modifyRef _ _
    · rw [hq, hv, store_ref, setRef_ref]
      by_cases hp : p = page
      · simp [hp]
      · simp [hp, Ne.symm hp]

/-- What `add_page` returns: it has created the tables `N` and then either failed, or written the
entry for the address. -/
def Added (m : Mm) (R U D F N : Set ℕ) (r page addr flags : ℕ) (res : Mm × ℤ) : Prop :=
  ∃ m₁, Grown m m₁ R U D F r N ∧ (res = (m₁, -eNoMem) ∨ res.2 = 0 ∧ ∃ s, m₁.slot r addr = some s ∧
    Rewritten m₁ res.1 (F \ N) s (ppn2pte page (pteV ||| flags)))

/-- **`add_page`** creates tables and then fails with `-E_NO_MEM` or writes the entry. -/
theorem addPage_sat (h : Tables m R U D F) (hrc : m.RefOk R U D) (hr : r ∈ R)
    (hU : getGptx addr ∈ U) {page flags : ℕ} (hpage : page ∈ D) (hf : flags < 1024) :
    Sat (m.addPage r page addr flags) fun res => ∃ N, Added m R U D F N r page addr flags res := by
  refine (getPte_sat h hr hU true).bind ?_
  rintro ⟨m₁, _ | s⟩ ⟨N, hg, hslot⟩
  · exact ⟨N, m₁, hg, Or.inl rfl⟩
  · obtain ⟨h1, h2, -⟩ := h.data page hpage
    have hlt : page < 2 ^ 54 := by
      rw [poolEnd_eq] at h2
      omega
    obtain ⟨m₂, h3, h4⟩ := replacePage_eq hg.tables (hg.refOk h hrc) hr hU hpage (hslot s rfl)
      (target_ppn2pte hlt hf)
    simp only [h3, ok_bind, page2ppn_eq h1 h2]
    exact ⟨N, m₁, hg, Or.inr ⟨rfl, s, hslot s rfl, h4⟩⟩

end Mm

end GarretOS
