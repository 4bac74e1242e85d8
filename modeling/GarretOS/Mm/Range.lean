import GarretOS.Mm.Consistent
import GarretOS.Mm.Vmm

/-!
# Ranges of addresses

`copy_range` and `del_range` walk over a range of addresses: by pages where a table of leaf entries
exists, and by 512 bytes where it does not (`nextAddr`).  From a page-aligned beginning this
visits every page of the range, since the table of an address inside a page is the one of the
page (`nextAddr_spec`).
-/

namespace GarretOS

namespace Mm

variable {m₀ : Mm} {S : Set ℕ} {fr : ℕ}

/-- The numbers of the pages that begin in a range of addresses. -/
def pageRange (start stop : ℕ) : Set ℕ := {vpn | start ≤ vpn * pageSize ∧ vpn * pageSize < stop}

/-- The address that a round goes on with. -/
def nextAddr (m₀ : Mm) (fr start : ℕ) : ℕ :=
  if m₀.slot fr start = none then rounddown (u64 (start + ptSize)) ptSize
  else u64 (start + pageSize)

/-- The next address is at most one page on, inside the range, and again at the beginning of a
page or where the parent has no table. -/
theorem nextAddr_spec {start stop : ℕ} (hstop : stop ≤ userEnd) (hlt : start < stop)
    (h512 : start % ptSize = 0) (hend : stop % pageSize = 0)
    (halign : start % pageSize = 0 ∨ m₀.slot fr start = none) :
    start < nextAddr m₀ fr start ∧ nextAddr m₀ fr start ≤ stop ∧
      nextAddr m₀ fr start % ptSize = 0 ∧
      nextAddr m₀ fr start ≤ (start / pageSize + 1) * pageSize ∧
      start + ptSize ≤ nextAddr m₀ fr start ∧
      (nextAddr m₀ fr start % pageSize = 0 ∨ m₀.slot fr (nextAddr m₀ fr start) = none) := by
  have hu := hstop
  rw [userEnd] at hu
  rw [ptSize_eq] at h512 ⊢
  rw [pageSize_eq] at hend halign ⊢
  by_cases hs : m₀.slot fr start = none
  · have hnext : nextAddr m₀ fr start = start + 512 := by
      rw [nextAddr, if_pos hs, ptSize_eq, u64_of_lt (by omega), rounddown]
      omega
    rw [hnext]
    refine ⟨by omega, by omega, by omega, by omega, by omega, ?_⟩
    by_cases hp : (start + 512) % 4096 = 0
    · exact Or.inl hp
    · have hidx : indices (start + 512) = indices start :=
        (indices_user (by omega) (by rw [userEnd]; omega)).2 (by rw [pageSize_eq]; omega)
      exact Or.inr (by rw [slot_congr_indices hidx, hs])
  · have ha : start % 4096 = 0 := halign.resolve_right hs
    have hnext : nextAddr m₀ fr start = start + 4096 := by
      rw [nextAddr, if_neg hs, pageSize_eq, u64_of_lt (by omega)]
    rw [hnext]
    exact ⟨by omega, by omega, by omega, by omega, by omega, Or.inl (by omega)⟩

/-- The pages before the next address. -/
theorem insert_pageRange {start₀ start next : ℕ} (h₀ : start₀ % pageSize = 0) (h1 : start₀ ≤ start)
    (h2 : start < next) (h3 : next ≤ (start / pageSize + 1) * pageSize) :
    insert (start / pageSize) (S ∪ pageRange start₀ start) = S ∪ pageRange start₀ next := by
  rw [pageSize_eq] at h₀ h3 ⊢
  have hpages : insert (start / 4096) (pageRange start₀ start) = pageRange start₀ next := by
    ext vpn
    simp only [pageRange, pageSize_eq, Set.mem_insert_iff, Set.mem_ofPred_eq]
    omega
  rw [← hpages, Set.union_insert]

theorem union_pageRange_self (S : Set ℕ) (a : ℕ) : S ∪ pageRange a a = S := by
  rw [Set.union_eq_left]
  rintro vpn ⟨h1, h2⟩
  omega

/-- A loop over the range from `start₀` to `stop` has come to the address `a`. -/
structure Cursor (m₀ : Mm) (fr start₀ stop a : ℕ) : Prop where
  le : start₀ ≤ a
  lt : a < stop
  aligned : a % ptSize = 0
  /-- At the beginning of a page, or where there is no table. -/
  table : a % pageSize = 0 ∨ m₀.slot fr a = none

namespace Cursor

variable {start₀ stop a : ℕ}

theorem start (h₀ : start₀ % pageSize = 0) (hlt : start₀ < stop) :
    Cursor m₀ fr start₀ stop start₀ := by
  refine ⟨le_rfl, hlt, ?_, Or.inl h₀⟩
  rw [pageSize_eq] at h₀
  rw [ptSize_eq]
  omega

/-- A page that has a table has not been visited before. -/
theorem fresh (h : Cursor m₀ fr start₀ stop a) (hdisj : ∀ vpn ∈ pageRange start₀ stop, vpn ∉ S)
    (hs : m₀.slot fr a ≠ none) : a / pageSize ∉ S ∪ pageRange start₀ a := by
  have ha : a % pageSize = 0 := h.table.resolve_right hs
  have hmul : a / pageSize * pageSize = a := by
    rw [pageSize_eq] at ha ⊢
    omega
  have hle := h.le
  have hlt := h.lt
  rintro (hS | hr)
  · exact hdisj (a / pageSize) ⟨by rw [hmul]; exact hle, by rw [hmul]; exact hlt⟩ hS
  · have := hr.2
    rw [hmul] at this
    omega

/-- The next round: the pages that have been visited then, and what remains of the range. -/
theorem next (h : Cursor m₀ fr start₀ stop a) (h₀ : start₀ % pageSize = 0) (hstop : stop ≤ userEnd)
    (hend : stop % pageSize = 0) :
    nextAddr m₀ fr a ≠ 0 ∧ nextAddr m₀ fr a ≤ stop ∧
      insert (a / pageSize) (S ∪ pageRange start₀ a) = S ∪ pageRange start₀ (nextAddr m₀ fr a) ∧
      (nextAddr m₀ fr a < stop → Cursor m₀ fr start₀ stop (nextAddr m₀ fr a)) ∧
      ∀ k, (stop - a) / ptSize < k + 1 → nextAddr m₀ fr a < stop →
        (stop - nextAddr m₀ fr a) / ptSize < k := by
  obtain ⟨h1, h2, h3, h4, h5, h6⟩ := nextAddr_spec hstop h.lt h.aligned hend h.table
  have hle := h.le
  refine ⟨by omega, h2, insert_pageRange h₀ hle h1 h4, fun hlt => ⟨by omega, hlt, h3, h6⟩,
    fun k hk hlt => ?_⟩
  rw [ptSize_eq] at hk h5 ⊢
  omega

end Cursor

end Mm

end GarretOS
