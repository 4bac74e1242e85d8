import GarretOS.Kernel.Fault
import GarretOS.Ring.Basic

/-!
# The best-fit page allocator

The functions of `kernel/mm/best_fit_pmm.c` on the page descriptors `g_pages` and the free list
`g_best_fit_free_area`.  A page is named by its index in `g_pages`, which is its physical page
number, so that pointer arithmetic on `struct page*` is arithmetic on indices.

The free list links the `free_link` fields of the heads of the free blocks.  Loops that follow
the list are given one round more than there are free pages; a loop that runs out of rounds
ends in `Fault.diverges`.
-/

namespace GarretOS

/-- `struct page`, without the fields of the page replacement algorithm. -/
structure Page where
  /-- The reference counter of the frame. -/
  ref : ℕ
  /-- `PAGE_RESERVED` and `PAGE_PROPERTY`. -/
  flags : UInt32
  /-- The size of the free block that begins here. -/
  property : ℕ
  deriving DecidableEq

/-- `PAGE_RESERVED` -/
def pageReserved : UInt32 := 0x00000001

/-- `PAGE_PROPERTY` -/
def pageProperty : UInt32 := 0x00000002

/-- `UINT32_MAX` -/
def uint32Max : ℕ := 0xffffffff

/-- The nodes of the free list: its head `free_area.free_list`, and the `free_link` field of
every page. -/
inductive FreeLink where
  | freeList
  | page (i : ℕ)
  deriving DecidableEq

/-- Comparison of the addresses of two link fields.  The list head is a variable of the kernel
image, which lies below the array `g_pages`. -/
def FreeLink.lt : FreeLink → FreeLink → Bool
  | .freeList, .freeList => false
  | .freeList, .page _ => true
  | .page _, .freeList => false
  | .page i, .page j => i < j

/-- The page descriptors and the free area. -/
structure BestFit where
  /-- `g_pages` -/
  page : ℕ → Page
  /-- The `free_link` fields and the list head. -/
  freeLink : Links FreeLink
  /-- `free_area.num_free` -/
  numFree : ℕ

namespace BestFit

/-- Change the descriptor of page `i`. -/
def modifyPage (s : BestFit) (i : ℕ) (f : Page → Page) : BestFit :=
  { s with page := Function.update s.page i (f (s.page i)) }

/-- The number of rounds given to a loop over the free list. -/
def rounds (s : BestFit) : ℕ := s.numFree + 1

/-- `best_fit_init` -/
def bestFitInit (s : BestFit) : BestFit :=
  { s with freeLink := s.freeLink.initList .freeList, numFree := 0 }

/-- The loop of `best_fit_init_memmap` over the pages `base`, ..., `base + k - 1`. -/
def initPages (base : ℕ) : ℕ → (ℕ → Page) → Res (ℕ → Page)
  | 0, page => .ok page
  | k + 1, page => do
    let page ← initPages base k page
    assert ((page (base + k)).flags &&& pageReserved = 0) "!(p->flags & PAGE_RESERVED)"
    return Function.update page (base + k) { flags := 0, ref := 0, property := 0 }

/-- `best_fit_init_memmap` -/
def bestFitInitMemmap (s : BestFit) (base n : ℕ) : Res BestFit := do
  assert (0 < n) "n > 0"
  let page ← initPages base n s.page
  let s := { s with page }
  let s := s.modifyPage base fun p => { p with flags := p.flags ||| pageProperty }
  let s := s.modifyPage base fun p => { p with property := u32 n }
  return { s with
    freeLink := s.freeLink.addList .freeList (s.freeLink.next .freeList) (.page base)
    numFree := u64 (s.numFree + n) }

/-- The search loop of `best_fit_alloc_pages`: from `list` on, `page` being the best block so
far and `minProperty` its size. -/
def findBest (s : BestFit) (n : ℕ) : ℕ → FreeLink → Option ℕ → ℕ → Res (Option ℕ)
  | 0, _, _, _ => .error .diverges
  | k + 1, list, page, minProperty =>
    match s.freeLink.next list with
    | .freeList => .ok page
    | .page p =>
      if n ≤ (s.page p).property ∧ (s.page p).property < minProperty then
        findBest s n k (.page p) (some p) (s.page p).property
      else findBest s n k (.page p) page minProperty

/-- The tail of a block that is larger than needed becomes a block of its own, linked where
`page` was. -/
def splitTail (s : BestFit) (page n : ℕ) : BestFit :=
  let p := page + n
  let s := s.modifyPage p fun q => { q with property := u32 ((s.page page).property - n) }
  let s := s.modifyPage p fun q => { q with flags := q.flags ||| pageProperty }
  { s with freeLink :=
      s.freeLink.addList (s.freeLink.prev (.page page)) (s.freeLink.next (.page page)) (.page p) }

/-- Take the first `n` pages of the block at `page`. -/
def takeBlock (s : BestFit) (page n : ℕ) : BestFit :=
  let s := { s with freeLink := s.freeLink.delList (.page page) }
  let s := if n < (s.page page).property then s.splitTail page n else s
  let s := { s with numFree := s.numFree - n }
  let s := s.modifyPage page fun p => { p with flags := p.flags &&& ~~~pageProperty }
  s.modifyPage page fun p => { p with property := 0 }

/-- `best_fit_alloc_pages` : the new state, and the first page of the block or `NULL`. -/
def bestFitAllocPages (s : BestFit) (n : ℕ) : Res (BestFit × Option ℕ) := do
  assert (0 < n) "n > 0"
  if s.numFree < n then
    return (s, none)
  match ← s.findBest n s.rounds .freeList none uint32Max with
  | none => return (s, none)
  | some page => return (s.takeBlock page n, some page)

/-- The first loop of `best_fit_free_pages`, over the pages `base`, ..., `base + k - 1`. -/
def clearPages (base : ℕ) : ℕ → (ℕ → Page) → Res (ℕ → Page)
  | 0, page => .ok page
  | k + 1, page => do
    let page ← clearPages base k page
    assert ((page (base + k)).flags &&& (pageReserved ||| pageProperty) = 0)
      "(p->flags & (PAGE_RESERVED | PAGE_PROPERTY)) == 0"
    return Function.update page (base + k) { page (base + k) with flags := 0, ref := 0 }

/-- The second loop of `best_fit_free_pages`: the node after which `base` is inserted. -/
def findPrev (s : BestFit) (base : ℕ) : ℕ → FreeLink → Res FreeLink
  | 0, _ => .error .diverges
  | k + 1, list =>
    let next := s.freeLink.next list
    if next.lt (.page base) ∧ next ≠ .freeList then findPrev s base k next else .ok list

/-- The block at `p` takes over the block at `q`, which begins where it ends. -/
def mergeBlock (s : BestFit) (p q : ℕ) : BestFit :=
  let s := s.modifyPage p fun x => { x with property := u32 (x.property + (s.page q).property) }
  let s := s.modifyPage q fun x => { x with flags := x.flags &&& ~~~pageProperty }
  let s := s.modifyPage q fun x => { x with property := 0 }
  { s with freeLink := s.freeLink.delList (.page q) }

/-- Merge the block at `base` into the one before it if they touch; the head of the block that
then holds `base`. -/
def mergePrev (s : BestFit) (base : ℕ) : BestFit × ℕ :=
  match s.freeLink.prev (.page base) with
  | .freeList => (s, base)
  | .page p => if p + (s.page p).property = base then (s.mergeBlock p base, p) else (s, base)

/-- Merge the block after the one at `base` into it if they touch. -/
def mergeNext (s : BestFit) (base : ℕ) : BestFit :=
  match s.freeLink.next (.page base) with
  | .freeList => s
  | .page p => if base + (s.page base).property = p then s.mergeBlock base p else s

/-- `best_fit_free_pages` -/
def bestFitFreePages (s : BestFit) (base n : ℕ) : Res BestFit := do
  assert (0 < n) "n > 0"
  let page ← clearPages base n s.page
  let s := { s with page }
  let s := s.modifyPage base fun p => { p with property := u32 n }
  let s := s.modifyPage base fun p => { p with flags := p.flags ||| pageProperty }
  let s := { s with numFree := u64 (s.numFree + n) }
  let list ← s.findPrev base s.rounds .freeList
  let s := { s with
    freeLink := s.freeLink.addList list (s.freeLink.next list) (.page base) }
  let (s, base) := s.mergePrev base
  return s.mergeNext base

end BestFit

end GarretOS
