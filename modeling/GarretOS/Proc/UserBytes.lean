import GarretOS.Mm.Owned
import GarretOS.Proc.LoadReads

/-!
# The bytes of an address space

`userByte m r a` is the byte at the user address `a` of the page table `r`, with the permissions
of its page.  A page is mapped at one address only (`Owned.page_inj`), so what is written to a page
changes the bytes of that page of user memory and no others.

* `Owned.allocPageGpte_bytes` : a new page changes nothing elsewhere;
* `Owned.fillPage_bytes` : `memcpy` and `memset` to a mapped page write these bytes.
-/

namespace GarretOS

open Radix Logged

namespace Mm

/-- The permissions of user memory at an address, and the byte there. -/
def userByte (m : Mm) (r a : ℕ) : Option (ℕ × ℕ) :=
  (m.entry r a).map fun pte => (pteFlags pte, Bytes.get (m.mem (pte2ppn pte)) (a % pageSize))

variable {m m' : Mm} {R D₀ A X D F : Set ℕ} {r addr page flags : ℕ}

namespace Owned

/-- **A page is mapped at one address only.** -/
theorem page_inj (h : Owned m R D₀ r A X D F) {a b x y : ℕ} (ha : a < userEnd) (hb : b < userEnd)
    (hx : m.entry r a = some x) (hy : m.entry r b = some y) (hxy : pte2ppn x = pte2ppn y) :
    a / pageSize = b / pageSize := by
  have hc := h.consistent
  have hU : ∀ {c}, c < userEnd → getGptx c ∈ userEntries := getGptx_user
  have hD := entry_mem hc.tables h.root (hU ha) hx
  obtain ⟨-, -, href⟩ := h.maps_single hD ⟨a, ha, x, hx, rfl⟩
  rw [hc.refs _ hD] at href
  obtain ⟨s, hs⟩ := Set.ncard_eq_one.1 href
  -- the entries for both addresses map the page, and there is only one such entry
  have hslot : ∀ {c z}, c < userEnd → m.entry r c = some z → pte2ppn z = pte2ppn x →
      m.slot r c = some s := by
    intro c z hcu hz hzx
    cases ht : m.slot r c with
    | none => simp [entry, ht] at hz
    | some t =>
      obtain ⟨hv, rfl⟩ := (entry_eq_some_iff ht).1 hz
      obtain ⟨hl, hk⟩ := slot_leaf (U := userEntries) h.root (hU hcu) ht
      have hmem : t ∈ m.mappings R userEntries (pte2ppn x) :=
        ⟨hl, hk, hzx ▸ child_of_valid hv⟩
      rw [hs] at hmem
      rw [Set.mem_singleton_iff.1 hmem]
  have hsa := hslot ha hx rfl
  have hsb := hslot hb hy hxy.symm
  exact (indices_user hb ha).1 (slot_inj hc.tables h.root (hU hb) hsb h.root (hU ha) hsa).2

/-- Data pages may be written. -/
theorem store (h : Owned m R D₀ r A X D F) (hD : page ∈ D)
    (hmem : ∀ f, f ≠ page → m'.mem f = m.mem f) (hpmm : m'.pmm = m.pmm) :
    Owned m' R D₀ r A X D F := by
  have hc := h.consistent
  have href : m'.ref = m.ref := by
    funext p
    rw [ref, ref, hpmm]
  have hmaps : ∀ p, m'.Maps r p ↔ m.Maps r p := by
    intro p
    constructor
    · rintro ⟨a, ha, pte, he, hp⟩
      exact ⟨a, ha, pte, hc.entry_write hD hmem h.root (getGptx_user ha) ▸ he, hp⟩
    · rintro ⟨a, ha, pte, he, hp⟩
      exact ⟨a, ha, pte, (hc.entry_write hD hmem h.root (getGptx_user ha)).symm ▸ he, hp⟩
  refine ⟨hc.write hD hmem hpmm, h.root, ?_, h.base, fun p hp => ?_, fun p hp h0 hX => ?_,
    fun p hp => ?_⟩
  · rw [tablesOf_congr fun p hp => hc.walk_write hD hmem h.root hp]
    exact h.total
  · rw [hmaps]
    exact h.others p hp
  · rw [href, hmaps]
    exact h.single p hp h0 hX
  · rw [href]
    exact h.pending p hp

/-- **`alloc_page_gpte`** changes user memory on the page of the address only. -/
theorem allocPageGpte_bytes (h : Owned m R D₀ r A ∅ D F) (hau : addr < userEnd)
    (hf : flags < 1024) (hres : m.allocPageGpte r addr flags = .ok (m', some page)) :
    (∃ D' F', Owned m' R D₀ r A ∅ D' F') ∧ (poolBegin ≤ page ∧ page < poolEnd) ∧
      m'.entry r addr = some (ppn2pte page (pteV ||| flags)) ∧
      ∀ b < userEnd, b / pageSize ≠ addr / pageSize → m'.userByte r b = m.userByte r b := by
  have hU := getGptx_user hau
  refine ⟨(owned_allocPageGpte h hau hf).of_ok hres, ?_⟩
  obtain ⟨⟨m₁, o⟩, halloc, hres⟩ := bind_eq_ok.1 hres
  have ha := (allocPage_sat h.consistent.tables.free).of_ok halloc
  cases o with
  | none => cases hres
  | some p =>
    have ha : Allocated m m₁ F p := ha
    have h₁ := h.consistent.alloc ha
    have hp : p ∈ insert p D := Set.mem_insert p D
    obtain ⟨⟨m₂, ret⟩, hadd, hres⟩ := bind_eq_ok.1 hres
    obtain ⟨w, D', F', ht, hw⟩ := (addPage_touched h₁ h.root hU hp hf).of_ok hadd
    simp only at hres ht hw
    by_cases hret : ret = 0
    · obtain rfl : w = some (ppn2pte p (pteV ||| flags)) := by
        rcases hw with ⟨-, he⟩ | ⟨hw, -⟩
        · rw [hret] at he
          exact absurd he (by decide)
        · exact hw
      rw [if_neg (not_not.2 hret)] at hres
      obtain ⟨rfl, hpage⟩ := Prod.mk.inj (Except.ok.inj hres)
      obtain rfl := Option.some.inj hpage
      have hpool := h.consistent.tables.free.mem_pool ha.mem_free
      have hentry := fun b (hb : b < userEnd) =>
        ht.entry_eq h₁ h.root hU h.root (getGptx_user hb)
      refine ⟨hpool, ?_, fun b hb hne => ?_⟩
      · have hlt := hpool.2
        rw [poolEnd_eq] at hlt
        rw [hentry addr hau]
        simp only [and_self, if_true]
        rw [if_pos ((isValid_ppn2pte (by omega) (pteV_or hf).1).2 (pteV_or hf).2)]
      · have he : m₂.entry r b = m.entry r b := by
          rw [hentry b hb, ← entry_congr ha.mem]
          simp only [indices_user hau hb, hne, and_false, if_false]
        rw [userByte, userByte, he]
        cases hb' : m.entry r b with
        | none => rfl
        | some pte =>
          -- the page of another address is an old one, and it has not been written
          have hD := entry_mem h.consistent.tables h.root (getGptx_user hb) hb'
          simp only [Option.map_some]
          rw [ht.mem_data h₁ h.root hU (Set.mem_insert_of_mem p hD), ha.mem]
    · rw [if_pos hret] at hres
      obtain ⟨m₃, -, hres⟩ := bind_eq_ok.1 hres
      cases hres

end Owned

/-! ### Writing bytes -/

/-- The content of a frame is replaced. -/
def withPage (m : Mm) (page : ℕ) (w : ℕ → ℕ) : Mm :=
  { m with mem := Function.update m.mem page w }

/-- The loop of `memcpy` and `memset` inside a page of memory that exists. -/
theorem storeBytes_eq {off n : ℕ} (f : ℕ → ℕ) (hoff : off + n ≤ pageSize) (m : Mm)
    (h1 : dramBeginPa < page * pageSize) (h2 : page * pageSize < dramEndPa) :
    storeBytes f n m (page * pageSize + off) =
      .ok (m.withPage page (Bytes.fill f n (m.mem page) off)) := by
  unfold withPage
  induction n generalizing f m off with
  | zero => rw [storeBytes, Bytes.fill, Function.update_eq_self]
  | succ n ih =>
    rw [pageSize_eq] at *
    have hdiv : (page * 4096 + off) / 4096 = page := by omega
    have hmod : (page * 4096 + off) % 4096 = off := by omega
    have hbyte : m.storeByte (page * 4096 + off) (f 0) =
        .ok { m with mem := Function.update m.mem page (Bytes.put (m.mem page) off (f 0)) } := by
      rw [dramEndPa] at h2
      rw [storeByte, if_pos (by rw [dramEndPa]; omega), pageSize_eq, hdiv, hmod]
    rw [storeBytes, hbyte, ok_bind, Nat.add_assoc, ih (fun i => f (i + 1)) (by omega)]
    simp only [Function.update_self, Function.update_idem, Bytes.fill]

/-- What `fillPage` writes. -/
def fillByte (im : Image) (fromBegin : Option ℕ) (i : ℕ) : ℕ :=
  match fromBegin with
  | none => 0
  | some a => im.at (a + i)

theorem fillByte_lt (im : Image) (fromBegin : Option ℕ) (i : ℕ) :
    fillByte im fromBegin i < 2 ^ 8 := by
  cases fromBegin with
  | none => exact Nat.two_pow_pos 8
  | some a => exact UInt8.toNat_lt _

variable {im : Image} {P : LoadEvent → Prop} {E : Fault → Prop}

/-- The bytes of a page are written, if that part of the page exists. -/
theorem fillPage_meets (m : Mm) (pOff size : ℕ) (fromBegin : Option ℕ)
    (hoff : pOff + size ≤ pageSize) (hread : ∀ a, P (.read a size)) (hwrite : P (.write pOff size))
    (hE : ∀ f, page2va page = .error f → E f) :
    Meets (m.fillPage im page pOff fromBegin size) P E fun m' =>
      m' = m.withPage page (Bytes.fill (fillByte im fromBegin) size (m.mem page) pOff) := by
  refine Meets.bind (Q := fun va => va = page ∧ poolBegin ≤ page ∧ page * pageSize < dramEndPa)
    (meets_lift hE fun va hva => ?_) ?_
  · obtain ⟨h1, h2, -, h3⟩ := (page2va_sat page).of_ok hva
    exact ⟨h1, h2, h3⟩
  · rintro va ⟨rfl, h2, h3⟩
    have h1 : dramBeginPa < va * pageSize := by
      rw [poolBegin_eq] at h2
      rw [dramBeginPa, pageSize_eq]
      omega
    have hrest : Meets (do
        Logged.emit (LoadEvent.write pOff size)
        Logged.lift (storeBytes (fillByte im fromBegin) size m (va * pageSize + pOff))) P E
        fun m' => m' =
          m.withPage va (Bytes.fill (fillByte im fromBegin) size (m.mem va) pOff) := by
      refine (meets_emit hwrite).bind fun _ _ => ?_
      rw [storeBytes_eq _ hoff m h1 h3]
      exact meets_lift (fun f hf => by cases hf) fun _ hm' => (Except.ok.inj hm').symm
    cases fromBegin with
    | none => exact hrest
    | some a => exact (meets_readField (hread a)).bind fun _ _ => hrest

/-- **`memcpy` and `memset` to a mapped page** write these bytes of user memory and no others. -/
theorem Owned.fillPage_bytes (h : Owned m R D₀ r A ∅ D F) (hau : addr < userEnd) {pte : ℕ}
    (hpte : m.entry r addr = some pte) {pOff size : ℕ} {fromBegin : Option ℕ}
    (hoff : pOff + size ≤ pageSize) (hread : ∀ a, P (.read a size)) (hwrite : P (.write pOff size))
    (hE : ∀ f, page2va (pte2ppn pte) = .error f → E f) :
    Meets (m.fillPage im (pte2ppn pte) pOff fromBegin size) P E fun m' =>
      Owned m' R D₀ r A ∅ D F ∧ m'.entry r addr = some pte ∧
      ∀ b < userEnd, m'.userByte r b =
        if b / pageSize = addr / pageSize ∧ pOff ≤ b % pageSize ∧ b % pageSize < pOff + size then
          some (pteFlags pte, fillByte im fromBegin (b % pageSize - pOff))
        else m.userByte r b := by
  have hc := h.consistent
  have hD := entry_mem hc.tables h.root (getGptx_user hau) hpte
  refine (fillPage_meets m pOff size fromBegin hoff hread hwrite hE).mono ?_
  rintro m' rfl
  obtain ⟨m', hm'⟩ : ∃ m' : Mm, m' = m.withPage (pte2ppn pte)
    (Bytes.fill (fillByte im fromBegin) size (m.mem (pte2ppn pte)) pOff) := ⟨_, rfl⟩
  rw [← hm']
  have hmem : ∀ f, f ≠ pte2ppn pte → m'.mem f = m.mem f := by
    intro f hf
    rw [hm']
    exact Function.update_of_ne hf _ _
  have hpage : m'.mem (pte2ppn pte) =
      Bytes.fill (fillByte im fromBegin) size (m.mem (pte2ppn pte)) pOff := by
    rw [hm']
    exact Function.update_self ..
  have hpmm : m'.pmm = m.pmm := by
    rw [hm']
    rfl
  have hentry : ∀ b < userEnd, m'.entry r b = m.entry r b := fun b hb =>
    hc.entry_write hD hmem h.root (getGptx_user hb)
  refine ⟨h.store hD hmem hpmm, (hentry addr hau).trans hpte, fun b hb => ?_⟩
  rw [userByte, userByte, hentry b hb]
  by_cases hba : b / pageSize = addr / pageSize
  · rw [entry_congr_page hau hb hba, hpte]
    simp only [Option.map_some, hpage, Bytes.get_fill, hba, true_and,
      Nat.mod_eq_of_lt (fillByte_lt im fromBegin _)]
    split_ifs <;> rfl
  · simp only [hba, false_and, if_false]
    cases hb' : m.entry r b with
    | none => rfl
    | some x =>
      have hne : pte2ppn x ≠ pte2ppn pte := fun he => hba (h.page_inj hb hau hb' hpte he)
      simp only [Option.map_some, hmem _ hne]

end Mm

end GarretOS
