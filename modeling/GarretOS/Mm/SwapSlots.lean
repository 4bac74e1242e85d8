import GarretOS.Mm.Swap

/-!
# Slots of the swap disk

The slot of a page is computed from its virtual address alone.  The disk has slots for the pages
`1` to `7` of the address space, and no user address is on one of these pages.

* `swapOffset_addr2swap` : the addresses that have a slot;
* `readSwapIde_writeSwapIde`, `writeSwapIde_of_ne` : a slot keeps what is written to it;
* `swap_out_user_fails` : no page with a user address can be swapped out.
-/

namespace GarretOS

/-- The slot that `addr2swap` packs into an entry. -/
theorem addr2swap_shift {addr : ℕ} (h : addr < 2 ^ 56) :
    addr2swap addr >>> swapShift = addr / 4096 := by
  have hpow : (addr / 2 ^ 12) * 2 ^ 8 < 2 ^ 64 := by omega
  rw [addr2swap, Nat.shiftRight_eq_div_pow, Nat.shiftRight_eq_div_pow, Nat.shiftLeft_eq, swapShift,
    pageShift, u64_of_lt hpow]
  omega

/-- The addresses that have a slot on the disk. -/
theorem swapOffset_addr2swap {addr offset : ℕ} (h : addr < 2 ^ 56) :
    swapOffset (addr2swap addr) = .ok offset ↔ (0 < addr / 4096 ∧ addr / 4096 < 8) ∧
      offset = addr / 4096 := by
  rw [swapOffset, addr2swap_shift h, bind_eq_ok]
  constructor
  · rintro ⟨_, hb, he⟩
    exact ⟨assert_eq_ok.1 hb, (Except.ok.inj he).symm⟩
  · rintro ⟨hb, rfl⟩
    exact ⟨(), assert_of hb, rfl⟩

/-- No page of a user address has a slot. -/
theorem swapOffset_user {addr : ℕ} (h : userBegin ≤ addr) (h' : addr < userEnd) (offset : ℕ) :
    swapOffset (addr2swap addr) ≠ .ok offset := by
  intro hok
  have hlt : addr < 2 ^ 56 := lt_trans h' (by decide)
  obtain ⟨⟨-, hmax⟩, -⟩ := (swapOffset_addr2swap hlt).1 hok
  rw [userBegin] at h
  omega

/-- The first sector of a slot. -/
theorem sect_eq {n : ℕ} (h : n < 8) : u32 (n * pageSect) = n * 8 :=
  u32_of_lt (lt_of_lt_of_le (Nat.mul_lt_mul_of_pos_right h (by decide)) (by decide))

namespace SwapMm

variable {s s' : SwapMm}

/-- A write to the disk, where it succeeds. -/
theorem writeSwapIde_ok {addr page : ℕ} (h : addr < 2 ^ 56)
    (hw : s.writeSwapIde (addr2swap addr) page = .ok s') :
    page2va page = .ok page ∧ (0 < addr / 4096 ∧ addr / 4096 < 8) ∧
      s' = s.writeIdeSects page (addr / 4096 * 8) 8 := by
  obtain ⟨va, hva, hw⟩ := bind_eq_ok.1 hw
  obtain ⟨offset, ho, hw⟩ := bind_eq_ok.1 hw
  obtain ⟨hb, rfl⟩ := (swapOffset_addr2swap h).1 ho
  obtain ⟨ppn, hppn, hva'⟩ := bind_eq_ok.1 hva
  obtain ⟨-, -, hppn⟩ := bind_eq_ok.1 hppn
  obtain ⟨-, -, hva'⟩ := bind_eq_ok.1 hva'
  obtain rfl : page = va := (Except.ok.inj hppn).trans (Except.ok.inj hva')
  rw [sect_eq hb.2] at hw
  exact ⟨hva, hb, (Except.ok.inj hw).symm⟩

/-- **A slot keeps the page that is written to it**: it is read back into whatever page, even after
the memory has changed. -/
theorem readSwapIde_writeSwapIde {t u : SwapMm} {addr page page' : ℕ} (h : addr < 2 ^ 56)
    (hw : s.writeSwapIde (addr2swap addr) page = .ok s')
    (hide : ∀ w, addr / 4096 * 512 ≤ w → w < addr / 4096 * 512 + 512 → t.ide w = s'.ide w)
    (hr : t.readSwapIde (addr2swap addr) page' = .ok u) :
    ∀ w < 512, u.mm.mem page' w = s.mm.mem page w := by
  obtain ⟨-, hb, rfl⟩ := writeSwapIde_ok h hw
  obtain ⟨va, hva, hr⟩ := bind_eq_ok.1 hr
  obtain ⟨offset, ho, hr⟩ := bind_eq_ok.1 hr
  obtain ⟨-, rfl⟩ := (swapOffset_addr2swap h).1 ho
  obtain ⟨ppn, hppn, hva⟩ := bind_eq_ok.1 hva
  obtain ⟨-, -, hppn⟩ := bind_eq_ok.1 hppn
  obtain ⟨-, -, hva⟩ := bind_eq_ok.1 hva
  obtain rfl : page' = va := (Except.ok.inj hppn).trans (Except.ok.inj hva)
  obtain rfl := Except.ok.inj hr
  intro w hw
  have hps : pageSect = 8 := rfl
  simp only [readIdeSects, Function.update_self, sect_eq hb.2]
  rw [if_pos (by omega), hide _ (by omega) (by omega)]
  simp only [writeIdeSects]
  rw [if_pos (by omega)]
  congr 1
  omega

/-- Writing a page of another address leaves a slot alone. -/
theorem writeSwapIde_of_ne {addr addr' page w : ℕ} (h' : addr' < 2 ^ 56)
    (hne : addr / 4096 ≠ addr' / 4096) (hw : s.writeSwapIde (addr2swap addr') page = .ok s')
    (h₀ : addr / 4096 * 512 ≤ w) (h₁ : w < addr / 4096 * 512 + 512) : s'.ide w = s.ide w := by
  obtain ⟨-, -, rfl⟩ := writeSwapIde_ok h' hw
  simp only [writeIdeSects]
  rw [if_neg]
  omega

/-- The page that `swap_out` evicts is written to its slot. -/
theorem swapOutPage_ok {vmm page : ℕ} (hpage : s.praLink.prev none = some page)
    (h : s.swapOutPage vmm = .ok s') :
    ∃ offset, swapOffset (addr2swap (s.praAddr page)) = .ok offset := by
  obtain ⟨⟨t, q⟩, ht, h⟩ := bind_eq_ok.1 h
  obtain ⟨-, -, ht⟩ := bind_eq_ok.1 ht
  obtain ⟨-, -, ht⟩ := bind_eq_ok.1 ht
  rw [hpage] at ht
  obtain ⟨rfl, rfl⟩ := Prod.mk.inj (Except.ok.inj ht)
  obtain ⟨p, -, h⟩ := bind_eq_ok.1 h
  obtain ⟨-, -, h⟩ := bind_eq_ok.1 h
  obtain ⟨u, hu, -⟩ := bind_eq_ok.1 h
  obtain ⟨va, -, hu⟩ := bind_eq_ok.1 hu
  obtain ⟨offset, ho, -⟩ := bind_eq_ok.1 hu
  exact ⟨offset, ho⟩

/-- Swapping pages in and out, but not the page for `addr` in `vmm`. -/
inductive OtherSwaps (vmm addr : ℕ) : SwapMm → SwapMm → Prop
  | refl {s : SwapMm} : OtherSwaps vmm addr s s
  | out {s t u : SwapMm} {v n : ℕ} : OtherSwaps vmm addr s t → swapOut v n t = .ok u →
      OtherSwaps vmm addr s u
  | back {s t u : SwapMm} {k v a page : ℕ} : OtherSwaps vmm addr s t → (v, a) ≠ (vmm, addr) →
      t.swapIn k v a = .ok (u, page) → OtherSwaps vmm addr s u

/-- The next page that `swap_out` evicts from `vmm` can be swapped out and, whatever is swapped in
the meantime, be brought back with the same content. -/
def SwapsBack (s : SwapMm) (vmm page : ℕ) : Prop :=
  ∃ s₁, swapOut vmm 1 s = .ok s₁ ∧ ∀ s₂, OtherSwaps vmm (s.praAddr page) s₁ s₂ →
    ∃ k s₃ page', s₂.swapIn k vmm (s.praAddr page) = .ok (s₃, page') ∧
      ∀ w < 512, s₃.mm.mem page' w = s.mm.mem page w

end SwapMm

open SwapMm

/-- **No page with a user address can be swapped out**, in any state and in any address space: its
address has no slot on the disk, and the assertion of `swap_offset` fails. -/
theorem swap_out_user_fails (s : SwapMm) (vmm page : ℕ) (hpage : s.praLink.prev none = some page)
    (huser : userBegin ≤ s.praAddr page ∧ s.praAddr page < userEnd) : ¬ s.SwapsBack vmm page := by
  rintro ⟨s₁, hout, -⟩
  obtain ⟨t, hout, -⟩ := bind_eq_ok.1 hout
  obtain ⟨offset, ho⟩ := swapOutPage_ok hpage hout
  exact swapOffset_user huser.1 huser.2 offset ho

/-- An address space with one page, at `USER_BEGIN`, which is swappable. -/
def oneUserPage : SwapMm where
  mm :=
    { pmm := ⟨fun _ => ⟨1, 0, 0⟩, ⟨id, id⟩, 0⟩
      mem := fun f w =>
        if (f, w) = (0x82000, 0) then ppn2pte 0x82001 pteV
        else if (f, w) = (0x82001, 1) then ppn2pte 0x82002 pteV
        else if (f, w) = (0x82002, 0) then ppn2pte 0x82003 (pteV ||| pteR ||| pteW)
        else 0
      swapInit := true }
  praLink := (⟨id, id⟩ : Links (Option ℕ)).addList none none (some 0x82003)
  praAddr _ := userBegin
  ide _ := 0
  vmm _ := ⟨0x82004, [], none, some 0x82000, 0, 0⟩
  praList _ := true
  testVmm := none

/-- The first page of the user address space cannot be swapped out. -/
theorem swap_out_user_begin : oneUserPage.praLink.prev none = some 0x82003 ∧
    oneUserPage.praAddr 0x82003 = userBegin ∧
    swapOut 0x82004 1 oneUserPage = .error (.assertion "offset > 0 && offset < SWAP_MAX_OFFSET") ∧
    ¬ oneUserPage.SwapsBack 0x82004 0x82003 := by
  have hout : swapOut 0x82004 1 oneUserPage =
      .error (.assertion "offset > 0 && offset < SWAP_MAX_OFFSET") := rfl
  refine ⟨rfl, rfl, hout, ?_⟩
  rintro ⟨s₁, h, -⟩
  rw [hout] at h
  cases h

/-- The same page, by the general result. -/
theorem swap_out_user_fails_begin : ¬ oneUserPage.SwapsBack 0x82004 0x82003 :=
  swap_out_user_fails oneUserPage 0x82004 0x82003 rfl ⟨by decide, by decide⟩

end GarretOS
