import GarretOS.Proc.Segments

/-!
# What `load_bin` guarantees

The two things that a program relies on after `load_bin` has returned `0`, and when it has them.

* `load_bin_exact_iff` : its segments have the bytes that the image says, just when no segment
  reaches beyond the last address; `vm_map` takes such a segment for a single page;
* `load_bin_permissions_iff` : they have the permissions that their headers ask for, just when in
  addition no header asks for less than one before it, since `vm_flags` is never reset.
-/

namespace GarretOS

open Logged

/-- Every byte of the segment is in user memory, the bytes of the file first and then zeros. -/
def SegmentLoaded (im : Image) (ph : ProgHeader) (m : Mm) (r : ℕ) : Prop :=
  ∀ i < ph.pMemSize, u64 (ph.pVa + i) < userEnd ∧
    ∃ flags, m.userByte r (u64 (ph.pVa + i)) = some (flags, im.segmentByte ph i)

/-- The loops of `load_bin` stay inside pages, its assertion holds, and when it returns `0` every
segment has been loaded. -/
structure LoadsExactly (im : Image)
    (run : Logged LoadEvent (Mm × Option (VmManager × UserFrame) × ℤ)) : Prop where
  pages : ∀ e ∈ run.events, e.InPage
  assertion : run.result ≠ .error (.assertion tailCond)
  loaded : ∀ m vmm frame, run.result = .ok (m, some (vmm, frame), 0) →
    ∃ r, vmm.pGpt = some r ∧ ∀ i < im.ePhnum, (im.header i).pType = elfPtLoad →
      SegmentLoaded im (im.header i) m r

/-- The segment has an area and pages with the permissions that its own header asks for. -/
structure SegmentPermitted (ph : ProgHeader) (m : Mm) (vmm : VmManager) (r : ℕ) : Prop where
  area : ∃ v ∈ vmm.vmaList, v.triple = (rounddown ph.pVa pageSize, pagesEnd ph.pVa ph.pMemSize,
    addVmFlags 0 ph.pFlags)
  pages : ∀ i < ph.pMemSize, u64 (ph.pVa + i) < userEnd ∧
    ∃ byte, m.userByte r (u64 (ph.pVa + i)) = some (areaPteFlags (addVmFlags 0 ph.pFlags), byte)

/-- Every loadable segment asks for all permissions that a loadable segment before it asks for. -/
def Image.PermissionsGrow (im : Image) : Prop :=
  ∀ i < im.ePhnum, (im.header i).pType = elfPtLoad → ∀ j < i, (im.header j).pType = elfPtLoad →
    ∀ f ∈ [elfPfX, elfPfW, elfPfR], (im.header j).pFlags &&& f ≠ 0 → (im.header i).pFlags &&& f ≠ 0

variable {im : Image} {m m' : Mm} {vmm : VmManager} {R D₀ F₀ : Set ℕ} {r bpt k : ℕ}
  {sstatus : Riscv.Word} {frame : UserFrame}

/-! ### Segments that wrap around -/

theorem Image.pVa_lt (im : Image) (i : ℕ) : (im.header i).pVa < 2 ^ 64 :=
  Bytes.value_lt (fun _ => UInt8.toNat_lt _) 8

/-- The last byte of memory is in a segment that wraps around. -/
theorem wrap_not_user {ph : ProgHeader} (hva : ph.pVa < 2 ^ 64)
    (hwrap : 2 ^ 64 ≤ ph.pVa + ph.pMemSize) : ∃ i < ph.pMemSize, ¬ u64 (ph.pVa + i) < userEnd := by
  have hue : userEnd = 0x80000000 := rfl
  refine ⟨2 ^ 64 - 1 - ph.pVa, by omega, ?_⟩
  rw [u64_of_lt (by omega)]
  omega

/-- Without such a segment the addresses of a segment are the ones that are meant. -/
theorem SegmentReady.u64_eq {i x : ℕ} (h : SegmentReady im i m vmm r) (hmap : MapOk vmm)
    (hx : x < (im.header i).pMemSize) :
    u64 ((im.header i).pVa + x) = (im.header i).pVa + x := by
  have hlt := h.lt_userEnd hmap hx
  have hue : userEnd = 0x80000000 := rfl
  exact u64_of_lt (by omega)

/-! ### The bytes -/

/-- **When `load_bin` loads the segments exactly** : for every image and every state of memory in
which no segment reaches beyond the last address, and for no other image that it accepts. -/
theorem load_bin_exact_iff (h : m.Consistent R userEntries D₀ F₀)
    (hbpt : ∀ i ∈ userEntries, ¬ isValid (m.mem bpt i)) (htable : im.TableInside) (k : ℕ)
    (sstatus : Riscv.Word) :
    (im.NoWrap → LoadsExactly im (loadBin k im bpt sstatus m)) ∧
    ((∃ m' vmm frame, (loadBin k im bpt sstatus m).result = .ok (m', some (vmm, frame), 0)) →
      (LoadsExactly im (loadBin k im bpt sstatus m) ↔ im.NoWrap)) := by
  have hexact : im.NoWrap → LoadsExactly im (loadBin k im bpt sstatus m) := by
    intro hwrap
    have hmeets := loadBin_meets h hbpt htable hwrap k sstatus
    refine ⟨hmeets.events, fun he => hmeets.error _ he rfl, fun m' vmm frame hres => ?_⟩
    obtain ⟨r, hr, hmap, hready⟩ := hmeets.result _ hres vmm frame rfl
    refine ⟨r, hr, fun i hi htype x hx => ?_⟩
    have hs := hready i hi htype
    rw [hs.u64_eq hmap hx]
    exact ⟨hs.lt_userEnd hmap hx, _, hs.bytes x hx⟩
  refine ⟨hexact, ?_⟩
  rintro ⟨m', vmm, frame, hres⟩
  refine ⟨fun hloads i hi htype => ?_, hexact⟩
  obtain ⟨r, -, hloaded⟩ := hloads.loaded m' vmm frame hres
  by_contra hno
  obtain ⟨x, hx, hout⟩ := wrap_not_user (im.pVa_lt i) (not_lt.1 hno)
  exact hout (hloaded i hi htype x hx).1

/-- The memory of the examples is in order. -/
theorem loadMm_consistent : ∃ F, loadMm.Consistent ∅ userEntries ∅ F := by
  refine pageTables_init (s := ⟨loadMm, ∅⟩) ⟨rfl, ⟨_, FreeSet.freeSet_oneBlock (p := 0x82000)
    (k := 32) (by decide) (by decide) (by decide), fun p _ => ?_, fun r hr => hr.elim⟩,
    fun r hr => hr.elim⟩
  simp only [Mm.ref, loadMm, FreeSet.oneBlock]
  split_ifs <;> rfl

theorem loadMm_bpt : ∀ i ∈ userEntries, ¬ isValid (loadMm.mem 0x80100 i) := fun _ _ => by
  rw [show loadMm.mem _ _ = 0 from rfl, isValid_zero]
  exact Bool.false_ne_true

theorem plainImage_noWrap : plainImage.NoWrap := by
  intro i hi _
  obtain rfl : i = 0 := Nat.lt_one_iff.1 hi
  decide

/-- A segment without a file part that begins in the middle of a page, and whose end wraps around
to the middle of that page. -/
def wrapImage : Image :=
  imageOf [⟨elfPtLoad, elfPfR, 0, 0x200800, 0, 2 ^ 64 - 0x400⟩] (by decide)

theorem wrapImage_contained : wrapImage.Contained := by
  refine ⟨by decide, Or.inr (by decide), fun i hi _ => Or.inl ?_⟩
  obtain rfl : i = 0 := Nat.lt_one_iff.1 hi
  decide

/-- The image is accepted, and not one byte of its segment is there. -/
theorem wrapping_segment_lost : wrapImage.Contained ∧
    (∃ m' vmm frame, (loadBin 40 wrapImage 0x80100 0 loadMm).result =
        .ok (m', some (vmm, frame), 0) ∧
      ∃ r, vmm.pGpt = some r ∧ m'.userByte r (wrapImage.header 0).pVa = none) ∧
    ¬ LoadsExactly wrapImage (loadBin 40 wrapImage 0x80100 0 loadMm) := by
  obtain ⟨m', vmm, frame, hres, htest⟩ := loadTest_spec
    (fun m vmm => vmm.pGpt.any fun r => m.userByte r (wrapImage.header 0).pVa = none)
    (show loadTest (loadBin 40 wrapImage 0x80100 0 loadMm) _ = true by decide +kernel)
  obtain ⟨r, hr, hnone⟩ := (Option.any_eq_true _ _).1 htest
  have hnone := of_decide_eq_true hnone
  refine ⟨wrapImage_contained, ⟨m', vmm, frame, hres, r, hr, hnone⟩, fun h => ?_⟩
  obtain ⟨r', hr', hloaded⟩ := h.loaded m' vmm frame hres
  obtain rfl := Option.some.inj (hr.symm.trans hr')
  obtain ⟨-, flags, hbyte⟩ := hloaded 0 (by decide) rfl 0 (by decide)
  rw [show u64 ((wrapImage.header 0).pVa + 0) = (wrapImage.header 0).pVa from by decide,
    hnone] at hbyte
  cases hbyte

/-- The theorem at an image with one small segment. -/
theorem load_bin_exact_plain : LoadsExactly plainImage (loadBin 40 plainImage 0x80100 0 loadMm) := by
  obtain ⟨F, hF⟩ := loadMm_consistent
  obtain ⟨m, vmm, frame, hres, -⟩ := loadTest_spec (fun _ _ => true)
    (show loadTest (loadBin 40 plainImage 0x80100 0 loadMm) _ = true by decide +kernel)
  exact ((load_bin_exact_iff hF loadMm_bpt plainImage_contained.table 40 0).2
    ⟨m, vmm, frame, hres⟩).2 plainImage_noWrap

/-! ### The permissions -/

theorem addVmFlags_eq (vmFlags pFlags : ℕ) :
    addVmFlags vmFlags pFlags = vmFlags ||| addVmFlags 0 pFlags := by
  unfold addVmFlags
  split_ifs <;> simp only [Nat.zero_or, Nat.or_zero, Nat.or_assoc]

/-- The permissions that two headers ask for. -/
theorem addVmFlags_or_iff (p q : ℕ) : addVmFlags 0 p ||| addVmFlags 0 q = addVmFlags 0 q ↔
    ∀ f ∈ [elfPfX, elfPfW, elfPfR], p &&& f ≠ 0 → q &&& f ≠ 0 := by
  simp only [List.forall_mem_cons, List.not_mem_nil, false_implies, implies_true, and_true,
    addVmFlags]
  split_ifs <;> simp_all [vmaExec, vmaWrite, vmaRead]

theorem or_or_eq_iff (a b c : ℕ) : a ||| b ||| c = c ↔ a ||| c = c ∧ b ||| c = c := by
  constructor
  · intro h
    constructor
    · calc a ||| c = a ||| (a ||| b ||| c) := by rw [h]
        _ = a ||| b ||| c := by rw [Nat.or_assoc, ← Nat.or_assoc a a, Nat.or_self]
        _ = c := h
    · calc b ||| c = b ||| (b ||| a ||| c) := by rw [Nat.or_comm b a, h]
        _ = b ||| a ||| c := by rw [Nat.or_assoc, ← Nat.or_assoc b b, Nat.or_self]
        _ = c := by rw [Nat.or_comm b a, h]
  · rintro ⟨ha, hb⟩
    rw [Nat.or_assoc, hb, ha]

/-- The flags that have been collected are those of a header just when all before it ask for no
more. -/
theorem vmFlags_or_eq_iff (q n : ℕ) : im.vmFlags n ||| addVmFlags 0 q = addVmFlags 0 q ↔
    ∀ j < n, (im.header j).pType = elfPtLoad →
      ∀ f ∈ [elfPfX, elfPfW, elfPfR], (im.header j).pFlags &&& f ≠ 0 → q &&& f ≠ 0 := by
  induction n with
  | zero => simp [Image.vmFlags]
  | succ n ih =>
    rw [Image.vmFlags, Nat.forall_lt_succ_right, ← ih]
    by_cases htype : (im.header n).pType = elfPtLoad
    · rw [if_pos htype, addVmFlags_eq, ← addVmFlags_or_iff, or_or_eq_iff]
      simp [htype]
    · rw [if_neg htype]
      simp [htype]

/-- All segments get their own permissions just when the permissions grow. -/
theorem permissionsGrow_iff : im.PermissionsGrow ↔ ∀ i < im.ePhnum,
    (im.header i).pType = elfPtLoad → im.vmFlags (i + 1) = addVmFlags 0 (im.header i).pFlags := by
  refine forall_congr' fun i => forall_congr' fun _ => forall_congr' fun htype => ?_
  rw [← vmFlags_or_eq_iff, Image.vmFlags, if_pos htype, addVmFlags_eq (im.vmFlags i)]

/-- **When the segments have the permissions that they ask for.**  In a program that `load_bin`
has accepted every segment has them just when no segment reaches beyond the last address, and none
lacks a permission that a segment before it has. -/
theorem load_bin_permissions_iff (h : m.Consistent R userEntries D₀ F₀)
    (hbpt : ∀ i ∈ userEntries, ¬ isValid (m.mem bpt i)) (htable : im.TableInside)
    (hres : (loadBin k im bpt sstatus m).result = .ok (m', some (vmm, frame), 0)) :
    (∃ r, vmm.pGpt = some r ∧ ∀ i < im.ePhnum, (im.header i).pType = elfPtLoad →
      SegmentPermitted (im.header i) m' vmm r) ↔ im.NoWrap ∧ im.PermissionsGrow := by
  have hready : im.NoWrap → ProgramReady im m' vmm := fun hwrap =>
    (loadBin_meets h hbpt htable hwrap k sstatus).result _ hres vmm frame rfl
  rw [permissionsGrow_iff]
  constructor
  · rintro ⟨r, hr, hperm⟩
    have hwrap : im.NoWrap := by
      intro i hi htype
      by_contra hno
      obtain ⟨x, hx, hout⟩ := wrap_not_user (im.pVa_lt i) (not_lt.1 hno)
      exact hout ((hperm i hi htype).pages x hx).1
    refine ⟨hwrap, fun i hi htype => ?_⟩
    obtain ⟨r', -, hmap, hsegments⟩ := hready hwrap
    obtain ⟨v, hv, hv'⟩ := (hsegments i hi htype).area
    obtain ⟨w, hw, hw'⟩ := (hperm i hi htype).area
    simp only [Vma.triple, Prod.mk.injEq] at hv' hw'
    -- two areas that begin at the same address are the same area
    have hvw : v = w := hmap.sorted.eq_of_mem (a := v.vmStart) hv hw ⟨le_rfl, hmap.nonempty v hv⟩
      ⟨by omega, by have := hmap.nonempty v hv; omega⟩
    rw [← hv'.2.2, ← hw'.2.2, hvw]
  · rintro ⟨hwrap, hflags⟩
    obtain ⟨r, hr, hmap, hsegments⟩ := hready hwrap
    refine ⟨r, hr, fun i hi htype => ?_⟩
    have hs := hsegments i hi htype
    have harea := hs.area
    rw [hflags i hi htype] at harea
    refine ⟨harea, fun x hx => ?_⟩
    rw [hs.u64_eq hmap hx, ← hflags i hi htype]
    exact ⟨hs.lt_userEnd hmap hx, _, hs.bytes x hx⟩

/-- A segment for code with these permissions, which has no bytes yet, and a segment with one byte
of data that may be read and written. -/
def codeDataImage (codeFlags : ℕ) : Image := imageOf
  [⟨elfPtLoad, codeFlags, 0, 0x800800, 0, 0⟩, ⟨elfPtLoad, elfPfR ||| elfPfW, 0, 0x900000, 0, 1⟩]
  (by simp)

/-- The permissions of the page of the data. -/
def dataFlags (m : Mm) (vmm : VmManager) : Option ℕ :=
  vmm.pGpt.bind fun r => (m.userByte r 0x900000).map Prod.fst

/-- The data of a program whose code may be executed can be executed, too.  With the same header,
the data of a program whose code may only be read cannot. -/
theorem data_is_executable : ∃ m vmm frame m₀ vmm₀ frame₀,
    (loadBin 40 (codeDataImage (elfPfR ||| elfPfX)) 0x80100 0 loadMm).result =
      .ok (m, some (vmm, frame), 0) ∧
    dataFlags m vmm = some (pteU ||| pteV ||| pteR ||| pteW ||| pteX) ∧
    (loadBin 40 (codeDataImage elfPfR) 0x80100 0 loadMm).result =
      .ok (m₀, some (vmm₀, frame₀), 0) ∧
    dataFlags m₀ vmm₀ = some (pteU ||| pteV ||| pteR ||| pteW) ∧
    ¬ ∃ r, vmm.pGpt = some r ∧ ∀ i < (codeDataImage (elfPfR ||| elfPfX)).ePhnum,
      ((codeDataImage (elfPfR ||| elfPfX)).header i).pType = elfPtLoad →
        SegmentPermitted ((codeDataImage (elfPfR ||| elfPfX)).header i) m vmm r := by
  obtain ⟨m, vmm, frame, hres, htest⟩ := loadTest_spec
    (fun m vmm => dataFlags m vmm = some (pteU ||| pteV ||| pteR ||| pteW ||| pteX))
    (show loadTest (loadBin 40 (codeDataImage (elfPfR ||| elfPfX)) 0x80100 0 loadMm) _ = true by
      decide +kernel)
  obtain ⟨m₀, vmm₀, frame₀, hres₀, htest₀⟩ := loadTest_spec
    (fun m vmm => dataFlags m vmm = some (pteU ||| pteV ||| pteR ||| pteW))
    (show loadTest (loadBin 40 (codeDataImage elfPfR) 0x80100 0 loadMm) _ = true by
      decide +kernel)
  have hflags := of_decide_eq_true htest
  refine ⟨m, vmm, frame, m₀, vmm₀, frame₀, hres, hflags, hres₀, of_decide_eq_true htest₀, ?_⟩
  rintro ⟨r, hr, hperm⟩
  obtain ⟨-, byte, hbyte⟩ := (hperm 1 (by decide) rfl).pages 0 (by decide)
  rw [dataFlags, hr, Option.bind_some, show (0x900000 : ℕ) =
    u64 (((codeDataImage (elfPfR ||| elfPfX)).header 1).pVa + 0) from by decide, hbyte] at hflags
  exact absurd (Option.some.inj hflags) (show areaPteFlags (addVmFlags 0
    ((codeDataImage (elfPfR ||| elfPfX)).header 1).pFlags) ≠
      pteU ||| pteV ||| pteR ||| pteW ||| pteX by decide)

/-- The theorem at the program whose code may only be read. -/
theorem load_bin_permissions_data : ∃ m' vmm frame,
    (loadBin 40 (codeDataImage elfPfR) 0x80100 0 loadMm).result = .ok (m', some (vmm, frame), 0) ∧
    ∃ r, vmm.pGpt = some r ∧ ∀ i < (codeDataImage elfPfR).ePhnum,
      ((codeDataImage elfPfR).header i).pType = elfPtLoad →
        SegmentPermitted ((codeDataImage elfPfR).header i) m' vmm r := by
  obtain ⟨F, hF⟩ := loadMm_consistent
  obtain ⟨m, vmm, frame, hres, -⟩ := loadTest_spec (fun _ _ => true)
    (show loadTest (loadBin 40 (codeDataImage elfPfR) 0x80100 0 loadMm) _ = true by decide +kernel)
  have htwo : ∀ i < (codeDataImage elfPfR).ePhnum, i = 0 ∨ i = 1 := by
    intro i hi
    have hi : i < 2 := hi
    omega
  refine ⟨m, vmm, frame, hres, (load_bin_permissions_iff hF loadMm_bpt (Or.inr (by decide)) hres).2
    ⟨fun i hi _ => ?_, fun i hi _ j hj _ => ?_⟩⟩
  · obtain rfl | rfl := htwo i hi
    · decide
    · decide
  · obtain rfl : j = 0 := by
      have := htwo i hi
      omega
    obtain rfl : i = 1 := by
      have := htwo i hi
      omega
    decide

end GarretOS
