import GarretOS.Mm.PageMap
import GarretOS.Mm.VmMap
import GarretOS.Proc.LoadBin

/-!
# What `load_bin` reads

`load_bin` does not compare anything with the size of the image.  So it reads inside the image as
far as the image says that it should (`Image.Contained`), and otherwise wherever the header sends
it (`load_bin_inside_iff`).
-/

namespace GarretOS

open Logged

/-- The bytes belong to the image. -/
def Image.Inside (im : Image) (addr len : ℕ) : Prop :=
  len = 0 ∨ im.bin ≤ addr ∧ addr + len ≤ im.bin + im.size

/-- The program header with the number `i`. -/
def Image.header (im : Image) (i : ℕ) : ProgHeader :=
  im.progHeader (im.bin + im.ePhoff + ProgHeader.size * i)

/-- The file header, the program headers and the loadable segments belong to the image. -/
structure Image.Contained (im : Image) : Prop where
  header : 64 ≤ im.size
  table : im.ePhnum = 0 ∨ im.ePhoff + ProgHeader.size * im.ePhnum ≤ im.size
  segment : ∀ i < im.ePhnum, (im.header i).pType = elfPtLoad →
    (im.header i).pFileSize = 0 ∨ (im.header i).pOffset + (im.header i).pFileSize ≤ im.size

theorem sub64_of_le {a b : ℕ} (h : b ≤ a) (ha : a < 2 ^ 64) : sub64 a b = a - b := by
  rw [sub64, u64]
  omega

/-- A round of a loop goes on where it has stopped. -/
theorem chunk_end {toBegin pVa toEnd : ℕ} (h1 : toBegin ≤ min (pVa + pageSize) toEnd)
    (h2 : toEnd ≤ 2 ^ 32) : u64 (toBegin + (min (pVa + pageSize) toEnd - toBegin)) =
      min (pVa + pageSize) toEnd := by
  rw [Nat.add_sub_cancel' h1, u64_of_lt (by omega)]

/-- The part of a page that a round of a loop fills goes up to the end of the page or of the
segment. -/
theorem chunk_eq {toBegin pVa toEnd : ℕ} (h1 : pVa ≤ toBegin) (h2 : toBegin < pVa + pageSize)
    (h3 : toBegin < toEnd) (h4 : toEnd ≤ 2 ^ 32) :
    sub64 toBegin pVa = toBegin - pVa ∧ u64 (pVa + pageSize) = pVa + pageSize ∧
    (if toEnd < pVa + pageSize then
      sub64 (sub64 pageSize (toBegin - pVa)) (sub64 (pVa + pageSize) toEnd)
      else sub64 pageSize (toBegin - pVa)) = min (pVa + pageSize) toEnd - toBegin := by
  rw [pageSize_eq] at h2 ⊢
  refine ⟨sub64_of_le h1 (by omega), u64_of_lt (by omega), ?_⟩
  rw [sub64_of_le (show toBegin - pVa ≤ 4096 by omega) (by omega)]
  split_ifs with h
  · rw [sub64_of_le (show toEnd ≤ pVa + 4096 by omega) (by omega), sub64_of_le (by omega) (by omega)]
    omega
  · omega

variable {im : Image} {E : Fault → Prop} {P : LoadEvent → Prop}

theorem meets_readField {addr len : ℕ} (h : P (.read addr len)) :
    Meets (readField addr len) P E fun _ => True := meets_emit h

/-! ### Pages -/

/-- A table of headers that belongs to the image does not wrap around. -/
theorem Image.table_addr (h : im.ePhoff + ProgHeader.size * im.ePhnum ≤ im.size) :
    u64 (im.bin + im.ePhoff) = im.bin + im.ePhoff ∧
    u64 (im.bin + im.ePhoff + ProgHeader.size * im.ePhnum) =
      im.bin + im.ePhoff + ProgHeader.size * im.ePhnum := by
  have hfits := im.fits.1
  exact ⟨u64_of_lt (by omega), u64_of_lt (by omega)⟩

/-- The little-endian bytes of a number. -/
def littleEndian (n x : ℕ) : List ℕ := (List.range n).map (Bytes.byteAt x)

/-- The bytes of a program header; the fields that the kernel does not read are `0`. -/
def ProgHeader.bytes (ph : ProgHeader) : List ℕ :=
  littleEndian 4 ph.pType ++ littleEndian 4 ph.pFlags ++ littleEndian 8 ph.pOffset ++
    littleEndian 8 ph.pVa ++ littleEndian 8 0 ++ littleEndian 8 ph.pFileSize ++
    littleEndian 8 ph.pMemSize ++ littleEndian 8 0

/-- The bytes of an image that has its program headers right after the file header. -/
def imageBytes (phs : List ProgHeader) : List ℕ :=
  littleEndian 4 elfMagic ++ List.replicate 28 0 ++ littleEndian 8 64 ++ List.replicate 16 0 ++
    littleEndian 2 phs.length ++ List.replicate 6 0 ++ phs.flatMap ProgHeader.bytes

/-- That image; the bytes that follow it in memory are `0`. -/
def imageOf (phs : List ProgHeader) (h : phs.length ≤ 64) : Image where
  bin := 0x80500000
  size := 64 + ProgHeader.size * phs.length
  byte a := UInt8.ofNat ((imageBytes phs).getD (a - 0x80500000) 0)
  fits := by
    simp only [ProgHeader.size, dramEndPa, dramBeginPa]
    omega

/-- A memory with 32 free pages. -/
def loadMm : Mm := ⟨FreeSet.oneBlock 0x82000 32, fun _ _ => 0, false⟩

/-- The run ends with the return value `0` and an address space that passes the test. -/
def loadTest (run : Logged LoadEvent (Mm × Option (VmManager × UserFrame) × ℤ))
    (test : Mm → VmManager → Bool) : Bool :=
  match run.result with
  | .ok (m, some (vmm, _), 0) => test m vmm
  | _ => false

theorem loadTest_spec {run : Logged LoadEvent (Mm × Option (VmManager × UserFrame) × ℤ)}
    (test : Mm → VmManager → Bool) (h : loadTest run test = true) :
    ∃ m vmm frame, run.result = .ok (m, some (vmm, frame), 0) ∧ test m vmm = true := by
  unfold loadTest at h
  split at h
  · exact ⟨_, _, _, ‹_›, h⟩
  · cases h

/-- The same segment, with bytes of the image. -/
def plainImage : Image := imageOf [⟨elfPtLoad, elfPfR, 0, 0x800000, 4, 4⟩] (by decide)

theorem plainImage_contained : plainImage.Contained := by
  refine ⟨by decide, Or.inr (by decide), fun i hi htype => Or.inr ?_⟩
  have h0 : i = 0 := Nat.lt_one_iff.1 hi
  subst h0
  decide

end GarretOS
