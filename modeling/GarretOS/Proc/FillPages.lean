import GarretOS.Mm.Stops
import GarretOS.Proc.UserBytes

/-!
# Filling the pages of a segment

The loops of `load_bin` over the pages of a segment share the variables `to_begin`, `p_va` and
`page`.  `Filled` says what such a loop does to user memory: it maps the pages of a range and fills
some of their bytes, and other pages stay as they are.

* `fillLoop_meets`, `fillTail_meets` : the loops, and the step between them;
* `fillSegment_meets` : together they fill the pages of a segment with its bytes.

All of them write inside pages only, and do not fail the assertion of `load_bin`.
-/

namespace GarretOS

open Logged

/-- The condition of the assertion in `load_bin`. -/
def tailCond : String :=
  "(to_end < p_va && to_begin == to_end) || (to_end >= p_va && to_begin == p_va)"

/-- The kernel does not stop at that assertion. -/
def NotTail (f : Fault) : Prop := f ≠ .assertion tailCond

/-- What is written is a part of a page. -/
def LoadEvent.InPage : LoadEvent → Prop
  | .read _ _ => True
  | .write off size => off + size ≤ pageSize

theorem mm_ne_tail : ∀ c ∈ mmAssertions, c ∉ [tailCond] := by decide

theorem notTail_of_avoids {α : Type} {x : Res α} (h : Avoids [tailCond] x) (f : Fault)
    (hf : x = .error f) : NotTail f := by
  rintro rfl
  exact h _ (List.mem_singleton_self _) hf

/-- The pages from `start` to `stop` are mapped with the permissions `flags`, and the bytes from
`lo` to `hi` are those of `f`; the other pages are as before. -/
structure Filled (m m' : Mm) (r flags start stop lo hi : ℕ) (f : ℕ → ℕ) : Prop where
  inside : ∀ b < userEnd, start ≤ b → b < stop →
    ∃ x, m'.userByte r b = some (flags, x) ∧ (lo ≤ b → b < hi → x = f b)
  outside : ∀ b < userEnd, ¬ (start ≤ b ∧ b < stop) → m'.userByte r b = m.userByte r b

namespace Filled

variable {m m₁ m' : Mm} {r flags start mid stop lo hi : ℕ} {f g : ℕ → ℕ}

theorem congr (h : Filled m m' r flags start stop lo hi f)
    (hfg : ∀ b, lo ≤ b → b < hi → f b = g b) : Filled m m' r flags start stop lo hi g := by
  refine ⟨fun b hb h1 h2 => ?_, h.outside⟩
  obtain ⟨x, hx, hxf⟩ := h.inside b hb h1 h2
  exact ⟨x, hx, fun h3 h4 => (hxf h3 h4).trans (hfg b h3 h4)⟩

/-- First the pages up to an address, then the pages from there on. -/
theorem trans (h : Filled m m₁ r flags start mid lo mid f)
    (h' : Filled m₁ m' r flags mid stop mid hi f) (h1 : start ≤ mid) (h2 : mid ≤ stop) :
    Filled m m' r flags start stop lo hi f := by
  refine ⟨fun b hb h3 h4 => ?_, fun b hb hout => ?_⟩
  · rcases lt_or_ge b mid with hlt | hge
    · obtain ⟨x, hx, hxf⟩ := h.inside b hb h3 hlt
      exact ⟨x, (h'.outside b hb (by omega)).trans hx, fun h5 _ => hxf h5 hlt⟩
    · obtain ⟨x, hx, hxf⟩ := h'.inside b hb hge h4
      exact ⟨x, hx, fun _ h6 => hxf hge h6⟩
  · rw [h'.outside b hb (by omega), h.outside b hb (by omega)]

/-- More bytes of pages that are mapped already. -/
theorem extend {hi' : ℕ} (h : Filled m m₁ r flags start stop lo hi f)
    (h' : ∀ b < userEnd, m'.userByte r b =
      if hi ≤ b ∧ b < hi' then some (flags, f b) else m₁.userByte r b)
    (h1 : start ≤ hi) (h2 : hi' ≤ stop) : Filled m m' r flags start stop lo hi' f := by
  refine ⟨fun b hb h3 h4 => ?_, fun b hb hout => ?_⟩
  · rw [h' b hb]
    split_ifs with hnew
    · exact ⟨f b, rfl, fun _ _ => rfl⟩
    · obtain ⟨x, hx, hxf⟩ := h.inside b hb h3 h4
      exact ⟨x, hx, fun h5 h6 => hxf h5 (by omega)⟩
  · rw [h' b hb, if_neg (by omega)]
    exact h.outside b hb hout

end Filled

/-- Where a loop that has filled pages up to `to_end` leaves the variables: `page` is the last page
of the range, the one before `p_va`. -/
structure LoadVars.AtEnd (vars : LoadVars) (m : Mm) (r flags toEnd : ℕ) : Prop where
  toBegin : vars.toBegin = toEnd
  aligned : vars.pVa % pageSize = 0
  le : toEnd ≤ vars.pVa
  lt : vars.pVa < toEnd + pageSize
  page : ∃ pte, vars.page = some (pte2ppn pte) ∧ pteFlags pte = flags ∧
    m.entry r (vars.pVa - pageSize) = some pte

section

variable (im : Image) {R D₀ A : Set ℕ} {r flags toEnd : ℕ}

/-- What follows when the bytes up to `to_begin + size` are there. -/
theorem fillByte_advance (fromBegin : Option ℕ) (size i : ℕ) :
    Mm.fillByte im (fromBegin.map fun a => u64 (a + size)) i =
      Mm.fillByte im fromBegin (size + i) := by
  cases fromBegin with
  | none => rfl
  | some a =>
    simp only [Mm.fillByte, Option.map_some, Image.at, u64]
    rw [Nat.mod_add_mod, Nat.add_assoc]

/-- **One round of a loop** : a page is allocated, and a part of it is filled. -/
theorem fillRound_meets (fromBegin : Option ℕ) {m m₁ : Mm} {page pVa toBegin stop : ℕ}
    (h : ∃ D F, m.Owned R D₀ r A ∅ D F) (hf : flags < 1024) (haligned : pVa % pageSize = 0)
    (h1 : pVa ≤ toBegin) (h2 : toBegin ≤ stop) (h3 : stop ≤ pVa + pageSize) (h4 : pVa < userEnd)
    (hres : m.allocPageGpte r pVa flags = .ok (m₁, some page)) :
    Meets (m₁.fillPage im page (toBegin - pVa) fromBegin (stop - toBegin)) LoadEvent.InPage NotTail
      fun m' => (∃ D F, m'.Owned R D₀ r A ∅ D F) ∧
        (∃ pte, page = pte2ppn pte ∧ pteFlags pte = pteV ||| flags ∧ m'.entry r pVa = some pte) ∧
        Filled m m' r (pteV ||| flags) pVa (pVa + pageSize) toBegin stop
          fun b => Mm.fillByte im fromBegin (b - toBegin) := by
  obtain ⟨D, F, h⟩ := h
  obtain ⟨⟨D₁, F₁, h₁⟩, ⟨-, hpool⟩, hentry, hother⟩ := h.allocPageGpte_bytes h4 hf hres
  have hp : page < 2 ^ 54 := by
    rw [poolEnd_eq] at hpool
    omega
  have hflags := (pteV_or hf).1
  obtain ⟨pte, hpte⟩ : ∃ pte, pte = ppn2pte page (pteV ||| flags) := ⟨_, rfl⟩
  have hpage : page = pte2ppn pte := by rw [hpte, pte2ppn_ppn2pte hp hflags]
  have hperm : pteFlags pte = pteV ||| flags := by rw [hpte, pteFlags_ppn2pte hp hflags]
  rw [← hpte] at hentry
  rw [hpage]
  refine (h₁.fillPage_bytes (P := LoadEvent.InPage) (E := NotTail) h4 hentry ?_ ?_ ?_ ?_).mono ?_
  · omega
  · exact fun _ => trivial
  · show toBegin - pVa + (stop - toBegin) ≤ pageSize
    omega
  · exact fun f hf => notTail_of_avoids (page2va_avoids mm_ne_tail _) f hf
  rintro m' ⟨ho, hentry', hbytes⟩
  rw [pageSize_eq] at haligned h3
  refine ⟨⟨D₁, F₁, ho⟩, ⟨pte, rfl, hperm, hentry'⟩, fun b hb h5 h6 => ?_, fun b hb hout => ?_⟩
  · -- a byte of the new page
    rw [pageSize_eq] at h6
    have hsame : b / pageSize = pVa / pageSize := by
      rw [pageSize_eq]
      omega
    rw [hbytes b hb]
    by_cases hin : toBegin ≤ b ∧ b < stop
    · rw [if_pos ⟨hsame, by rw [pageSize_eq]; omega, by rw [pageSize_eq]; omega⟩, hperm]
      refine ⟨_, rfl, fun _ _ => ?_⟩
      rw [show b % pageSize - (toBegin - pVa) = b - toBegin by rw [pageSize_eq]; omega]
    · rw [if_neg fun hc => hin (by rw [pageSize_eq] at hc; omega), Mm.userByte,
        Mm.entry_congr_page h4 hb hsame, hentry, Option.map_some, hperm]
      exact ⟨_, rfl, fun h7 h8 => absurd ⟨h7, h8⟩ hin⟩
  · have hne : b / pageSize ≠ pVa / pageSize := fun he => hout (by
      rw [pageSize_eq] at he ⊢
      omega)
    rw [hbytes b hb, if_neg fun hc => hne hc.1, hother b hb hne]

/-- **A loop over pages** fills the bytes up to `to_end`. -/
theorem fillLoop_meets (hf : flags < 1024) (hend : toEnd ≤ userEnd) (k : ℕ) {m : Mm}
    (fromBegin : Option ℕ) (vars : LoadVars) (h : ∃ D F, m.Owned R D₀ r A ∅ D F)
    (haligned : vars.pVa % pageSize = 0) (hvars : vars.toBegin < toEnd →
      vars.pVa ≤ vars.toBegin ∧ vars.toBegin < vars.pVa + pageSize) :
    Meets (fillLoop im r flags toEnd k m fromBegin vars) LoadEvent.InPage NotTail fun res =>
      res.2.1 = 0 → (∃ D F, res.1.Owned R D₀ r A ∅ D F) ∧
        if vars.toBegin < toEnd then
          res.2.2.AtEnd res.1 r (pteV ||| flags) toEnd ∧
          Filled m res.1 r (pteV ||| flags) vars.pVa res.2.2.pVa vars.toBegin toEnd
            fun b => Mm.fillByte im fromBegin (b - vars.toBegin)
        else res.1 = m ∧ res.2.2 = vars := by
  induction k generalizing m fromBegin vars with
  | zero => exact meets_lift (fun f hf => by cases hf; simp [NotTail]) fun _ h => by cases h
  | succ k ih =>
    unfold fillLoop
    by_cases hlt : vars.toBegin < toEnd
    · obtain ⟨h1, h2⟩ := hvars hlt
      have hue : userEnd = 0x80000000 := rfl
      have hps := pageSize_eq
      have hnext : (vars.pVa + pageSize) % pageSize = 0 := by rw [Nat.add_mod_right, haligned]
      obtain ⟨h3, h4, h5⟩ := chunk_eq h1 h2 hlt (by omega)
      simp only [hlt, if_true]
      refine (meets_lift (notTail_of_avoids (Mm.allocPageGpte_avoids mm_ne_tail m r _ flags))
        fun res hres => hres).bind ?_
      rintro ⟨m₁, _ | page⟩ hres
      · exact meets_pure fun h0 => absurd h0 (show -eNoMem ≠ 0 by decide)
      simp only [h3, h4, h5]
      have hround := fillRound_meets im fromBegin h hf haligned h1
        (show vars.toBegin ≤ min (vars.pVa + pageSize) toEnd by omega) (min_le_left _ _)
        (by omega) hres
      refine hround.bind ?_
      rintro m₂ ⟨ho, ⟨pte, hpage, hperm, hentry⟩, hfill⟩
      rw [chunk_end (show vars.toBegin ≤ min (vars.pVa + pageSize) toEnd by omega) (by omega)]
      refine (ih _ ⟨min (vars.pVa + pageSize) toEnd, vars.pVa + pageSize, some page⟩ ho
        hnext (by simp only; omega)).mono ?_
      rintro ⟨m', ret, vars'⟩ hrest h0
      obtain ⟨ho', hrest⟩ := hrest h0
      refine ⟨ho', ?_⟩
      simp only at hrest ⊢
      by_cases hmore : vars.pVa + pageSize < toEnd
      · -- more pages follow, and they begin on a page boundary
        have hmin : min (vars.pVa + pageSize) toEnd = vars.pVa + pageSize := by omega
        rw [hmin] at hfill hrest
        rw [if_pos hmore] at hrest
        obtain ⟨hat, hfill'⟩ := hrest
        refine ⟨hat, hfill.trans (hfill'.congr fun b hb _ => ?_) (by omega) ?_⟩
        · rw [fillByte_advance im]
          exact congrArg (Mm.fillByte im fromBegin) (by omega)
        · have := hat.le
          omega
      · have hmin : min (vars.pVa + pageSize) toEnd = toEnd := by omega
        rw [hmin] at hfill hrest
        rw [if_neg (lt_irrefl _)] at hrest
        obtain ⟨rfl, rfl⟩ := hrest
        refine ⟨⟨rfl, hnext, by simp only; omega, by simp only; omega, pte, ?_, hperm,
          ?_⟩, hfill⟩
        · rw [hpage]
        · rw [Nat.add_sub_cancel]
          exact hentry
    · simp only [hlt, if_false]
      exact meets_pure fun _ => ⟨h, rfl, rfl⟩

/-- The offset and the number of the zeros after the file. -/
theorem LoadVars.AtEnd.chunk {m : Mm} {vars : LoadVars} {toEnd' : ℕ}
    (hat : vars.AtEnd m r flags toEnd) (hlt : toEnd < vars.pVa) (hmem : toEnd ≤ toEnd')
    (hend : toEnd' ≤ userEnd) :
    sub64 (u64 (vars.toBegin + pageSize)) vars.pVa = toEnd - (vars.pVa - pageSize) ∧
    (if toEnd' < vars.pVa then
      sub64 (sub64 pageSize (toEnd - (vars.pVa - pageSize))) (sub64 vars.pVa toEnd')
      else sub64 pageSize (toEnd - (vars.pVa - pageSize))) = min vars.pVa toEnd' - toEnd ∧
    u64 (vars.toBegin + (min vars.pVa toEnd' - toEnd)) = min vars.pVa toEnd' := by
  have h1 := hat.le
  have h2 := hat.lt
  have h3 := hat.aligned
  have h4 := hat.toBegin
  have hue : userEnd = 0x80000000 := rfl
  rw [pageSize_eq] at h2 h3 ⊢
  refine ⟨?_, ?_, ?_⟩
  · rw [h4, u64_of_lt (by omega), sub64_of_le (by omega) (by omega)]
    omega
  · rw [sub64_of_le (show toEnd - (vars.pVa - 4096) ≤ 4096 by omega) (by omega)]
    split_ifs with hc
    · rw [sub64_of_le (show toEnd' ≤ vars.pVa by omega) (by omega),
        sub64_of_le (by omega) (by omega)]
      omega
    · omega
  · rw [h4, u64_of_lt (by omega)]
    omega

/-- **The zeros after the file** go up to the end of the last page, or of the segment, and the
assertion holds. -/
theorem fillTail_meets {m : Mm} {vars : LoadVars} {toEnd' : ℕ}
    (h : ∃ D F, m.Owned R D₀ r A ∅ D F) (hat : vars.AtEnd m r flags toEnd)
    (hlt : toEnd < vars.pVa) (hmem : toEnd ≤ toEnd') (hend : toEnd' ≤ userEnd) :
    Meets (fillTail im toEnd' m vars) LoadEvent.InPage NotTail fun res =>
      (∃ D F, res.1.Owned R D₀ r A ∅ D F) ∧ res.2.toBegin = min vars.pVa toEnd' ∧
      res.2.pVa = vars.pVa ∧ ∀ b < userEnd, res.1.userByte r b =
        if toEnd ≤ b ∧ b < min vars.pVa toEnd' then some (flags, 0) else m.userByte r b := by
  obtain ⟨D, F, h⟩ := h
  obtain ⟨pte, hpage, hperm, hentry⟩ := hat.page
  obtain ⟨hoff, hsize, hstop⟩ := hat.chunk hlt hmem hend
  have h1 := hat.le
  have h2 := hat.lt
  have h3 := hat.aligned
  have hue : userEnd = 0x80000000 := rfl
  rw [pageSize_eq] at h2 h3
  have hau : vars.pVa - pageSize < userEnd := by
    rw [pageSize_eq]
    omega
  unfold fillTail
  simp only [hpage, hoff, hsize]
  refine Meets.bind (h.fillPage_bytes (P := LoadEvent.InPage) (E := NotTail) hau hentry ?_ ?_ ?_ ?_)
    ?_
  · rw [pageSize_eq]
    omega
  · exact fun _ => trivial
  · show toEnd - (vars.pVa - pageSize) + (min vars.pVa toEnd' - toEnd) ≤ pageSize
    rw [pageSize_eq]
    omega
  · exact fun f hf => notTail_of_avoids (page2va_avoids mm_ne_tail _) f hf
  rintro m' ⟨ho, -, hbytes⟩
  simp only [hstop]
  rw [assert_of (by omega)]
  refine Meets.bind (meets_lift (fun f hf => by cases hf) fun _ _ => trivial) fun _ _ =>
    meets_pure ⟨⟨D, F, ho⟩, rfl, rfl, fun b hb => ?_⟩
  rw [hbytes b hb, hperm]
  refine if_congr ?_ rfl rfl
  rw [pageSize_eq]
  omega

end

/-! ### Segments -/

/-- The byte of a segment with the number `i`. -/
def Image.segmentByte (im : Image) (ph : ProgHeader) (i : ℕ) : ℕ :=
  if i < ph.pFileSize then im.at (im.bin + ph.pOffset + i) else 0

section

variable (im : Image) {ph : ProgHeader} {R D₀ A : Set ℕ} {r flags : ℕ}

theorem fillByte_file {b : ℕ} (h1 : ph.pVa ≤ b) (h2 : b < ph.pVa + ph.pFileSize) :
    Mm.fillByte im (some (u64 (im.bin + ph.pOffset))) (b - ph.pVa) =
      im.segmentByte ph (b - ph.pVa) := by
  rw [Image.segmentByte, if_pos (by omega), Mm.fillByte, Image.at, Image.at, u64, u64, u64,
    Nat.mod_add_mod]

theorem segmentByte_zero {b : ℕ} (h : ph.pVa + ph.pFileSize ≤ b) :
    im.segmentByte ph (b - ph.pVa) = 0 := by
  rw [Image.segmentByte, if_neg (by omega)]

/-- The segment has been loaded: its bytes are there, and nothing has changed outside its pages. -/
structure SegmentFilled (im : Image) (ph : ProgHeader) (m m' : Mm) (r flags : ℕ) : Prop where
  bytes : ∀ i < ph.pMemSize, m'.userByte r (ph.pVa + i) = some (flags, im.segmentByte ph i)
  outside : ∀ b < userEnd,
    ¬ (rounddown ph.pVa pageSize ≤ b ∧ b < pagesEnd ph.pVa ph.pMemSize) →
    m'.userByte r b = m.userByte r b

/-- All pages of the segment have been filled. -/
theorem Filled.segment {m m' : Mm} {stop : ℕ}
    (h : Filled m m' r flags (rounddown ph.pVa pageSize) stop ph.pVa (ph.pVa + ph.pMemSize)
      fun b => im.segmentByte ph (b - ph.pVa)) (hend : ph.pVa + ph.pMemSize ≤ userEnd)
    (h1 : ph.pVa + ph.pMemSize ≤ stop) (h2 : stop < ph.pVa + ph.pMemSize + pageSize)
    (h3 : stop % pageSize = 0) : SegmentFilled im ph m m' r flags := by
  have hstop : stop = pagesEnd ph.pVa ph.pMemSize := by
    rw [pageSize_eq] at h2 h3
    rw [pagesEnd, pageSize_eq]
    omega
  have hle : rounddown ph.pVa pageSize ≤ ph.pVa := Nat.div_mul_le_self ..
  refine ⟨fun i hi => ?_, hstop ▸ h.outside⟩
  obtain ⟨x, hx, hxi⟩ := h.inside (ph.pVa + i) (by omega) (by omega) (by omega)
  rw [hx, hxi (by omega) (by omega), Nat.add_sub_cancel_left]

/-- The loop over the rest of a segment, when the file has been read. -/
theorem fillRest_meets (hf : flags < 1024) (hend : ph.pVa + ph.pMemSize ≤ userEnd) (k : ℕ)
    {m₀ m : Mm} {vars : LoadVars} (h : ∃ D F, m.Owned R D₀ r A ∅ D F)
    (haligned : vars.pVa % pageSize = 0) (hfile : ph.pVa + ph.pFileSize ≤ vars.toBegin)
    (hle : vars.toBegin ≤ ph.pVa + ph.pMemSize)
    (hcase : vars.toBegin < ph.pVa + ph.pMemSize → vars.toBegin = vars.pVa)
    (hpage : vars.toBegin ≤ vars.pVa) (hlt : vars.pVa < vars.toBegin + pageSize)
    (hfill : Filled m₀ m r (pteV ||| flags) (rounddown ph.pVa pageSize) vars.pVa ph.pVa vars.toBegin
      fun b => im.segmentByte ph (b - ph.pVa)) :
    Meets (fillLoop im r flags (ph.pVa + ph.pMemSize) k m none vars) LoadEvent.InPage NotTail
      fun res => res.2.1 = 0 → (∃ D F, res.1.Owned R D₀ r A ∅ D F) ∧
        SegmentFilled im ph m₀ res.1 r (pteV ||| flags) := by
  refine (fillLoop_meets im hf hend k none vars h haligned fun hlt' => ?_).mono ?_
  · have := hcase hlt'
    rw [pageSize_eq]
    omega
  rintro ⟨m', ret, vars'⟩ hres h0
  obtain ⟨ho, hres⟩ := hres h0
  refine ⟨ho, ?_⟩
  simp only at hres ⊢
  by_cases hmore : vars.toBegin < ph.pVa + ph.pMemSize
  · rw [if_pos hmore] at hres
    obtain ⟨hat, hfill'⟩ := hres
    have heq := hcase hmore
    rw [heq] at hfill hfill'
    have hround : rounddown ph.pVa pageSize ≤ ph.pVa := Nat.div_mul_le_self ..
    have hle' := hat.le
    refine Filled.segment im (hfill.trans (hfill'.congr fun b hb _ => ?_) ?_ ?_) hend hat.le hat.lt
      hat.aligned
    · rw [segmentByte_zero im (by omega)]
      rfl
    · omega
    · omega
  · rw [if_neg hmore] at hres
    obtain ⟨rfl, rfl⟩ := hres
    have heq : vars'.toBegin = ph.pVa + ph.pMemSize := by omega
    rw [heq] at hfill
    exact hfill.segment im hend (by omega) (by omega) haligned

theorem rounddown_pageSize (a : ℕ) : rounddown a pageSize ≤ a ∧
    a < rounddown a pageSize + pageSize ∧ rounddown a pageSize % pageSize = 0 := by
  rw [rounddown, pageSize_eq]
  omega

/-- **The pages of a segment** that ends in user memory are filled with its bytes. -/
theorem fillSegment_meets (hf : flags < 1024) (hend : ph.pVa + ph.pMemSize ≤ userEnd)
    (hsize : ph.pFileSize ≤ ph.pMemSize) (k : ℕ) {m : Mm} (h : ∃ D F, m.Owned R D₀ r A ∅ D F) :
    Meets (fillSegment k im ph r flags m) LoadEvent.InPage NotTail fun res =>
      res.2 = 0 → (∃ D F, res.1.Owned R D₀ r A ∅ D F) ∧
        SegmentFilled im ph m res.1 r (pteV ||| flags) := by
  have hue : userEnd = 0x80000000 := rfl
  have hps := pageSize_eq
  obtain ⟨h1, h2, h3⟩ := rounddown_pageSize ph.pVa
  unfold fillSegment
  rw [u64_of_lt (show ph.pVa + ph.pFileSize < 2 ^ 64 by omega),
    u64_of_lt (show ph.pVa + ph.pMemSize < 2 ^ 64 by omega)]
  refine (fillLoop_meets im hf (by omega) k _ _ h h3 fun _ => ⟨h1, h2⟩).bind ?_
  rintro ⟨m₁, ret, vars⟩ hfile
  simp only at hfile ⊢
  by_cases hret : ret = 0
  swap
  · rw [if_pos hret]
    exact meets_pure fun h0 => absurd h0 hret
  obtain ⟨ho₁, hfile⟩ := hfile hret
  rw [if_neg (not_not.2 hret)]
  by_cases hsome : ph.pVa < ph.pVa + ph.pFileSize
  · -- the file part ends in the last page that has been filled
    rw [if_pos hsome] at hfile
    obtain ⟨hat, hfill⟩ := hfile
    have hle := hat.le
    have hlt := hat.lt
    have hbegin := hat.toBegin
    have hfill := hfill.congr fun b hb hb' => fillByte_file im hb hb'
    by_cases hpage : vars.toBegin < vars.pVa
    · rw [if_pos hpage]
      by_cases hdone : vars.toBegin = ph.pVa + ph.pMemSize
      · rw [if_pos hdone]
        refine meets_pure fun _ => ⟨ho₁, ?_⟩
        rw [← hbegin, hdone] at hfill
        exact hfill.segment im hend (by omega) (by omega) hat.aligned
      · rw [if_neg hdone]
        refine (fillTail_meets im ho₁ hat (by omega) (by omega) hend).bind ?_
        rintro ⟨m₂, vars₂⟩ ⟨ho₂, hbegin₂, hva₂, hzero⟩
        simp only at ho₂ hbegin₂ hva₂ hzero ⊢
        have hfill₂ : Filled m m₂ r (pteV ||| flags) (rounddown ph.pVa pageSize) vars₂.pVa ph.pVa
            vars₂.toBegin fun b => im.segmentByte ph (b - ph.pVa) := by
          rw [hva₂, hbegin₂]
          refine hfill.extend (fun b hb => ?_) (by omega) (min_le_left _ _)
          rw [hzero b hb]
          split_ifs with hin
          · rw [segmentByte_zero im hin.1]
          · rfl
        refine (fillRest_meets im hf hend k ho₂ (by rw [hva₂]; exact hat.aligned) (by omega) (by omega)
          (by omega) (by omega) (by omega) hfill₂).bind ?_
        rintro ⟨m₃, ret₃, vars₃⟩ hres
        exact meets_pure hres
    · rw [if_neg hpage]
      rw [← hbegin] at hfill
      refine (fillRest_meets im hf hend k ho₁ hat.aligned (by omega) (by omega) (by omega) (by omega)
        (by omega) hfill).bind ?_
      rintro ⟨m₃, ret₃, vars₃⟩ hres
      exact meets_pure hres
  · -- there is no file part, and the loop over zeros begins the first page
    rw [if_neg hsome] at hfile
    obtain ⟨rfl, rfl⟩ := hfile
    rw [if_neg (by simp only; omega)]
    refine (fillLoop_meets im hf hend k none ⟨ph.pVa, rounddown ph.pVa pageSize, none⟩ ho₁ h3
      fun _ => ⟨h1, h2⟩).bind ?_
    rintro ⟨m₂, ret₂, vars₂⟩ hres
    refine meets_pure fun h0 => ?_
    obtain ⟨ho₂, hres⟩ := hres h0
    refine ⟨ho₂, ?_⟩
    simp only at hres ⊢
    by_cases hmore : ph.pVa < ph.pVa + ph.pMemSize
    · rw [if_pos hmore] at hres
      obtain ⟨hat, hfill⟩ := hres
      refine (hfill.congr fun b hb _ => ?_).segment im hend hat.le hat.lt hat.aligned
      rw [segmentByte_zero im (by omega)]
      rfl
    · rw [if_neg hmore] at hres
      obtain ⟨rfl, -⟩ := hres
      exact ⟨fun i hi => absurd hi (by omega), fun _ _ _ => rfl⟩

end

end GarretOS
