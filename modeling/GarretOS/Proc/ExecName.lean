import GarretOS.Proc.LoadBin

/-!
# The name of a program

`do_execve` copies the string `name` to the array `temp_name` on the kernel stack, and from there to
the field `name` of the process, each time by `strcpy`, which goes on until it has copied a NUL.

* `do_execve_name` : all bytes that are read and written are where they should be, and the name that
  is stored is the one of the caller, if and only if the string has a NUL early enough.
-/

namespace GarretOS

/-! ### `strcpy` -/

section Strcpy

variable {ε : Type} {src : ℕ → UInt8} {read : ℕ → ε} {write : ℕ → UInt8 → ε} {dst : ℕ → UInt8}
  {i j k n : ℕ}

/-- The loop of `strcpy` from the byte `i` on, with at most `k` rounds; `read` and `write` are the
events for one byte. -/
def strcpyLoop (src : ℕ → UInt8) (read : ℕ → ε) (write : ℕ → UInt8 → ε) :
    ℕ → ℕ → (ℕ → UInt8) → Logged ε (ℕ → UInt8)
  | 0, _, _ => .lift (.error .diverges)
  | k + 1, i, dst => do
    .emit (read i)
    .emit (write i (src i))
    let dst := Function.update dst i (src i)
    if src i ≠ 0 then strcpyLoop src read write k (i + 1) dst else return dst

/-- `strcpy` -/
def strcpy (k : ℕ) (src : ℕ → UInt8) (read : ℕ → ε) (write : ℕ → UInt8 → ε) (dst : ℕ → UInt8) :
    Logged ε (ℕ → UInt8) := strcpyLoop src read write k 0 dst

/-- The string `src` has its NUL at `n`. -/
def EndsAt (src : ℕ → UInt8) (n : ℕ) : Prop := src n = 0 ∧ ∀ i < n, src i ≠ 0

theorem exists_endsAt (h : src n = 0) : ∃ j ≤ n, EndsAt src j :=
  ⟨Nat.find ⟨n, h⟩, Nat.find_min' _ h, Nat.find_spec (p := fun i => src i = 0) ⟨n, h⟩,
    fun _ hi => Nat.find_min _ hi⟩

theorem strcpyLoop_more (h : src i ≠ 0) : strcpyLoop src read write (k + 1) i dst =
    ⟨read i :: write i (src i) ::
      (strcpyLoop src read write k (i + 1) (Function.update dst i (src i))).events,
      (strcpyLoop src read write k (i + 1) (Function.update dst i (src i))).result⟩ := by
  rw [strcpyLoop]
  simp only [if_pos h]
  rfl

theorem strcpyLoop_last (h : src i = 0) : strcpyLoop src read write (k + 1) i dst =
    ⟨[read i, write i (src i)], .ok (Function.update dst i (src i))⟩ := by
  rw [strcpyLoop]
  simp only [if_neg (not_not.2 h)]
  rfl

/-- The bytes up to the NUL are copied, and no others. -/
theorem strcpyLoop_endsAt (h : EndsAt src n) (hi : i ≤ n) (hk : n - i < k) :
    (∃ dst', (strcpyLoop src read write k i dst).result = .ok dst' ∧
      ∀ j, dst' j = if i ≤ j ∧ j ≤ n then src j else dst j) ∧
    ∀ e, e ∈ (strcpyLoop src read write k i dst).events ↔
      ∃ j, i ≤ j ∧ j ≤ n ∧ (e = read j ∨ e = write j (src j)) := by
  induction k generalizing i dst with
  | zero => omega
  | succ k ih =>
    by_cases hin : i = n
    · subst hin
      rw [strcpyLoop_last h.1]
      refine ⟨⟨_, rfl, fun j => ?_⟩, fun e => ?_⟩
      · rw [Function.update_apply]
        by_cases hj : j = i
        · rw [if_pos hj, if_pos (by omega), hj]
        · rw [if_neg hj, if_neg (by omega)]
      · simp only [List.mem_cons, List.not_mem_nil, or_false]
        constructor
        · exact fun he => ⟨i, le_rfl, le_rfl, he⟩
        · rintro ⟨j, h1, h2, he⟩
          rwa [le_antisymm h2 h1] at he
    · rw [strcpyLoop_more (h.2 i (by omega))]
      obtain ⟨⟨dst', h1, h2⟩, h3⟩ := @ih (Function.update dst i (src i)) (i + 1)
        (by omega) (by omega)
      refine ⟨⟨dst', h1, fun j => ?_⟩, fun e => ?_⟩
      · rw [h2, Function.update_apply]
        by_cases hj : j = i
        · rw [if_neg (by omega), if_pos hj, if_pos (by omega), hj]
        · rw [if_neg hj]
          by_cases hj' : i + 1 ≤ j ∧ j ≤ n
          · rw [if_pos hj', if_pos (by omega)]
          · rw [if_neg hj', if_neg (by omega)]
      · simp only [List.mem_cons, h3]
        constructor
        · rintro (he | he | ⟨j, hj1, hj2, he⟩)
          · exact ⟨i, le_rfl, hi, Or.inl he⟩
          · exact ⟨i, le_rfl, hi, Or.inr he⟩
          · exact ⟨j, by omega, hj2, he⟩
        · rintro ⟨j, hj1, hj2, he⟩
          by_cases hj : j = i
          · subst hj
            exact he.imp id Or.inl
          · exact Or.inr (Or.inr ⟨j, by omega, hj2, he⟩)

theorem strcpyLoop_mem (h : ∀ j < n, src j ≠ 0) (hi : i ≤ n) (hk : n - i < k) :
    read n ∈ (strcpyLoop src read write k i dst).events ∧
      write n (src n) ∈ (strcpyLoop src read write k i dst).events := by
  induction k generalizing i dst with
  | zero => omega
  | succ k ih =>
    by_cases hin : i = n
    · subst hin
      by_cases hz : src i = 0
      · rw [strcpyLoop_last hz]
        simp
      · rw [strcpyLoop_more hz]
        simp
    · rw [strcpyLoop_more (h i (by omega))]
      obtain ⟨h1, h2⟩ := @ih (Function.update dst i (src i)) (i + 1)
        (by omega) (by omega)
      exact ⟨List.mem_cons_of_mem _ (List.mem_cons_of_mem _ h1),
        List.mem_cons_of_mem _ (List.mem_cons_of_mem _ h2)⟩

/-- **`strcpy`** copies the bytes up to the NUL, and no others. -/
theorem strcpy_endsAt (read : ℕ → ε) (write : ℕ → UInt8 → ε) (dst : ℕ → UInt8) (h : EndsAt src n)
    (hk : n < k) : ∃ dst', (strcpy k src read write dst).result = .ok dst' ∧
      (∀ j ≤ n, dst' j = src j) ∧ ∀ e, e ∈ (strcpy k src read write dst).events ↔
        ∃ j ≤ n, e = read j ∨ e = write j (src j) := by
  have hk' : n - 0 < k := by omega
  obtain ⟨⟨dst', h1, h2⟩, h3⟩ := @strcpyLoop_endsAt ε src read write dst 0 k n h (Nat.zero_le n) hk'
  refine ⟨dst', h1, fun j hj => by rw [h2, if_pos ⟨Nat.zero_le j, hj⟩], fun e => (h3 e).trans ?_⟩
  simp

/-- Without a NUL before it, the byte `n` is copied. -/
theorem strcpy_mem (read : ℕ → ε) (write : ℕ → UInt8 → ε) (dst : ℕ → UInt8)
    (h : ∀ j < n, src j ≠ 0) (hk : n < k) : read n ∈ (strcpy k src read write dst).events ∧
      write n (src n) ∈ (strcpy k src read write dst).events :=
  strcpyLoop_mem h (Nat.zero_le n) (by omega)

end Strcpy

/-! ### `do_execve` -/

/-- `PROC_NAME_LEN` -/
def procNameLen : ℕ := 16

/-- What `do_execve` does to the strings. -/
inductive ExecEvent where
  /-- The byte of `name` at an address is read. -/
  | readName (addr : ℕ)
  /-- `temp_name[i] = b` -/
  | writeTemp (i : ℕ) (b : UInt8)
  /-- `temp_name[i]` is read. -/
  | readTemp (i : ℕ)
  /-- `g_curr_proc->name[i] = b` -/
  | writeProc (i : ℕ) (b : UInt8)
  /-- An event of `load_bin`. -/
  | load (e : LoadEvent)
  deriving DecidableEq

/-- How `do_execve` ends. -/
inductive ExecEnd where
  | returns (ret : ℤ)
  /-- It calls `do_exit(errno)`. -/
  | exits (errno : ℤ)
  deriving DecidableEq

/-- What `do_execve` leaves behind: memory, the new address space and trapframe, the field `name`
and the bytes after it. -/
structure Execed where
  mm : Mm
  space : Option (VmManager × UserFrame)
  name : ℕ → UInt8
  ending : ExecEnd

/-- `load_bin` for a program, as a function of memory. -/
abbrev LoadBin : Type := Mm → Logged LoadEvent (Mm × Option (VmManager × UserFrame) × ℤ)

/-- The part of `do_execve` that gives up the address space. -/
def leaveSpace (k : ℕ) (m : Mm) : Option VmManager → Res Mm
  | none => .ok m
  | some vmm => do
    let vmm := { vmm with useCount := u32 (vmm.useCount + 2 ^ 32 - 1) }
    if vmm.useCount = 0 then teardown k m vmm else return m

/-- `do_execve` after its first call of `strcpy`. -/
def execLoad (k : ℕ) (load : LoadBin) (m : Mm) (vmm : Option VmManager) (temp pname : ℕ → UInt8) :
    Logged ExecEvent Execed := do
  let m ← .lift (leaveSpace k m vmm)
  let (m, space, ret) ← (load m).rename .load
  if ret ≠ 0 then return ⟨m, space, pname, .exits ret⟩
  let pname ← strcpy k temp .readTemp .writeProc pname
  return ⟨m, space, pname, .returns 0⟩

/-- `do_execve` of a process with the address space `vmm` : `byte` is memory as the process sees it,
`temp` and `pname` are the bytes from `temp_name` and from `g_curr_proc->name` on. -/
def doExecve (k : ℕ) (load : LoadBin) (byte : ℕ → UInt8) (name len : ℕ) (m : Mm)
    (vmm : Option VmManager) (temp pname : ℕ → UInt8) : Logged ExecEvent Execed := do
  let (vmm, ok) ← .lift (checkVmm k vmm name len false)
  if ¬ ok then return ⟨m, none, pname, .returns (-eInval)⟩
  -- `len` is set to 0 or 1 here, and it is not used any more
  let _len := if procNameLen ≠ 0 then (if len > procNameLen then 1 else 0) else len
  let temp ← strcpy k (fun i => byte (u64 (name + i))) (fun i => .readName (u64 (name + i)))
    .writeTemp temp
  execLoad k load m vmm temp pname

/-- `load_bin` is reached, and returns 0. -/
def Loads (k : ℕ) (load : LoadBin) (m : Mm) (vmm : Option VmManager) : Prop :=
  ∃ m₁ m₂ space, leaveSpace k m vmm = .ok m₁ ∧ (load m₁).result = .ok (m₂, space, 0)

/-- The bytes of `name` are read in the range that has been checked, the two arrays are not overrun,
and the string that is stored, up to its NUL, is the beginning of the caller's. -/
structure NameSafe (x : Logged ExecEvent Execed) (byte : ℕ → UInt8) (name len : ℕ) : Prop where
  read : ∀ a, .readName a ∈ x.events → name ≤ a ∧ a < name + len
  temp : ∀ i b, .writeTemp i b ∈ x.events → i < procNameLen + 1
  temp_end : ∃ i, .writeTemp i 0 ∈ x.events
  proc : ∀ i b, .writeProc i b ∈ x.events → i < procNameLen
  stored : ∀ r, x.result = .ok r → r.ending = .returns 0 → ∃ n < procNameLen, EndsAt r.name n ∧
    ∀ i < n, r.name i = byte (name + i)

section

variable {k : ℕ} {load : LoadBin} {byte : ℕ → UInt8} {name len : ℕ} {m : Mm}
  {vmm : Option VmManager} {temp pname : ℕ → UInt8} {n : ℕ}

/-- The second call of `strcpy` comes after `load_bin` has returned 0. -/
theorem execLoad_cases (k : ℕ) (load : LoadBin) (m : Mm) (vmm : Option VmManager)
    (temp pname : ℕ → UInt8) :
    (¬ Loads k load m vmm ∧ ∃ es : List LoadEvent,
      (execLoad k load m vmm temp pname).events = es.map .load ∧
      ∀ r, (execLoad k load m vmm temp pname).result = .ok r → r.ending ≠ .returns 0) ∨
    Loads k load m vmm ∧ ∃ (es : List LoadEvent) (m₂ : Mm)
      (space : Option (VmManager × UserFrame)), execLoad k load m vmm temp pname =
        ⟨es.map .load ++ (strcpy k temp .readTemp .writeProc pname).events,
          (strcpy k temp ExecEvent.readTemp .writeProc pname).result.map
            fun pname => ⟨m₂, space, pname, .returns 0⟩⟩ := by
  unfold execLoad
  cases hleave : leaveSpace k m vmm with
  | error f =>
    refine Or.inl ⟨?_, [], rfl, nofun⟩
    rintro ⟨m₁, m₂, space, h, -⟩
    rw [hleave] at h
    cases h
  | ok m₁ =>
    have hloads : Loads k load m vmm ↔ ∃ m₂ space, (load m₁).result = .ok (m₂, space, 0) := by
      simp [Loads, hleave]
    rw [hloads, Logged.bind_of_ok (show (Logged.lift (Except.ok m₁) : Logged ExecEvent Mm).result =
      .ok m₁ from rfl)]
    cases hres : (load m₁).result with
    | error f =>
      rw [Logged.bind_of_error (show ((load m₁).rename ExecEvent.load).result = .error f from hres)]
      exact Or.inl ⟨by simp, (load m₁).events, by simp [Logged.lift, Logged.rename], nofun⟩
    | ok r =>
      obtain ⟨m₂, space, ret⟩ := r
      rw [Logged.bind_of_ok
        (show ((load m₁).rename ExecEvent.load).result = .ok (m₂, space, ret) from hres)]
      by_cases hret : ret = 0
      · subst hret
        refine Or.inr ⟨⟨m₂, space, rfl⟩, (load m₁).events, m₂, space, ?_⟩
        simp only [ne_eq, not_true_eq_false, if_false]
        cases hstr : (strcpy k temp ExecEvent.readTemp .writeProc pname).result with
        | error f =>
          rw [Logged.bind_of_error hstr]
          simp [Logged.lift, Logged.rename, Except.map]
        | ok f =>
          rw [Logged.bind_of_ok hstr]
          simp [Logged.lift, Logged.rename, Except.map, pure]
      · simp only [if_pos hret]
        refine Or.inl ⟨by simp [hret], (load m₁).events, ?_, fun r hr => ?_⟩
        · simp [Logged.lift, Logged.rename, pure]
        · obtain rfl := Except.ok.inj hr
          simp

/-- When `temp_name` has its NUL at `n`, the bytes up to it are stored, if there is a program. -/
theorem execLoad_endsAt (h : EndsAt temp n) (hk : n < k)
    (hloads : n < procNameLen ∨ ¬ Loads k load m vmm) :
    (∀ e ∈ (execLoad k load m vmm temp pname).events, (∀ a, e ≠ .readName a) ∧
      (∀ i b, e ≠ .writeTemp i b) ∧ ∀ i b, e = .writeProc i b → i < procNameLen) ∧
    ∀ r, (execLoad k load m vmm temp pname).result = .ok r → r.ending = .returns 0 →
      n < procNameLen ∧ ∀ i ≤ n, r.name i = temp i := by
  have hload : ∀ (es : List LoadEvent), ∀ e ∈ es.map ExecEvent.load, (∀ a, e ≠ .readName a) ∧
      (∀ i b, e ≠ .writeTemp i b) ∧ ∀ i b, e = .writeProc i b → i < procNameLen := by
    intro es e he
    obtain ⟨l, -, rfl⟩ := List.mem_map.1 he
    exact ⟨nofun, nofun, nofun⟩
  rcases execLoad_cases k load m vmm temp pname with ⟨-, es, hes, hret⟩ | ⟨hl, es, m₂, space, heq⟩
  · rw [hes]
    exact ⟨hload es, fun r hr hend => absurd hend (hret r hr)⟩
  · have hn := hloads.resolve_right (not_not.2 hl)
    obtain ⟨pname', h1, h2, h3⟩ := strcpy_endsAt ExecEvent.readTemp .writeProc pname h hk
    rw [heq]
    refine ⟨fun e he => ?_, fun r hr _ => ⟨hn, fun i hi => ?_⟩⟩
    · rcases List.mem_append.1 he with he | he
      · exact hload es e he
      · obtain ⟨j, hj, rfl | rfl⟩ := (h3 e).1 he
        · exact ⟨nofun, nofun, nofun⟩
        · refine ⟨nofun, nofun, fun i b hb => ?_⟩
          obtain ⟨rfl, -⟩ := ExecEvent.writeProc.inj hb
          omega
    · simp only [h1, Except.map, Except.ok.injEq] at hr
      rw [← hr]
      exact h2 i hi

/-- The range that has been checked does not wrap around. -/
theorem checkVmm_range {v : Option VmManager} (hname : name < 2 ^ 64) (hlen : len < 2 ^ 64)
    (h : checkVmm k vmm name len false = .ok (v, true)) : name + len < 2 ^ 64 := by
  have hlt : name < u64 (name + len) := by
    cases vmm with
    | none =>
      have hk : kernelAccess name (u64 (name + len)) = true := (Prod.mk.inj (Except.ok.inj h)).2
      simp only [kernelAccess, decide_eq_true_eq] at hk
      exact hk.2.1
    | some vmm =>
      simp only [checkVmm] at h
      split_ifs at h with hu
      · exact hu.2.1
      · cases h
  simp only [u64] at hlt
  omega

theorem doExecve_eq {v : Option VmManager} (h : checkVmm k vmm name len false = .ok (v, true)) :
    doExecve k load byte name len m vmm temp pname =
      (strcpy k (fun i => byte (u64 (name + i))) (fun i => .readName (u64 (name + i))) .writeTemp
        temp >>= fun temp => execLoad k load m v temp pname) := by
  have hbind : ∀ f : Option VmManager × Bool → Logged ExecEvent Execed,
      (Logged.lift (checkVmm k vmm name len false) >>= f) = f (v, true) := by
    intro f
    rw [Logged.bind_of_ok (show (Logged.lift (checkVmm k vmm name len false) :
      Logged ExecEvent _).result = .ok (v, true) from h)]
    rfl
  unfold doExecve
  rw [hbind]
  rfl

end

/-- **`do_execve` handles the name safely**, whatever program it loads, if and only if the name has
a NUL in the range that has been checked, among its first `PROC_NAME_LEN` bytes; one byte later is
early enough if the program cannot be loaded. -/
theorem do_execve_name {k : ℕ} (load : LoadBin) (byte : ℕ → UInt8) {name len : ℕ} (m : Mm)
    {vmm v : Option VmManager} (temp pname : ℕ → UInt8) (hname : name < 2 ^ 64)
    (hlen : len < 2 ^ 64) (hk : procNameLen + 1 < k)
    (hcheck : checkVmm k vmm name len false = .ok (v, true)) :
    NameSafe (doExecve k load byte name len m vmm temp pname) byte name len ↔
      ∃ i < len, byte (name + i) = 0 ∧
        (i < procNameLen ∨ i = procNameLen ∧ ¬ Loads k load m v) := by
  have hrange := checkVmm_range hname hlen hcheck
  have hread : ∀ i ≤ len, u64 (name + i) = name + i := fun i hi => u64_of_lt (by omega)
  obtain ⟨src, hsrc⟩ : ∃ src : ℕ → UInt8, src = fun i => byte (u64 (name + i)) := ⟨_, rfl⟩
  have hbyte : ∀ i ≤ len, src i = byte (name + i) := by
    intro i hi
    rw [hsrc]
    exact congrArg byte (hread i hi)
  rw [doExecve_eq hcheck, ← hsrc]
  constructor
  · intro h
    -- otherwise the first `strcpy` leaves the range or the array
    obtain ⟨i, hi, hi', hz⟩ : ∃ i < len, i ≤ procNameLen ∧ src i = 0 := by
      by_contra hno
      push Not at hno
      obtain ⟨n, hn⟩ : ∃ n, n = min len (procNameLen + 1) := ⟨_, rfl⟩
      obtain ⟨h1, h2⟩ := strcpy_mem (fun i => ExecEvent.readName (u64 (name + i))) .writeTemp
        temp (fun j (hj : j < n) => hno j (by omega) (by omega)) (show n < k by omega)
      have hr := (h.read _ (Logged.mem_bind_left h1)).2
      have ht := h.temp _ _ (Logged.mem_bind_left h2)
      rw [hread n (by omega)] at hr
      omega
    obtain ⟨j, hj, hend⟩ := exists_endsAt hz
    refine ⟨j, by omega, by rw [← hbyte j (by omega)]; exact hend.1, ?_⟩
    by_cases hlt : j < procNameLen
    · exact Or.inl hlt
    refine Or.inr ⟨by omega, fun hloads => ?_⟩
    -- the second `strcpy` copies the NUL behind the field
    obtain ⟨temp', h1, h2, -⟩ := strcpy_endsAt (fun i => ExecEvent.readName (u64 (name + i)))
      .writeTemp temp hend (show j < k by omega)
    rcases execLoad_cases k load m v temp' pname with ⟨hno, -⟩ | ⟨-, es, m₂, space, heq⟩
    · exact hno hloads
    · have hmem := (strcpy_mem ExecEvent.readTemp .writeProc pname
        (fun l (hl : l < j) => (h2 l hl.le).trans_ne (hend.2 l hl)) (show j < k by omega)).2
      refine hlt (h.proc j (temp' j) ?_)
      rw [Logged.bind_of_ok h1, heq]
      exact List.mem_append_right _ (List.mem_append_right _ hmem)
  · rintro ⟨i, hi, hz, hcond⟩
    obtain ⟨j, hj, hend⟩ := exists_endsAt ((hbyte i hi.le).trans hz)
    have hcond' : j < procNameLen ∨ ¬ Loads k load m v := by
      rcases hcond with h | ⟨-, h⟩
      · exact Or.inl (by omega)
      · exact Or.inr h
    have hjk : j < k := by omega
    obtain ⟨temp', h1, h2, h3⟩ := strcpy_endsAt (fun i => ExecEvent.readName (u64 (name + i)))
      .writeTemp temp hend hjk
    have hend' : EndsAt temp' j :=
      ⟨(h2 j le_rfl).trans hend.1, fun l hl => (h2 l hl.le).trans_ne (hend.2 l hl)⟩
    obtain ⟨h4, h5⟩ := execLoad_endsAt hend' hjk hcond'
    rw [Logged.bind_of_ok h1]
    refine ⟨fun a ha => ?_, fun l b hb => ?_, ⟨j, List.mem_append_left _ ?_⟩, fun l b hb => ?_,
      fun r hr hret => ?_⟩
    · rcases List.mem_append.1 ha with ha | ha
      · obtain ⟨l, hl, he | he⟩ := (h3 _).1 ha
        · rw [ExecEvent.readName.inj he, hread l (by omega)]
          omega
        · cases he
      · exact absurd rfl ((h4 _ ha).1 a)
    · rcases List.mem_append.1 hb with hb | hb
      · obtain ⟨l', hl, he | he⟩ := (h3 _).1 hb
        · cases he
        · rw [(ExecEvent.writeTemp.inj he).1]
          omega
      · exact absurd rfl ((h4 _ hb).2.1 l b)
    · exact (h3 _).2 ⟨j, le_rfl, Or.inr (by rw [hend.1])⟩
    · rcases List.mem_append.1 hb with hb | hb
      · obtain ⟨l', hl, he | he⟩ := (h3 _).1 hb
        · cases he
        · cases he
      · exact (h4 _ hb).2.2 l b rfl
    · obtain ⟨hlt, hsame⟩ := h5 r hr hret
      refine ⟨j, hlt, ⟨(hsame j le_rfl).trans hend'.1, fun l hl => ?_⟩, fun l hl => ?_⟩
      · exact (hsame l hl.le).trans_ne (hend'.2 l hl)
      · rw [hsame l hl.le, h2 l hl.le, hbyte l (by omega)]

/-- A name of two letters. -/
def shortName (a : ℕ) : UInt8 := if a < kernelBeginVa + 2 then 97 else 0

/-- A name of 20 letters. -/
def longName (a : ℕ) : UInt8 := if a < kernelBeginVa + 20 then 97 else 0

/-- A program that is loaded at once. -/
def loaded : LoadBin := fun m => ⟨[], .ok (m, none, 0)⟩

/-- A memory without free pages. -/
def fullMemory : Mm := ⟨⟨fun _ => ⟨0, 0, 0⟩, ⟨id, id⟩, 0⟩, fun _ _ => 0, false⟩

/-- A short name is copied safely. -/
theorem do_execve_name_short :
    NameSafe (doExecve 20 loaded shortName kernelBeginVa 3 fullMemory none (fun _ => 0) fun _ => 0)
      shortName kernelBeginVa 3 := by
  have hcheck : checkVmm 20 none kernelBeginVa 3 false = .ok (none, true) := rfl
  refine (do_execve_name loaded shortName fullMemory _ _ (by decide) (by decide) (by decide)
    hcheck).2 ?_
  exact ⟨2, by decide, by decide, Or.inl (by decide)⟩

/-- A long name overruns `temp_name`, although all its bytes and its NUL are in the range that has
been checked. -/
theorem do_execve_overruns : checkVmm 20 none kernelBeginVa 21 false = .ok (none, true) ∧
    (∀ i < 21, longName (kernelBeginVa + i) = 0 ↔ i = 20) ∧
    ∀ (load : LoadBin) (m : Mm) (temp pname : ℕ → UInt8),
      ¬ NameSafe (doExecve 20 load longName kernelBeginVa 21 m none temp pname) longName
        kernelBeginVa 21 := by
  have hcheck : checkVmm 20 none kernelBeginVa 21 false = .ok (none, true) := rfl
  refine ⟨hcheck, by decide, fun load m temp pname h => ?_⟩
  rw [doExecve_eq hcheck] at h
  have hmem := (strcpy_mem (n := 17) (k := 20)
    (fun i => ExecEvent.readName (u64 (kernelBeginVa + i))) .writeTemp temp
    (show ∀ j < 17, longName (u64 (kernelBeginVa + j)) ≠ 0 by decide) (by decide)).2
  exact absurd (h.temp _ _ (Logged.mem_bind_left hmem)) (by decide)

end GarretOS
