import GarretOS.Trap.Machine

/-!
# What a process finds when it goes on

* `run_proc_returns` : a process that has called `run_proc` goes on with its registers;
* `fork_returns` : a new process begins with the registers of the trap frame that it was given;
* `trap_returns` : a process that has taken a trap goes on with its registers.

Between the two moments other processes may take traps, create and free processes and call
`run_proc`.
-/

namespace GarretOS

open Riscv

namespace Machine

variable {ν : Type} [DecidableEq ν] {L : Layout ν} {s s' : Machine ν} {p : ν}

/-- Nothing has happened to the process `p`, which is not running. -/
structure Parked (p : ν) (s s' : Machine ν) : Prop where
  used : s'.inUse p = true
  away : p ≠ s'.curr
  saved : s'.saved p = s.saved p
  frames : s'.frames p = s.frames p
  stack : s'.kernelStack p = s.kernelStack p

omit [DecidableEq ν] in
theorem Parked.trans {s₁ : Machine ν} (h : Parked p s s₁) (h' : Parked p s₁ s') : Parked p s s' :=
  ⟨h'.used, h'.away, h'.saved.trans h.saved, h'.frames.trans h.frames, h'.stack.trans h.stack⟩

theorem parked_setFrames (hp : s.inUse p = true) (hne : p ≠ s.curr) (h : Hart)
    (l : List (Word × (Trapframe → Word))) : Parked p s (s.setFrames h l) :=
  ⟨hp, hne, rfl, Function.update_of_ne hne _ _, rfl⟩

/-- **A step of another process** does nothing to `p`, unless it goes on with it or frees it. -/
theorem Parked.step {op : MachineOp ν} (hp : s.inUse p = true) (hne : p ≠ s.curr)
    (hop : op.Step L s s') (hrun : op ≠ .runProc p) (hfree : op ≠ .free p) : Parked p s s' := by
  cases op with
  | compute =>
    obtain ⟨h, rfl, -⟩ := hop
    exact ⟨hp, hne, rfl, rfl, rfl⟩
  | write field v =>
    obtain ⟨a, w, fs, -, -, -, -, rfl⟩ := hop
    exact parked_setFrames hp hne _ _
  | trap pc cause val =>
    obtain ⟨c, t, -, -, -, rfl⟩ := hop
    exact parked_setFrames hp hne _ _
  | ret =>
    obtain ⟨f, fs, -, -, -, rfl⟩ := hop
    exact parked_setFrames hp hne _ _
  | forkRet =>
    obtain ⟨f, fs, -, -, -, rfl⟩ := hop
    exact parked_setFrames hp hne _ _
  | runProc q =>
    obtain ⟨-, -, -, -, -, rfl⟩ := hop
    have hq : p ≠ q := fun he => hrun (he ▸ rfl)
    exact ⟨hp, hq, Function.update_of_ne hne _ _, rfl, rfl⟩
  | doFork q k stack tf =>
    obtain ⟨hfresh, -, -, -, rfl⟩ := hop
    have hq : p ≠ q := by
      rintro rfl
      rw [hfresh.unused] at hp
      cases hp
    exact ⟨(Function.update_of_ne hq _ _).trans hp, hne, Function.update_of_ne hq _ _,
      Function.update_of_ne hq _ _, Function.update_of_ne hq _ _⟩
  | free q =>
    obtain ⟨-, rfl⟩ := hop
    have hq : p ≠ q := fun he => hfree (he ▸ rfl)
    exact ⟨(Function.update_of_ne hq _ _).trans hp, hne, rfl, rfl, rfl⟩

/-- **While other processes run.** -/
theorem Parked.run {ls : List (MachineOp ν)} (h : ((machineSystem L).startAt s).Run ls s')
    (hls : ∀ op ∈ ls, op ≠ .runProc p ∧ op ≠ .free p) (hp : s.inUse p = true)
    (hne : p ≠ s.curr) : Parked p s s' := by
  induction h with
  | start hs =>
    obtain rfl := hs
    exact ⟨hp, hne, rfl, rfl, rfl⟩
  | @step ls s₁ s₂ op _ hop ih =>
    have h₁ := ih fun o ho => hls o (List.mem_append_left _ ho)
    obtain ⟨hrun, hfree⟩ := hls op (by simp)
    exact h₁.trans (.step h₁.used h₁.away hop hrun hfree)

/-- Computations of the running process. -/
theorem run_compute {ls : List (MachineOp ν)} (h : ((machineSystem L).startAt s).Run ls s')
    (hls : ∀ op ∈ ls, op = .compute) : s'.curr = s.curr ∧ s'.frames = s.frames := by
  induction h with
  | start hs =>
    obtain rfl := hs
    exact ⟨rfl, rfl⟩
  | @step ls s₁ s₂ op _ hop ih =>
    obtain ⟨hcurr, hframes⟩ := ih fun o ho => hls o (List.mem_append_left _ ho)
    obtain rfl := hls op (by simp)
    obtain ⟨h, rfl, -⟩ := hop
    exact ⟨hcurr, hframes⟩

/-- The hart after a step `run_proc`. -/
theorem runProc_registers {q : ν} (hs : s.Ok L) (hop : (machineSystem L).step s (.runProc q) s') :
    s'.curr = q ∧ s'.saved s.curr = (fun f => s.hart.get f.reg) ∧ s'.frames = s.frames ∧
      s'.inUse = s.inUse ∧ s.curr ≠ s'.curr ∧ ∀ f : Context, s'.hart.get f.reg = s.saved q f := by
  obtain ⟨hne, hq, -, h10, h11, rfl⟩ := hop
  obtain ⟨u, hu, hreg, -⟩ := hs.switch hq hne h10 h11
  refine ⟨rfl, Function.update_self _ _ _, rfl, rfl, hne.symm, fun f => ?_⟩
  show (Hart.run 0 switchProc s.hart).get f.reg = _
  rw [hu]
  exact hreg f

/-- What a return from the trap frame `f` makes of the hart. -/
structure Returned (f : Word × (Trapframe → Word)) (u : Hart) : Prop where
  registers : ∀ g : Gpr, u.get g.reg = f.2 (.gpr g)
  sepc : u.csr .sepc = f.2 .sepc
  sie : u.csr .sstatus &&& Hart.sie = if f.2 .sstatus &&& Hart.spie = 0 then 0 else Hart.sie
  priv : u.priv = if f.2 .sstatus &&& sstatusSpp = 0 then .user else .supervisor
  sscratch : u.csr .sscratch = if f.2 .sstatus &&& sstatusSpp = 0 then f.1 + 288 else 0

/-- `sret` enables interrupts as they were before the trap. -/
theorem sret_sie (t : Hart) : t.sret.csr .sstatus &&& Hart.sie =
    if t.csr .sstatus &&& Hart.spie = 0 then 0 else Hart.sie := by
  have hst : t.sret.csr .sstatus = t.csr .sstatus &&& ~~~(Hart.sie ||| Hart.spp) ||| Hart.spie |||
      (if t.csr .sstatus &&& Hart.spie = 0 then 0 else Hart.sie) := by
    simp [Hart.sret, Hart.setCsr]
  have h1 : ~~~(Hart.sie ||| Hart.spp) &&& Hart.sie = 0 := by decide
  have h2 : Hart.spie &&& Hart.sie = 0 := by decide
  rw [hst, BitVec.and_or_distrib_right, BitVec.and_or_distrib_right, BitVec.and_assoc, h1, h2]
  split_ifs <;> simp

/-- A trap keeps in `SPIE` whether interrupts were enabled. -/
theorem takeTrap_spie (t : Hart) (pc cause val : Word) :
    (t.takeTrap pc cause val).csr .sstatus &&& Hart.spie =
      if t.csr .sstatus &&& Hart.sie = 0 then 0 else Hart.spie := by
  have hst : (t.takeTrap pc cause val).csr .sstatus =
      t.csr .sstatus &&& ~~~(Hart.sie ||| Hart.spie ||| Hart.spp) |||
        (if t.csr .sstatus &&& Hart.sie = 0 then 0 else Hart.spie) |||
        (if t.priv = .user then 0 else Hart.spp) := by
    simp [Hart.takeTrap, Hart.setCsr]
  have h1 : ~~~(Hart.sie ||| Hart.spie ||| Hart.spp) &&& Hart.spie = 0 := by decide
  have h2 : (if t.csr .sstatus &&& Hart.sie = 0 then 0 else Hart.spie) &&& Hart.spie =
      if t.csr .sstatus &&& Hart.sie = 0 then 0 else Hart.spie := by
    split_ifs <;> decide
  have h3 : (if t.priv = .user then 0 else Hart.spp) &&& Hart.spie = 0 := by
    split_ifs <;> decide
  rw [hst, BitVec.and_or_distrib_right, BitVec.and_or_distrib_right, BitVec.and_assoc, h1, h2, h3]
  simp

/-- `SIE` is one bit. -/
theorem and_sie (st : Word) : st &&& Hart.sie = 0 ∨ st &&& Hart.sie = Hart.sie := by
  have h : st &&& BitVec.twoPow 64 1 = if st.getLsbD 1 then BitVec.twoPow 64 1 else 0 :=
    BitVec.and_twoPow st 1
  have hsie : BitVec.twoPow 64 1 = Hart.sie := by decide
  rw [hsie] at h
  split_ifs at h
  · exact Or.inr h
  · exact Or.inl h

/-- The registers have been loaded from the trap frame. -/
theorem Returned.of_values {f : Word × (Trapframe → Word)} {u : Hart} {scr : Word}
    (hreg : ∀ g : Gpr, u.get g.reg = f.2 (.gpr g)) (hst : u.csr .sstatus = f.2 .sstatus)
    (hpc : u.csr .sepc = f.2 .sepc)
    (hscr : u.csr .sscratch = if f.2 .sstatus &&& sstatusSpp = 0 then f.1 + 288 else scr)
    (h0 : scr = 0) : Returned f u.sret := by
  refine ⟨hreg, ?_, ?_, ?_, ?_⟩
  · rw [← hpc]
    simp [Hart.sret, Hart.setCsr]
  · rw [sret_sie, hst]
  · rw [← hst]
    rfl
  · rw [h0] at hscr
    rw [← hscr]
    simp [Hart.sret, Hart.setCsr]

/-- **A return**, from a trap or in `fork_ret`. -/
theorem Ok.returned (hs : s.Ok L)
    (hop : (machineSystem L).step s .ret s' ∨ (machineSystem L).step s .forkRet s') :
    ∃ f fs, s.frames s.curr = f :: fs ∧ s'.frames s.curr = fs ∧ Returned f s'.hart := by
  have hok := hs.frames s.curr hs.curr_mem
  rcases hop with ⟨f, fs, hf, hpriv, hsp, rfl⟩ | ⟨f, fs, hf, hpriv, hsp, rfl⟩
  · have hmem : f ∈ s.frames s.curr := by simp [hf]
    have hframe := hok.holds f hmem
    rw [← hsp] at hframe
    obtain ⟨u, hu, hreg, hst, hpc, hscr, -, -⟩ := restoreAll_values hframe (hok.zero f hmem)
    rw [hsp] at hscr
    refine ⟨f, fs, hf, Function.update_self _ _ _, ?_⟩
    show Returned f (Hart.run 0 restoreAll s.hart).sret
    rw [hu]
    exact .of_values hreg hst hpc hscr (hs.kernel hpriv)
  · have hmem : f ∈ s.frames s.curr := by simp [hf]
    have hframe := hok.holds f hmem
    rw [← hsp] at hframe
    obtain ⟨u, hu, hreg, hst, hpc, hscr, -, -⟩ := forkRet_values hframe (hok.zero f hmem)
    rw [hsp] at hscr
    refine ⟨f, fs, hf, Function.update_self _ _ _, ?_⟩
    show Returned f (Hart.run 0 forkRet s.hart).sret
    rw [hu]
    exact .of_values hreg hst hpc hscr (hs.kernel hpriv)

end Machine

open Machine

variable {ν : Type} [DecidableEq ν] {L : Layout ν} {s₀ s₁ s₂ s₃ s₄ s₅ : Machine ν}
  {ls ls' : List (MachineOp ν)}

/-- **`run_proc` returns.**  A process calls `run_proc` for another one, and some time later a
process calls `run_proc` for it.  Then `ra`, `sp` and `s0` to `s11` have the values they had, and
its trap frames are as they were, whatever the other processes did in between. -/
theorem run_proc_returns {q : ν} (h : (machineSystem L).Reachable s₀)
    (h₁ : (machineSystem L).step s₀ (.runProc q) s₁)
    (hrun : ((machineSystem L).startAt s₁).Run ls s₂)
    (hls : ∀ op ∈ ls, op ≠ .runProc s₀.curr ∧ op ≠ .free s₀.curr)
    (h₃ : (machineSystem L).step s₂ (.runProc s₀.curr) s₃) :
    (∀ f : Context, s₃.hart.get f.reg = s₀.hart.get f.reg) ∧
      s₃.frames s₀.curr = s₀.frames s₀.curr ∧
      ∀ f ∈ s₀.frames s₀.curr, ∀ field : Trapframe,
        load s₃.hart.mem (f.1 + field.offset) = load s₀.hart.mem (f.1 + field.offset) := by
  have hr₁ : (machineSystem L).Reachable s₁ := h.step h₁
  have hr₂ := hrun.of_startAt hr₁
  have hok₀ := machine_ok h
  have hok₃ := machine_ok (hr₂.step h₃)
  obtain ⟨-, hsaved, hframes₁, hinUse, hne, -⟩ := runProc_registers hok₀ h₁
  have hparked := Parked.run hrun hls (by rw [hinUse]; exact hok₀.curr_mem) hne
  obtain ⟨hcurr₃, -, hframes₃, -, -, hreg⟩ := runProc_registers (machine_ok hr₂) h₃
  have hframes : s₃.frames s₀.curr = s₀.frames s₀.curr := by
    rw [hframes₃, hparked.frames, hframes₁]
  refine ⟨fun f => ?_, hframes, fun f hf field => ?_⟩
  · rw [hreg, hparked.saved, hsaved]
  · have hf₃ : f ∈ s₃.frames s₃.curr := by
      rw [hcurr₃, hframes]
      exact hf
    exact ((hok₃.frames _ hok₃.curr_mem).holds f hf₃ field).trans
      ((hok₀.frames _ hok₀.curr_mem).holds f hf field).symm

/-- **A trap returns.**  A process takes a trap, and some time later it returns from it, with the
trap frame as it was.  Then it has all its registers, it goes on at the same instruction, in the same
mode, with interrupts enabled as before, and `sscratch` is the same, whatever the kernel and the
other processes did in between. -/
theorem trap_returns {pc cause val : Word} (h : (machineSystem L).Reachable s₀)
    (h₁ : (machineSystem L).step s₀ (.trap pc cause val) s₁)
    (hrun : ((machineSystem L).startAt s₁).Run ls s₂) (hcurr : s₂.curr = s₀.curr)
    (hframes : s₂.frames s₀.curr = s₁.frames s₀.curr)
    (h₃ : (machineSystem L).step s₂ .ret s₃) :
    (∀ r : Reg, s₃.hart.get r = s₀.hart.get r) ∧ s₃.hart.csr .sepc = pc ∧
      s₃.hart.priv = s₀.hart.priv ∧ s₃.hart.csr .sscratch = s₀.hart.csr .sscratch ∧
      s₃.hart.csr .sstatus &&& Hart.sie = s₀.hart.csr .sstatus &&& Hart.sie ∧
      s₃.frames s₀.curr = s₀.frames s₀.curr := by
  have hok₀ := machine_ok h
  have hr₂ := hrun.of_startAt (h.step h₁)
  obtain ⟨c, t, hc, ht, -, hs₁⟩ := h₁
  have hframes₁ : s₁.frames s₀.curr = (t.get 2, frameValue c) :: s₀.frames s₀.curr := by
    rw [hs₁]
    exact Function.update_self _ _ _
  -- the frame that `sret` restores is the one that `save_all` has pushed
  obtain ⟨f, fs, hf, hfs, hret⟩ := (machine_ok hr₂).returned (Or.inl h₃)
  rw [hcurr, hframes, hframes₁] at hf
  obtain ⟨rfl, rfl⟩ := List.cons.inj hf
  have hspp := s₀.hart.takeTrap_spp pc cause val
  have hscr := s₀.hart.takeTrap_sscratch pc cause val
  have hspie := takeTrap_spie s₀.hart pc cause val
  rw [← hc] at hspp hscr hspie
  have hsp : t.get 2 = stackTop c - 288 := by
    obtain ⟨t', ht', h2, -⟩ := saveAll_spec c
    rw [ht, ht', h2]
  have hpriv : s₃.hart.priv = s₀.hart.priv := by
    rw [hret.priv]
    show (if c.csr .sstatus &&& Hart.spp = 0 then Priv.user else Priv.supervisor) = _
    rw [hspp]
    cases s₀.hart.priv <;> rfl
  refine ⟨fun r => ?_, ?_, hpriv, ?_, ?_, by rw [← hfs, hcurr]⟩
  · obtain ⟨g, rfl⟩ := Gpr.exists_reg r
    rw [hret.registers]
    show c.get g.reg = _
    rw [hc]
    rfl
  · rw [hret.sepc]
    show c.csr .sepc = pc
    rw [hc]
    simp [Hart.takeTrap]
  · rw [hret.sscratch]
    show (if c.csr .sstatus &&& Hart.spp = 0 then t.get 2 + 288 else 0) = _
    rw [hspp]
    cases hpr : s₀.hart.priv with
    | user =>
      obtain ⟨-, hne, -⟩ := hok₀.user hpr
      rw [if_pos rfl, if_pos rfl, hsp, stackTop, hscr, if_neg hne, BitVec.sub_add_cancel]
    | supervisor =>
      rw [hok₀.kernel hpr]
      exact if_neg (by decide)
  · rw [hret.sie]
    show (if c.csr .sstatus &&& Hart.spie = 0 then 0 else Hart.sie) = _
    rw [hspie]
    rcases and_sie (s₀.hart.csr .sstatus) with h0 | h0
    · rw [h0, if_pos rfl, if_pos rfl]
    · rw [h0]
      decide

/-- **`do_fork` returns in the new process.**  `run_proc` for a process that `do_fork` has created
goes to `curr_fork_ret` with the stack pointer at its trap frame, and from there `fork_ret` leads to
the registers, `sepc` and mode of the trap frame `tf` as it was in `do_fork`, but with `a0 = 0` and
with the given stack pointer; a process that begins in user mode has the top of its own kernel stack
in `sscratch`. -/
theorem fork_returns {q : ν} {k stack tf : Word} (h : (machineSystem L).Reachable s₀)
    (h₁ : (machineSystem L).step s₀ (.doFork q k stack tf) s₁)
    (hrun : ((machineSystem L).startAt s₁).Run ls s₂)
    (hls : ∀ op ∈ ls, op ≠ .runProc q ∧ op ≠ .free q)
    (h₃ : (machineSystem L).step s₂ (.runProc q) s₃)
    (hrun' : ((machineSystem L).startAt s₃).Run ls' s₄) (hls' : ∀ op ∈ ls', op = .compute)
    (h₅ : (machineSystem L).step s₄ .forkRet s₅) :
    s₃.hart.get 1 = L.currForkRet ∧ s₃.hart.get 2 = newTrapframe k ∧
      (∀ g : Gpr, s₅.hart.get g.reg = if g = .a0 then 0
        else if g = .sp then (if stack ≠ 0 then stack else newTrapframe k - 4)
        else load s₀.hart.mem (tf + (Trapframe.gpr g).offset)) ∧
      s₅.hart.csr .sepc = load s₀.hart.mem (tf + Trapframe.sepc.offset) ∧
      s₅.hart.priv = (if load s₀.hart.mem (tf + Trapframe.sstatus.offset) &&& sstatusSpp = 0 then
        .user else .supervisor) ∧
      (s₅.hart.priv = .user → s₅.hart.csr .sscratch = k + kernelStackSize) := by
  have hr₁ : (machineSystem L).Reachable s₁ := h.step h₁
  have hr₂ := hrun.of_startAt hr₁
  have hr₃ : (machineSystem L).Reachable s₃ := hr₂.step h₃
  have hok₄ := machine_ok (hrun'.of_startAt hr₃)
  have hok₀ := machine_ok h
  obtain ⟨hfresh, -, -, -, hs₁⟩ := h₁
  have hq : q ≠ s₀.curr := by
    rintro rfl
    have := hfresh.unused
    rw [hok₀.curr_mem] at this
    cases this
  have hsaved : s₁.saved q = firstContext L.currForkRet (newTrapframe k) := by
    rw [hs₁]
    exact Function.update_self _ _ _
  have hframes₁ : s₁.frames q = [(newTrapframe k,
      childFrame (fun f => load s₀.hart.mem (tf + f.offset)) stack (newTrapframe k))] := by
    rw [hs₁]
    exact Function.update_self _ _ _
  -- until `run_proc`, nobody writes the context and the frame of `q`
  have hparked := Parked.run hrun hls (by rw [hs₁]; exact Function.update_self _ _ _)
    (by rw [hs₁]; exact hq)
  obtain ⟨hcurr₃, -, hframes₃, -, -, hreg⟩ := runProc_registers (machine_ok hr₂) h₃
  obtain ⟨hcurr₄, hframes₄⟩ := run_compute hrun' hls'
  obtain ⟨f, fs, hf, -, hret⟩ := hok₄.returned (Or.inr h₅)
  rw [hcurr₄, hframes₄, hframes₃, hcurr₃, hparked.frames, hframes₁] at hf
  obtain ⟨rfl, rfl⟩ := List.cons.inj hf
  obtain ⟨hregs, hpc, -, hmode, hscr⟩ := hret
  simp only [childFrame_eq, Trapframe.gpr.injEq, reduceCtorEq, if_false] at hregs hpc hmode hscr
  refine ⟨?_, ?_, hregs, hpc, hmode, fun hu => ?_⟩
  · rw [show (1 : Reg) = Context.ra.reg from rfl, hreg, hparked.saved, hsaved]
    rfl
  · rw [show (2 : Reg) = Context.sp.reg from rfl, hreg, hparked.saved, hsaved]
    rfl
  · rw [hu] at hmode
    split_ifs at hmode with hspp
    rw [hscr, if_pos hspp]
    exact BitVec.sub_add_cancel _ _

/-! ### Examples of runs -/

namespace Machine

/-- Two parts of the memory, one above the other. -/
theorem disjoint_bytes {a b : Word} {n m : ℕ} (h : a.toNat + n ≤ b.toNat)
    (hb : b.toNat + m ≤ 2 ^ 64) : Disjoint (Bytes a n) (Bytes b m) := by
  rw [Set.disjoint_left]
  intro c (hc : (c - a).toNat < n) (hc' : (c - b).toNat < m)
  bv_omega

/-- The hart sets a register. -/
theorem step_set (s : Machine ν) (r : Reg) (v : Word) :
    (machineSystem L).step s .compute { s with hart := s.hart.set r v } :=
  ⟨s.hart.set r v, rfl, rfl, rfl, fun _ _ => ⟨fun _ _ _ _ => rfl, fun _ _ => rfl⟩⟩

/-- The hart with the arguments of `switch_proc`. -/
def withArgs (L : Layout ν) (s : Machine ν) (q : ν) : Machine ν :=
  { s with hart := (s.hart.set 10 (L.context s.curr)).set 11 (L.context q) }

/-- In the kernel the running process may call `run_proc`. -/
theorem exists_runProc {s : Machine ν} {q : ν} (hs : (machineSystem L).Reachable s)
    (hq : s.inUse q = true) (hne : q ≠ s.curr) (hpriv : s.hart.priv = .supervisor) :
    ((machineSystem L).startAt s).Run [.compute, .compute] (s.withArgs L q) ∧
      ∃ s₁, (machineSystem L).step (s.withArgs L q) (.runProc q) s₁ ∧ s₁.curr = q ∧
        s₁.frames = s.frames ∧ s₁.inUse = s.inUse ∧ s₁.hart.priv = .supervisor := by
  have h₁ := step_set (L := L) s 10 (L.context s.curr)
  have h₂ : (machineSystem L).step { s with hart := s.hart.set 10 (L.context s.curr) } .compute
      (s.withArgs L q) := step_set _ 11 (L.context q)
  have hok := machine_ok ((hs.step h₁).step h₂)
  have hrun : ((machineSystem L).startAt s).Run ([.compute] ++ [.compute]) (s.withArgs L q) :=
    (System.Run.single h₁).trans (.single h₂)
  have h10 : (s.withArgs L q).hart.get 10 = L.context s.curr := by simp [withArgs]
  have h11 : (s.withArgs L q).hart.get 11 = L.context q := by simp [withArgs]
  refine ⟨hrun, _, ⟨hne, hq, hpriv, h10, h11, rfl⟩, rfl, rfl,
    rfl, ?_⟩
  obtain ⟨u, hu, -, -, -, -, hp⟩ := hok.switch hq hne h10 h11
  show (Hart.run 0 switchProc (s.withArgs L q).hart).priv = .supervisor
  rw [hu]
  exact hp.trans hpriv

/-- The contexts of `idle` and of one more process. -/
def twoProcs : Layout Bool where
  context p := if p then 0x81001000 else 0x81000000
  currForkRet := 0x80200400

/-- After boot `idle` has not created a process yet. -/
def booted : Machine Bool where
  hart := ⟨fun r => BitVec.ofNat 64 r, fun _ => 0, fun _ => 0, .supervisor⟩
  curr := false
  inUse p := !p
  kernelStack _ := 0x82000000
  frames _ := []
  saved _ _ := 0

theorem booted_init : (machineSystem twoProcs).init booted :=
  ⟨fun p => by cases p <;> simp [booted], rfl, rfl, rfl, by decide,
    disjoint_bytes (by decide) (by decide)⟩

/-- `idle` has created a process, with a trap frame that leads to user mode. -/
theorem exists_forked : ∃ s : Machine Bool,
    (machineSystem twoProcs).step booted (.doFork true 0x82004000 0x7fff0000 0x82000800) s ∧
      s.curr = false ∧ s.inUse = (fun _ => true) ∧ s.hart.priv = .supervisor ∧
      s.hart.x = booted.hart.x ∧ s.kernelStack false = 0x82000000 ∧ s.frames false = [] ∧
      ∃ w, s.frames true = [(newTrapframe 0x82004000, w)] := by
  have hinUse : ∀ p, booted.inUse p = true → p = false := fun p hp => by simpa [booted] using hp
  refine ⟨_, ⟨⟨rfl, by decide, disjoint_bytes (by decide) (by decide), fun p _ => ?_,
    fun p hp => ?_, fun p _ => ?_, fun p hp => ?_⟩, rfl, ?_, by decide +kernel, rfl⟩, rfl, ?_, rfl,
    rfl, rfl, rfl, childFrame (fun f => load booted.hart.mem (0x82000800 + f.offset)) 0x7fff0000
      (newTrapframe 0x82004000), rfl⟩
  · exact disjoint_bytes (a := 0x82000000) (by decide) (by decide)
  · rw [hinUse p hp]
    exact disjoint_bytes (by decide) (by decide)
  · exact disjoint_bytes (b := 0x82000000) (by decide) (by decide)
  · rw [hinUse p hp]
    exact disjoint_bytes (by decide) (by decide)
  · exact (disjoint_bytes (by decide) (by decide)).symm
  · funext p
    cases p <;> rfl

end Machine

/-- `idle` runs another process, which runs `idle` again. -/
theorem run_proc_returns_idle : ∃ s₀ s₃ : Machine Bool, s₀.curr = false ∧ s₀.hart.get 8 = 8 ∧
    s₃.curr = false ∧ s₃.hart.get 8 = 8 := by
  obtain ⟨s, hs, hcurr, hinUse, hpriv, hx, -⟩ := exists_forked
  have hr : (machineSystem twoProcs).Reachable s := (System.Reachable.start booted_init).step hs
  obtain ⟨hrun₀, s₁, h₁, hcurr₁, -, hinUse₁, hpriv₁⟩ :=
    exists_runProc (q := true) hr (by rw [hinUse]) (by rw [hcurr]; decide) hpriv
  have hr₀ := hrun₀.of_startAt hr
  obtain ⟨hrun₁, s₃, h₃, hcurr₃, -⟩ := exists_runProc (q := false) (hr₀.step h₁)
    (by rw [hinUse₁, hinUse]) (by rw [hcurr₁]; decide) hpriv₁
  have hcurr₀ : (s.withArgs twoProcs true).curr = false := hcurr
  have h8 : (s.withArgs twoProcs true).hart.get 8 = 8 := by
    have : (s.withArgs twoProcs true).hart.get 8 = s.hart.get 8 := by simp [withArgs]
    rw [this, Hart.get, hx]
    decide
  obtain ⟨hreg, -⟩ := run_proc_returns hr₀ h₁ hrun₁ (by simp) (by rw [hcurr₀]; exact h₃)
  exact ⟨_, s₃, hcurr₀, h8, hcurr₃, (hreg .s0).trans h8⟩

/-- The new process begins in user mode, with the top of its kernel stack in `sscratch`. -/
theorem fork_returns_user : ∃ s : Machine Bool, (machineSystem twoProcs).Reachable s ∧
    s.curr = true ∧ s.inUse = (fun _ => true) ∧ s.hart.priv = .user ∧ s.hart.get 10 = 0 ∧
    s.hart.get 2 = 0x7fff0000 ∧ s.hart.csr .sscratch = 0x82006000 := by
  obtain ⟨s, hs, hcurr, hinUse, hpriv, -, -, -, w, hframes⟩ := exists_forked
  have hr₀ : (machineSystem twoProcs).Reachable booted := .start booted_init
  obtain ⟨hrun, s₃, h₃, hcurr₃, hframes₃, hinUse₃, hpriv₃⟩ := exists_runProc (q := true)
    (hr₀.step hs) (by rw [hinUse]) (by rw [hcurr]; decide) hpriv
  -- `curr_fork_ret` calls `fork_ret` with the trap frame
  have hset := step_set (L := twoProcs) s₃ 10 (newTrapframe 0x82004000)
  have hrun' := System.Run.single hset
  obtain ⟨s₅, h₅, hs₅⟩ : ∃ s₅, (machineSystem twoProcs).step
      { s₃ with hart := s₃.hart.set 10 (newTrapframe 0x82004000) } .forkRet s₅ ∧
        s₅.curr = s₃.curr ∧ s₅.inUse = s₃.inUse := by
    refine ⟨_, ⟨(newTrapframe 0x82004000, w), [], ?_, hpriv₃, by simp, rfl⟩, rfl, rfl⟩
    show s₃.frames s₃.curr = _
    rw [hframes₃, hcurr₃, hframes]
  obtain ⟨-, -, hreg, -, hmode, hscr⟩ :=
    fork_returns hr₀ hs hrun (by simp) h₃ hrun' (by simp) h₅
  have hzero : load booted.hart.mem (0x82000800 + Trapframe.sstatus.offset) &&& sstatusSpp = 0 := by
    decide +kernel
  rw [if_pos hzero] at hmode
  refine ⟨s₅, ?_, by rw [hs₅.1, hcurr₃], by rw [hs₅.2, hinUse₃, hinUse], hmode, hreg .a0, hreg .sp,
    hscr hmode⟩
  exact (hrun'.of_startAt ((hrun.of_startAt (hr₀.step hs)).step h₃)).step h₅

/-- `idle` takes a timer interrupt, and another process runs before it returns. -/
theorem trap_returns_idle : ∃ s₀ s₄ : Machine Bool, s₀.hart.get 8 = 8 ∧
    s₀.hart.get 2 = 0x82001000 ∧ (∀ r : Reg, s₄.hart.get r = s₀.hart.get r) ∧
    s₄.hart.csr .sepc = 0x80200000 ∧ s₄.hart.priv = .supervisor := by
  obtain ⟨s, hs, hcurr, hinUse, hpriv, hx, hstack, hframes, -⟩ := exists_forked
  have hr : (machineSystem twoProcs).Reachable s := (System.Reachable.start booted_init).step hs
  obtain ⟨s₀, hs₀⟩ : ∃ s₀, s₀ = { s with hart := s.hart.set 2 0x82001000 } := ⟨_, rfl⟩
  have hr₀ : (machineSystem twoProcs).Reachable s₀ := by
    rw [hs₀]
    exact hr.step (step_set s 2 0x82001000)
  have hcurr₀ : s₀.curr = false := by rw [hs₀, ← hcurr]
  have hpriv₀ : s₀.hart.priv = .supervisor := by rw [hs₀, ← hpriv]; rfl
  have hframes₀ : s₀.frames s₀.curr = [] := by rw [hcurr₀, hs₀, ← hframes]
  have h2 : s₀.hart.get 2 = 0x82001000 := by simp [hs₀]
  have h8 : s₀.hart.get 8 = 8 := by
    have : s₀.hart.get 8 = s.hart.get 8 := by simp [hs₀]
    rw [this, Hart.get, hx]
    decide
  obtain ⟨c, hc⟩ : ∃ c, c = s₀.hart.takeTrap 0x80200000 0x8000000000000005 0 := ⟨_, rfl⟩
  obtain ⟨t, ht, hsp, -, hp, -⟩ := saveAll_spec c
  have hscr : c.csr .sscratch = 0 := by
    rw [hc, Hart.takeTrap_sscratch]
    exact (machine_ok hr₀).kernel hpriv₀
  have hsp' : t.get 2 = 0x82000ee0 := by
    rw [hsp, stackTop, if_pos hscr, hc, show (s₀.hart.takeTrap _ _ _).get 2 = _ from h2]
    rfl
  obtain ⟨s₁, h₁, hcurr₁, hframes₁, hinUse₁, hpriv₁⟩ : ∃ s₁, (machineSystem twoProcs).step s₀
      (.trap 0x80200000 0x8000000000000005 0) s₁ ∧ s₁.curr = false ∧
      s₁.frames false = [(t.get 2, frameValue c)] ∧ s₁.inUse = (fun _ => true) ∧
      s₁.hart.priv = .supervisor := by
    refine ⟨_, ⟨c, t, hc, ht.symm, fun _ => ⟨fun b hb => ?_, by simp [hframes₀]⟩, rfl⟩, hcurr₀,
      ?_, by rw [← hinUse, hs₀]; rfl, by rw [← hpriv₀, hs₀]; exact hp.trans (hc ▸ hpriv.symm)⟩
    · have hb : (b - t.get 2).toNat < 288 := hb
      have hk : s₀.kernelStack s₀.curr = 0x82000000 := by rw [hcurr₀, hs₀, ← hstack]
      show (b - s₀.kernelStack s₀.curr).toNat < 8192
      rw [hk]
      rw [hsp'] at hb
      bv_omega
    · rw [← hcurr₀, hframes₀]
      exact Function.update_self _ _ _
  -- the other process runs, and then `idle` again
  obtain ⟨hrun, s₂, h₂, hcurr₂, hframes₂, hinUse₂, hpriv₂⟩ := exists_runProc (q := true)
    (hr₀.step h₁) (by rw [hinUse₁]) (by rw [hcurr₁]; decide) hpriv₁
  obtain ⟨hrun', s₃, h₃, hcurr₃, hframes₃, -, hpriv₃⟩ := exists_runProc (q := false)
    ((hrun.of_startAt (hr₀.step h₁)).step h₂) (by rw [hinUse₂, hinUse₁])
    (by rw [hcurr₂]; decide) hpriv₂
  have hframe : s₃.frames false = [(t.get 2, frameValue c)] := by
    rw [hframes₃, hframes₂, hframes₁]
  have hrun'' := (hrun.trans (.single h₂)).trans
    ((hrun'.trans (.single h₃)).trans (.single (step_set s₃ 2 (t.get 2))))
  have h₄ : (machineSystem twoProcs).step { s₃ with hart := s₃.hart.set 2 (t.get 2) } .ret
      (({ s₃ with hart := s₃.hart.set 2 (t.get 2) } : Machine Bool).setFrames
        (Hart.run 0 restoreAll (s₃.hart.set 2 (t.get 2))).sret []) := by
    refine ⟨(t.get 2, frameValue c), [], ?_, hpriv₃, by simp, rfl⟩
    show s₃.frames s₃.curr = _
    rw [hcurr₃, hframe]
  obtain ⟨hreg, hpc, hmode, -⟩ := trap_returns hr₀ h₁ hrun'' (hcurr₃.trans hcurr₀.symm)
    (by rw [hcurr₀, hframes₁]; exact hframe) h₄
  exact ⟨s₀, _, h8, h2, hreg, hpc, hmode.trans hpriv₀⟩

end GarretOS
