import Mathlib.Data.UInt

/-!
# The Run Loop

`vcpu_exec` of `main.c`: the loop that enters the guest and serves its exits.

Entering the guest is a call to the kernel. What it brings back is a return
value and a page shared with the kernel, of which the loop itself looks at the
exit reason only and hands the rest to the buses. The buses are parameters
here, as functions on whatever the machine is.

The variable the loop tests is not initialised, and it is a local that lives
through all turns. A branch that does not assign it leaves what an earlier
turn, or nobody, put there.

## Main definitions

* `KvmExit`: What one `KVM_RUN` brings back.
* `VcpuLoop`: The loop before a `KVM_RUN`, or after its end.
* `vcpuExecTurn`: One turn of the loop.
* `vcpuExec`: The loop on a sequence of exits.
-/

namespace Microv

-- The `KVM_EXIT_*` reasons the loop knows.
def kvmExitUnknown : UInt32 := 0

def kvmExitIo : UInt32 := 2

def kvmExitHlt : UInt32 := 5

def kvmExitMmio : UInt32 := 6

def kvmExitIrqWindowOpen : UInt32 := 7

def kvmExitShutdown : UInt32 := 8

def kvmExitInternalError : UInt32 := 17

def kvmExitSystemEvent : UInt32 := 24

/-- The return value of `KVM_RUN`, the exit reason, and the rest of the shared
    page. -/
structure KvmExit (π : Type) where
  runRet : Int
  exitReason : UInt32
  page : π

/-- The loop about to call `KVM_RUN`, with its variable, or the function's
    result; and the machine. -/
inductive VcpuLoop (σ : Type) where
  | entering (ret : Int) (machine : σ)
  | returned (ret : Int) (machine : σ)

section

variable {σ π : Type} (handlePio handleMmio : π → σ → σ)

/-- `while (ret == 0)`, and the `return` behind it. -/
def whileZero (ret : Int) (machine : σ) : VcpuLoop σ :=
  if ret = 0 then .entering ret machine else .returned ret machine

/-- One turn of the loop, on what its `KVM_RUN` brings back. -/
def vcpuExecTurn (ret : Int) (machine : σ) (run : KvmExit π) : VcpuLoop σ :=
  if run.runRet < 0 then .returned (-1) machine
  else if run.exitReason = kvmExitHlt then .returned 0 machine
  else if run.exitReason = kvmExitIo then whileZero 0 (handlePio run.page machine)
  else if run.exitReason = kvmExitMmio then whileZero 0 (handleMmio run.page machine)
  else if run.exitReason = kvmExitIrqWindowOpen then whileZero (-1) machine
  else if run.exitReason = kvmExitShutdown then whileZero (-1) machine
  else if run.exitReason = kvmExitUnknown then whileZero (-1) machine
  -- From here on the branches print, and leave the variable alone.
  else if run.exitReason = kvmExitInternalError then whileZero ret machine
  else if run.exitReason = kvmExitSystemEvent then whileZero ret machine
  else whileZero ret machine

/-- An exit is taken by a loop that has called `KVM_RUN`, and by no other. -/
def VcpuLoop.step (run : KvmExit π) : VcpuLoop σ → VcpuLoop σ
  | .entering ret machine => vcpuExecTurn handlePio handleMmio ret machine run
  | .returned ret machine => .returned ret machine

/-- `vcpu_exec` on a sequence of exits, its variable starting with `ret`. -/
def vcpuExec (ret : Int) (machine : σ) (runs : List (KvmExit π)) : VcpuLoop σ :=
  runs.foldl (fun l run => l.step handlePio handleMmio run) (.entering ret machine)

end

end Microv
