import Microv.Core.BootParams
import Microv.Core.Gdt
import Microv.Core.Mptable

/-!
# Linux Boot Setup

The part of `main.c` that prepares guest memory for a 64-bit Linux kernel: the
page tables the processor starts with, and then the tables, the parameters and
the images of the other files, in the order `init_linux_boot` builds them.

The processor is started with paging on and its table pointer at `PML4_START`.
One entry of the top table and one of the next lead to a table of 512 entries,
each of which maps two megabytes.

## Main definitions

* `setupPde`: The loop over the page directory.
* `setupPagetable`: The three tables.
* `initLinuxBoot`: Everything in guest memory before the processor starts.
-/

namespace Microv

/-- The first `n` turns of the loop of `setup_pagetable`. -/
def setupPde (mapper : Int → MemRegion) (mem : ByteMem) : Nat → ByteMem
  | 0 => mem
  | i + 1 =>
      (setupPde mapper mem i).writeLE (getUserspaceAddr mapper (pdeStart + i * 8)) 8
        ((i <<< 21) + 0x83)

/-- `setup_pagetable`. -/
def setupPagetable (mapper : Int → MemRegion) (mem : ByteMem) : ByteMem :=
  let mem := mem.writeLE (getUserspaceAddr mapper pml4Start) 8 (pdpteStart ||| 0x03)
  let mem := mem.writeLE (getUserspaceAddr mapper pdpteStart) 8 (pdeStart ||| 0x03)
  setupPde mapper mem 512

def vcpuCount : Nat := 1

/-- `init_linux_boot`; `none` where a loader ends the program. -/
def initLinuxBoot (kernelFile initrdFile : Option File) (s : BootState) : Option BootState :=
  let s := { s with mem := setupPagetable s.memMapper s.mem }
  let s := { s with mem := setupMptable s.memMapper vcpuCount s.mem }
  let s := setupCmdline s
  (setupBootParams kernelFile initrdFile s).bind fun s =>
    let s := { s with mem := setupGdt s.memMapper s.mem }
    some { s with mem := setupIdt s.memMapper s.mem }

end Microv
