import Microv.Core.VirtioBlk

/-!
# Boot Parameters

`bootparams.c`: loading the kernel and the initial ramdisk, and filling in the
zero page a Linux kernel reads its parameters from.

A file is opened or it is not, and a file that cannot be opened ends the
program, so each loader returns `none` there. The length of an open file goes
through an `int` on its way to the 64-bit size that is subtracted and passed
to `fread`, and `fileLen` keeps that conversion. `fread` delivers what the file
has, up to the size it is asked for. The length of a file of 2 to 4 GiB has
become a size above `SSIZE_MAX`, which `read` refuses, and nothing of it is
loaded.

`struct boot_params` is packed and one page long. Its fields are written
through the pointer to the zero page, at the offsets the header comments give.

## Main definitions

* `BootState`: The statics of `memory.c` and `bootparams.c`, with the host's
  memory.
* `fileLen`: The length of a file, as an `int`.
* `loadInitrd`, `loadKernel`: Placing the two images.
* `BootE820Entry`: One entry of the memory map.
* `setupE820`: The memory map.
* `setupHeaderRamdisk`: The setup header.
* `setupCmdline`: The command line.
* `setupBootParams`: The zero page and the images.
-/

namespace Microv

/-- The statics the boot code works with, and the memory of the monitor. -/
structure BootState extends MemState where
  mem : ByteMem
  initrdSize : Nat
  initrdAddr : Nat

/-- `get_userspace_addr`, on the current mapper. -/
def BootState.ptr (s : BootState) (guestAddr : Nat) : Nat :=
  getUserspaceAddr s.memMapper guestAddr

/-- `CMDLINE`, less its terminator. -/
def cmdline : List UInt8 :=
  ByteMem.ascii "console=ttyS0 pci=conf1 panic=1 reboot=k root=/dev/ram rdinit=/bin/sh"

/-- `file_len`. The position `ftell` returns is kept in an `int`. -/
def fileLen (fp : File) : Int :=
  Int.bmod fp.len (2 ^ 32)

/-- An `int` converted to a 64-bit unsigned word. -/
def toUint64 (n : Int) : Nat :=
  (n % 2 ^ 64).toNat

/-- What `fread` delivers of one item of `size` bytes, from the start of the
    file. A size above `SSIZE_MAX` is refused. -/
def freadItem (fp : File) (size : Nat) : List UInt8 :=
  if size < 2 ^ 63 then fp.pread 0 size else []

/-- `fread` of one item. -/
def fread (mem : ByteMem) (ptr size : Nat) (fp : File) : ByteMem :=
  mem.write ptr (freadItem fp size)

/-- A 64-bit word with its low twelve bits masked out. -/
def pageAligned (addr : Nat) : Nat :=
  addr / 0x1000 * 0x1000

/-- `load_initrd`. -/
def loadInitrd (initrd : Option File) (s : BootState) : Option BootState :=
  match initrd with
  | none => none
  | some fp =>
      let size := toUint64 (fileLen fp)
      let addrMax :=
        if initrdAddrMax > getRamEnd s.toMemState then getRamEnd s.toMemState else initrdAddrMax
      let addr := pageAligned (sub64 addrMax size)
      some { s with
        initrdSize := size, initrdAddr := addr, mem := fread s.mem (s.ptr addr) size fp }

/-- `load_kernel`. -/
def loadKernel (vmlinux : Option File) (s : BootState) : Option BootState :=
  match vmlinux with
  | none => none
  | some fp =>
      some { s with mem := fread s.mem (s.ptr vmlinuxStart) (toUint64 (fileLen fp)) fp }

def e820Ram : Nat := 1

def e820Reserved : Nat := 2

/-- `struct boot_e820_entry`. -/
structure BootE820Entry where
  addr : Nat
  size : Nat
  type : Nat
  deriving DecidableEq, Repr

/-- The packed bytes of an entry. -/
def BootE820Entry.bytes (e : BootE820Entry) : List UInt8 :=
  ByteMem.leBytes 8 e.addr ++ ByteMem.leBytes 8 e.size ++ ByteMem.leBytes 4 e.type

/-- Assign `e820_table[i]`. -/
def putE820 (bootParams i : Nat) (e : BootE820Entry) (mem : ByteMem) : ByteMem :=
  mem.write (bootParams + 0x2d0 + 20 * i) e.bytes

/-- Assign `e820_entries`. -/
def putE820Entries (bootParams n : Nat) (mem : ByteMem) : ByteMem :=
  mem.writeLE (bootParams + 0x1e8) 1 n

/-- `setup_e820`. -/
def setupE820 (bootParams : Nat) (s : BootState) : BootState :=
  let ramEnd := getRamEnd s.toMemState
  let mem := putE820Entries bootParams 0 s.mem
  let mem := putE820 bootParams 0
    ⟨realModeIvtStart, mptableStart - realModeIvtStart, e820Ram⟩ mem
  let mem := putE820 bootParams 1 ⟨mptableStart, vgaRamStart - mptableStart, e820Reserved⟩ mem
  let mem := putE820 bootParams 2 ⟨mbBiosStart, 0, e820Reserved⟩ mem
  if ramEnd ≤ getGapEnd then
    let mem := putE820 bootParams 3 ⟨vmlinuxRamStart, sub64 ramEnd vmlinuxRamStart, e820Ram⟩ mem
    { s with mem := putE820Entries bootParams 4 mem }
  else
    let mem := putE820 bootParams 3
      ⟨vmlinuxRamStart, sub64 getGapStart vmlinuxRamStart, e820Ram⟩ mem
    let mem := putE820 bootParams 4 ⟨getGapEnd, sub64 ramEnd getGapEnd, e820Ram⟩ mem
    { s with mem := putE820Entries bootParams 5 mem }

/-- `setup_header_ramdisk`. The ramdisk's place and size are 32-bit fields. -/
def setupHeaderRamdisk (bootParams : Nat) (s : BootState) : BootState :=
  let mem := s.mem.writeLE (bootParams + 0x218) 4 s.initrdAddr
  let mem := mem.writeLE (bootParams + 0x21c) 4 s.initrdSize
  let mem := mem.writeLE (bootParams + 0x1fe) 2 0xAA55
  let mem := mem.writeLE (bootParams + 0x202) 4 0x53726448
  let mem := mem.writeLE (bootParams + 0x210) 1 0xFF
  let mem := mem.writeLE (bootParams + 0x228) 4 cmdlineStart
  let mem := mem.writeLE (bootParams + 0x238) 4 cmdline.length
  { s with mem := mem }

/-- `setup_cmdline`. -/
def setupCmdline (s : BootState) : BootState :=
  { s with mem := writeUserspaceMemory s.memMapper s.mem cmdline cmdlineStart }

/-- `setup_boot_params`; `none` where a loader ends the program. -/
def setupBootParams (vmlinux initrd : Option File) (s : BootState) : Option BootState :=
  let bootParams := s.ptr zeroPageStart
  let s := { s with mem := s.mem.write bootParams (List.replicate 0x1000 0) }
  (loadKernel vmlinux s).bind fun s =>
    (loadInitrd initrd s).bind fun s =>
      some (setupHeaderRamdisk bootParams (setupE820 bootParams s))

end Microv
