import Mathlib.Algebra.Group.Nat.Defs
import Mathlib.Data.Nat.Notation

/-! Addresses and the boot-time pointer allocator of mem/mem.c. -/

namespace X86Osdev.Mem

def pageSize : ℕ := 4096

def kernelVirtualAddressBase : ℕ := 0xC0000000

/-- 32-bit unsigned arithmetic. -/
def u32 (n : ℕ) : ℕ := n % 2 ^ 32

/-- `PA(X)`, the subtraction of the kernel base modulo `2 ^ 32`. -/
def pa (x : ℕ) : ℕ := u32 (x + (2 ^ 32 - kernelVirtualAddressBase))

def va (x : ℕ) : ℕ := u32 (x + kernelVirtualAddressBase)

/-- `boot_alloc`: the returned address and the new `free_mem_addr`. -/
def bootAlloc (size : ℕ) (align : Bool) (freeMemAddr : ℕ) : ℕ × ℕ :=
  let isAligned := freeMemAddr % 0x1000
  let freeMemAddr :=
    if align = true ∧ isAligned ≠ 0 then u32 (freeMemAddr - isAligned + 0x1000) else freeMemAddr
  (freeMemAddr, u32 (freeMemAddr + size))

end X86Osdev.Mem
