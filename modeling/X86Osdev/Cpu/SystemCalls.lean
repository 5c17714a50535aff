import X86Osdev.Cpu.Descriptors
import X86Osdev.Kernel.Syscalls
import X86Osdev.Proc.TrapReturn

/-! System calls from external/syscalls.asm through the processor, cpu/isr.c and kernel/syscall.c, and back. -/

namespace X86Osdev.Cpu
open StackMachine StackMachine.Cpu ByteMemory Runs X86Osdev.Asm X86Osdev.Proc

def through (gate : Gate) (tss : Word) (err : List Word) (s : Cpu) : Cpu :=
  s.deliver tss (BitVec.ofNat 16 gate.selector) (BitVec.ofNat 32 gate.offset) err

/-- `int v` at `s.eip`, with the vector whose gate it takes. Without a gate for the code's level it faults on the
instruction, whose two bytes it is otherwise behind; none is a fault of the fault. -/
def softwareInt (idt : ℕ) (tss : Word) (v : ℕ) (s : Cpu) : Option (ℕ × Cpu) :=
  let gate := gateAt s.mem (idt + 8 * v)
  let allowed := gate.kind = 14 ∧ level s.cs ≤ gate.dpl
  if allowed ∧ gate.present then some (v, through gate tss [] { s with eip := s.eip + 2 })
  else
    let w := if allowed then 11 else 13
    let fault := gateAt s.mem (idt + 8 * w)
    if fault.kind = 14 ∧ fault.present then some (w, through fault tss [BitVec.ofNat 32 (8 * v + 2)] s) else none

/-- The stub of vector `v` up to the call of its handler. -/
def stubEntry (v : ℕ) (s : Cpu) : Cpu := commonEntry (s.pushAll (stubPushes v))

inductive IsrCall where
  | pageFault
  | syscall
  | gpFault
  | nothing
deriving DecidableEq

/-- What `isr_handler` calls. -/
def isrHandler (r : Registers) : IsrCall :=
  if r.intNo = 14 then .pageFault
  else if r.intNo = 13 then if r.errCode = 250 then .syscall else .gpFault
  else .nothing

def Gated (idt : ℕ) (isr irq : ℕ → ℕ) (m : Memory) : Prop :=
  ∀ v < 256, gateAt m (idt + 8 * v) =
    if v < 32 then kernelGate (isr v % 2 ^ 32) else if v < 48 then kernelGate (irq (v - 32) % 2 ^ 32) else emptyGate

section Vectors
variable {m : Memory} {idt v : ℕ} {isr irq : ℕ → ℕ} {tss : Word} {s : Cpu}

theorem gated_isrInstall (h : idt + 8 * 256 ≤ 2 ^ 32) (hzero : ∀ x, idt ≤ x → x < idt + 8 * 256 → m x = 0) :
    Gated idt isr irq (isrInstall idt isr irq m) := fun _ hv => gateAt_isrInstall h hzero hv

theorem softwareInt_user (tss : Word) (hgated : Gated idt isr irq s.mem) (huser : level s.cs = 3) (hv : v < 256) :
    ∃ d, softwareInt idt tss v s = some (13, d) ∧ stubEntry 13 d =
      trapEntry tss (BitVec.ofNat 32 (isr 13 % 2 ^ 32)) 13 (BitVec.ofNat 32 (8 * v + 2)) s := by
  have hdpl : (gateAt s.mem (idt + 8 * v)).dpl = 0 := by
    rw [hgated v hv]
    split
    · rfl
    · split <;> rfl
  have hno : ¬ ((gateAt s.mem (idt + 8 * v)).kind = 14 ∧ level s.cs ≤ (gateAt s.mem (idt + 8 * v)).dpl) := by
    rw [huser, hdpl]
    exact fun hc => absurd hc.2 (by decide)
  have hfault : gateAt s.mem (idt + 8 * 13) = kernelGate (isr 13 % 2 ^ 32) := hgated 13 (by decide)
  refine ⟨through (kernelGate (isr 13 % 2 ^ 32)) tss [BitVec.ofNat 32 (8 * v + 2)] s, ?_, rfl⟩
  unfold softwareInt
  simp only [hno, false_and, if_false, hfault]
  rfl

theorem softwareInt_kernel (tss : Word) (hgated : Gated idt isr irq s.mem) (hkernel : level s.cs = 0) :
    ∃ d, softwareInt idt tss 31 s = some (31, d) ∧ stubEntry 31 d =
      trapEntry tss (BitVec.ofNat 32 (isr 31 % 2 ^ 32)) 31 0 { s with eip := s.eip + 2 } := by
  have hgate : gateAt s.mem (idt + 8 * 31) = kernelGate (isr 31 % 2 ^ 32) := hgated 31 (by decide)
  refine ⟨through (kernelGate (isr 31 % 2 ^ 32)) tss [] { s with eip := s.eip + 2 }, ?_, rfl⟩
  unfold softwareInt
  simp only [hgate, hkernel]
  rfl

theorem Gated.kept {m' : Memory} {P : Set ℕ} (h : Gated idt isr irq m) (hm : Touches (2 ^ 32) P m m')
    (hend : idt + 8 * 256 ≤ 2 ^ 32) (hP : ∀ x ∈ P, idt ≤ x → idt + 8 * 256 ≤ x) : Gated idt isr irq m' := by
  intro v hv
  rw [← h v hv]
  refine gateAt_congr (fun x hx hlt => hm x (by omega) fun hin => ?_) (by omega)
  have := hP x hin (by omega)
  omega

theorem errCode_of_holds {r useless e n : Word} (h : Holds m r (trapRegisters s useless e n)) :
    (registersAt m r).errCode = e := by
  unfold trapRegisters at h
  split at h <;>
    · simp only [List.append_nil, List.cons_append, List.nil_append, Holds, BitVec.add_assoc, BitVec.ofNat_eq_ofNat,
        BitVec.reduceAdd] at h
      obtain ⟨-, -, -, -, -, -, -, -, -, -, herr, -⟩ := h
      exact herr

theorem trapCodes_error (err : Word) : trapCodes 13 err = [err, 13] := rfl

/-- The error code that stands for vector 31 in the table of gates. -/
theorem gate_error_iff (hv : v < 256) : BitVec.ofNat 32 (8 * v + 2) = (250 : Word) ↔ v = 31 := by
  have hcode : (250 : Word).toNat = 250 := rfl
  rw [← BitVec.toNat_inj, BitVec.toNat_ofNat, Nat.mod_eq_of_lt (by omega), hcode]
  omega

theorem isrHandler_user (entry : Word) (hv : v < 256) :
    let s' := trapEntry tss entry 13 (BitVec.ofNat 32 (8 * v + 2)) s
    isrHandler (registersAt s'.mem (s'.esp + 4)) = if v = 31 then .syscall else .gpFault := by
  have hfits : FrameFits 13 := rfl
  obtain ⟨useless, e, hcodes, hframe⟩ := (trapEntry_enters tss entry hfits (BitVec.ofNat 32 (8 * v + 2)) s).frame
  rw [trapCodes_error] at hcodes
  have herr := errCode_of_holds hframe
  have hno := (mirrors_of_holds hframe).intNo
  rw [← (List.cons.inj hcodes).1] at herr
  dsimp only
  rw [isrHandler, hno, herr]
  simp only [gate_error_iff hv]
  rfl

end Vectors

/-- `_system_call0` to `_system_call3`, which have a load for each of their `args` arguments, up to their `int 31`. -/
def systemCall (args : ℕ) (int : Word) (s : Cpu) : Cpu :=
  let s := s.push s.ebp
  let s := { s with ebp := s.esp }
  let s := { s with eax := read s.mem (s.ebp + 8) }
  let s := { s with ebx := if 1 ≤ args then read s.mem (s.ebp + 12) else s.ebx }
  let s := { s with ecx := if 2 ≤ args then read s.mem (s.ebp + 16) else s.ecx }
  let s := { s with edx := if 3 ≤ args then read s.mem (s.ebp + 20) else s.edx }
  { s with eip := int }

/-- Their `pop ebp` and `ret`. -/
def systemCallReturn (s : Cpu) : Cpu :=
  let s := { s with ebp := s.top, esp := s.esp + 4 }
  { s with eip := s.top, esp := s.esp + 4 }

/-- What `syscall_handler` does to its `registers_t`: `regs->eax = ret` in the calls that have a value, then
`regs->eip += 2`. -/
def answer (r : Word) (ret : Option Word) (m : Memory) : Memory :=
  let m := match ret with
    | some v => write m (r + 32) v
    | none => m
  write m (r + 44) (read m (r + 44) + 2)

def callRegs (r : Registers) : Kernel.Regs := ⟨r.eax.toNat, r.ebx.toNat, r.ecx.toNat, r.edx.toNat, r.eip.toNat⟩

section Answer
variable {m : Memory} {r : Word}

theorem registersAt_answer (r : Word) (ret : Option Word) (m : Memory) : registersAt (answer r ret m) r =
    { registersAt m r with
      eax := ret.getD (registersAt m r).eax
      eip := (registersAt m r).eip + 2 } := by
  have happart (m : Memory) (i j v : Word) (h : 4 ≤ (j - i).toNat) (h' : 4 ≤ (i - j).toNat) :
      read (write m (r + i) v) (r + j) = read m (r + j) := by
    apply read_write_apart <;> bv_omega
  have hfirst (m : Memory) (i v : Word) (h : 4 ≤ i.toNat) (h' : 4 ≤ (-i).toNat) :
      read (write m (r + i) v) r = read m r := by
    apply read_write_apart <;> bv_omega
  have hself (m : Memory) (i v : Word) : read (write m (r + i) v) (r + i) = v := read_write_self m (r + i) v
  cases ret <;>
    simp (disch := decide) only [answer, registersAt, happart, hfirst, hself, Option.getD_none, Option.getD_some]

section Returned
open X86Osdev.Kernel

variable {env : CallEnv} {regs regs' : Regs} {u u' : UserRun}

theorem switch_returned {e : SyscallEnd} {now : ℕ} (h : u.switch e now = .ok (.returned regs') u') :
    e = .returned regs' := by
  obtain ⟨_, _, -, hend⟩ := Outcome.bind_eq_ok.mp h
  exact (Outcome.ok.inj hend).1

theorem callWait4_returned {pid now : ℕ} {result : ℕ → Machine → ℕ}
    (h : Kernel.callWait4 pid now result regs u = .ok (.returned regs') u') : ∃ ret, regs' = regs.return ret := by
  unfold Kernel.callWait4 at h
  split at h
  · exact ⟨_, (SyscallEnd.returned.inj (Outcome.ok.inj h).1).symm⟩
  · exact absurd (switch_returned h) SyscallEnd.noConfusion

/-- A call that comes to an end in its handler has set `eax` and moved `eip`, and nothing else of its registers. -/
theorem syscallHandler_returned (h : Kernel.syscallHandler env regs u = .ok (.returned regs') u') :
    ∃ ret, regs' = regs.return ret := by
  unfold Kernel.syscallHandler at h
  split at h
  · exact absurd (switch_returned h) SyscallEnd.noConfusion
  · obtain ⟨_, _, -, hprint⟩ := Outcome.bind_eq_ok.mp h
    obtain ⟨_, _, -, hend⟩ := Outcome.bind_eq_ok.mp hprint
    exact ⟨_, (SyscallEnd.returned.inj (Outcome.ok.inj hend).1).symm⟩
  · obtain ⟨_, _, -, hend⟩ := Outcome.bind_eq_ok.mp h
    exact absurd (switch_returned hend) SyscallEnd.noConfusion
  · dsimp only at h
    split at h
    · exact absurd (switch_returned h) SyscallEnd.noConfusion
    · exact ⟨_, (SyscallEnd.returned.inj (Outcome.ok.inj h).1).symm⟩
  · exact callWait4_returned h
  · obtain ⟨_, _, -, hend⟩ := Outcome.bind_eq_ok.mp h
    exact ⟨_, (SyscallEnd.returned.inj (Outcome.ok.inj hend).1).symm⟩
  · obtain ⟨_, _, -, hwrite⟩ := Outcome.bind_eq_ok.mp h
    obtain ⟨_, _, -, hend⟩ := Outcome.bind_eq_ok.mp hwrite
    exact ⟨_, (SyscallEnd.returned.inj (Outcome.ok.inj hend).1).symm⟩
  · obtain ⟨_, _, -, hend⟩ := Outcome.bind_eq_ok.mp h
    exact callWait4_returned hend
  · obtain ⟨_, _, -, hend⟩ := Outcome.bind_eq_ok.mp h
    exact ⟨_, (SyscallEnd.returned.inj (Outcome.ok.inj hend).1).symm⟩
  · exact ⟨_, (SyscallEnd.returned.inj (Outcome.ok.inj h).1).symm⟩
  · exact ⟨_, (SyscallEnd.returned.inj (Outcome.ok.inj h).1).symm⟩

/-- The memory that the handler leaves shows the registers of its model. -/
theorem callRegs_answer (h : Kernel.syscallHandler env (callRegs (registersAt m r)) u = .ok (.returned regs') u') :
    callRegs (registersAt (answer r (some (BitVec.ofNat 32 regs'.eax)) m) r) =
      { regs' with eax := regs'.eax % 2 ^ 32 } := by
  obtain ⟨ret, rfl⟩ := syscallHandler_returned h
  rw [registersAt_answer]
  simp [callRegs, Kernel.Regs.return, Mem.u32, BitVec.toNat_add]

end Returned

/-- The program's state as the stub is to restore it. -/
def answered (ret : Option Word) (s : Cpu) : Cpu := { s with eax := ret.getD s.eax, eip := s.eip + 2 }

theorem mirrors_answer {v : ℕ} {s : Cpu} (ret : Option Word) (h : Mirrors v s (registersAt m r)) :
    Mirrors v (answered ret s) (registersAt (answer r ret m) r) := by
  rw [registersAt_answer]
  exact {
    eax := congrArg ret.getD h.eax
    ecx := h.ecx
    edx := h.edx
    ebx := h.ebx
    ebp := h.ebp
    esi := h.esi
    edi := h.edi
    eip := congrArg (· + 2) h.eip
    cs := h.cs
    ds := h.ds
    eflags := h.eflags
    intNo := h.intNo
    outer := h.outer }

theorem answer_touches (r : Word) (ret : Option Word) (m : Memory) :
    Touches (2 ^ 32) (span r 48) m (answer r ret m) := by
  have heax : Touches (2 ^ 32) (span r 48) m (match ret with | some v => write m (r + 32) v | none => m) := by
    cases ret with
    | none => exact Touches.refl _ _ _
    | some v => exact (touches_write m (r + 32) v).mono (span_add_subset (by decide))
  exact touches_write_of_subset heax (span_add_subset (by decide))

end Answer

structure CallReturns (args : ℕ) (ret : Option Word) (caller s' : Cpu) : Prop where
  eax : s'.eax = ret.getD (read caller.mem (caller.esp + 4))
  ebx : s'.ebx = if 1 ≤ args then read caller.mem (caller.esp + 8) else caller.ebx
  ecx : s'.ecx = if 2 ≤ args then read caller.mem (caller.esp + 12) else caller.ecx
  edx : s'.edx = if 3 ≤ args then read caller.mem (caller.esp + 16) else caller.edx
  ebp : s'.ebp = caller.ebp
  esi : s'.esi = caller.esi
  edi : s'.edi = caller.edi
  esp : s'.esp = caller.esp + 4
  eip : s'.eip = read caller.mem caller.esp
  cs : s'.cs = caller.cs
  ss : s'.ss = caller.ss
  eflags : s'.eflags = caller.eflags ||| interruptFlag
  segments : s'.ds = caller.ds ∧ s'.es = caller.ds ∧ s'.fs = caller.ds ∧ s'.gs = caller.ds

section Calls
variable {caller s s' : Cpu} {args : ℕ} {int : Word} {ret : Option Word}

structure Calling (args : ℕ) (int : Word) (caller s : Cpu) : Prop where
  eax : s.eax = read caller.mem (caller.esp + 4)
  ebx : s.ebx = if 1 ≤ args then read caller.mem (caller.esp + 8) else caller.ebx
  ecx : s.ecx = if 2 ≤ args then read caller.mem (caller.esp + 12) else caller.ecx
  edx : s.edx = if 3 ≤ args then read caller.mem (caller.esp + 16) else caller.edx
  esi : s.esi = caller.esi
  edi : s.edi = caller.edi
  esp : s.esp = caller.esp - 4
  cs : s.cs = caller.cs
  ss : s.ss = caller.ss
  ds : s.ds = caller.ds
  eflags : s.eflags = caller.eflags
  eip : s.eip = int
  mem : s.mem = write caller.mem (caller.esp - 4) caller.ebp

theorem systemCall_calling (args : ℕ) (int : Word) (caller : Cpu) :
    Calling args int caller (systemCall args int caller) := by
  have hslot (j k : Word) (hj : j = k + 4) (h : 4 ≤ j.toNat) (h' : 4 ≤ (-j).toNat) :
      read (write caller.mem (caller.esp - 4) caller.ebp) (caller.esp - 4 + j) = read caller.mem (caller.esp + k) := by
    have hplace : caller.esp - 4 + j = caller.esp + k := by bv_omega
    rw [← hplace]
    apply read_write_apart <;> bv_omega
  have hnumber := hslot 8 4 rfl (by decide) (by decide)
  have hfirst := hslot 12 8 rfl (by decide) (by decide)
  have hsecond := hslot 16 12 rfl (by decide) (by decide)
  have hthird := hslot 20 16 rfl (by decide) (by decide)
  constructor <;> simp only [systemCall, push, hnumber, hfirst, hsecond, hthird]

/-- What `pop ebp` and `ret` take from the stack. -/
theorem systemCallReturn_returns (hcalling : Calling args int caller s) (hon : GoesOn (answered ret s) s')
    (hstack : Holds s'.mem (caller.esp - 4) [caller.ebp, read caller.mem caller.esp]) :
    CallReturns args ret caller (systemCallReturn s') := by
  have hesp : s'.esp = caller.esp - 4 := hon.esp.trans hcalling.esp
  have hnext : caller.esp - 4 + 4 = caller.esp := by bv_omega
  obtain ⟨hebp, hret, -⟩ := hstack
  rw [hnext] at hret
  refine {
    eax := (hon.eax.trans ?_)
    ebx := hon.ebx.trans hcalling.ebx
    ecx := hon.ecx.trans hcalling.ecx
    edx := hon.edx.trans hcalling.edx
    ebp := ?_
    esi := hon.esi.trans hcalling.esi
    edi := hon.edi.trans hcalling.edi
    esp := ?_
    eip := ?_
    cs := hon.cs.trans hcalling.cs
    ss := hon.ss.trans hcalling.ss
    eflags := hon.eflags.trans (congrArg (· ||| interruptFlag) hcalling.eflags)
    segments := ?_ }
  · exact congrArg ret.getD hcalling.eax
  · change read s'.mem s'.esp = _
    rw [hesp, hebp]
  · change s'.esp + 4 + 4 = _
    rw [hesp, hnext]
  · change read s'.mem (s'.esp + 4) = _
    rw [hesp, hnext, hret]
  · rw [← hcalling.ds]
    exact hon.segments

end Calls

section Roundtrip
variable {g : Globals} {caller delivered : Cpu} {args idt w : ℕ} {isr irq : ℕ → ℕ} {int : Word} {ret : Option Word}
  {s₀ sys s₁ s₂ : SwitchSys} {S : Set ℕ}

attribute [local irreducible] trapEntry systemCall stubEntry stubExit answer

/-- A program's call reaches `syscall_handler` with its number and arguments and comes back with the handler's value,
whatever runs in between, as long as the two words of its routine are still on its stack. -/
theorem system_call_returns (hstart : SwitchStart g s₀) (hrun : Steps (switchStep g) (SwitchAllowed g) s₀ sys)
    (hcall : sys.cpu = systemCall args int caller) (huser : level caller.cs = 3)
    (hgated : Gated idt isr irq sys.cpu.mem) (hint : softwareInt idt g.tss 31 sys.cpu = some (w, delivered))
    (hS : sys.stack (current g sys.cpu.mem) = some S) (hroom : span (stubEntry w delivered).esp 68 ⊆ S)
    (hentry : switchStep g (.work (stubEntry w delivered)) sys = some s₁)
    (hmid : HandlerSteps g (current g sys.cpu.mem) (trapBytes sys.cpu s₁.cpu.esp) s₁ s₂)
    (hesp : s₂.cpu.esp = s₁.cpu.esp) (hcs : level s₂.cpu.cs = 0)
    (hwords : Holds s₂.cpu.mem (caller.esp - 4) [caller.ebp, read caller.mem caller.esp])
    (hapart : Disjoint S (span (caller.esp - 4) 8)) :
    isrHandler (registersAt s₁.cpu.mem (s₁.cpu.esp + 4)) = .syscall ∧
    callRegs (registersAt s₁.cpu.mem (s₁.cpu.esp + 4)) =
      ⟨(read caller.mem (caller.esp + 4)).toNat, sys.cpu.ebx.toNat, sys.cpu.ecx.toNat, sys.cpu.edx.toNat, int.toNat⟩ ∧
    CallReturns args ret caller
      (systemCallReturn (stubExit w { s₂.cpu with mem := answer (s₁.cpu.esp + 4) ret s₂.cpu.mem })) := by
  have hcalling : Calling args int caller sys.cpu := hcall ▸ systemCall_calling args int caller
  have hlevel : level sys.cpu.cs = 3 := by rw [hcalling.cs, huser]
  have hne : level sys.cpu.cs ≠ 0 := by rw [hlevel]; decide
  obtain ⟨d, hd, hstub⟩ := softwareInt_user g.tss hgated hlevel (show 31 < 256 by decide)
  rw [hd, Option.some.injEq, Prod.mk.injEq] at hint
  obtain ⟨rfl, rfl⟩ := hint
  have hfits : FrameFits 13 := rfl
  have hsize : trapSize sys.cpu = 68 := if_neg hne
  rw [hstub] at hroom hentry
  rw [← hsize] at hroom
  obtain ⟨hcpu, useless, e, -, hframe⟩ := trap_frame hstart hrun hfits hS hroom hentry hmid
  have henters := trapEntry_enters g.tss (BitVec.ofNat 32 (isr 13 % 2 ^ 32)) hfits
    (BitVec.ofNat 32 (8 * 31 + 2)) sys.cpu
  rw [← hcpu] at henters hroom
  obtain ⟨useless₁, e₁, -, hframe₁⟩ := henters.frame
  have hfirst := mirrors_of_holds hframe₁
  obtain ⟨back, hback⟩ : ∃ back : Cpu, back = { s₂.cpu with mem := answer (s₁.cpu.esp + 4) ret s₂.cpu.mem } := ⟨_, rfl⟩
  have hmem : back.mem = answer (s₁.cpu.esp + 4) ret s₂.cpu.mem := by rw [hback]
  have hleaves := stubExit_leaves (s := back) 13 (by rw [hback]; exact hcs)
  rw [show back.esp = s₁.cpu.esp by rw [hback]; exact hesp] at hleaves
  -- the routine's two words are not on the stack that the kernel wrote to
  have hsub (k : Word) (n : ℕ) (hk : k.toNat + n ≤ 68) : span (s₁.cpu.esp + k) n ⊆ S :=
    (span_add_subset (by rwa [hsize])).trans hroom
  have htouch : Touches (2 ^ 32) S s₂.cpu.mem (stubExit 13 back).mem := by
    have hanswer := (answer_touches (s₁.cpu.esp + 4) ret s₂.cpu.mem).mono (hsub 4 48 (by decide))
    rw [← hmem] at hanswer
    exact hanswer.trans (hleaves.touches.mono (hsub 56 4 (by decide)))
  rw [← hback]
  rw [hmem] at hleaves
  refine ⟨?_, ?_, systemCallReturn_returns hcalling (goesOn_of_mirrors (mirrors_answer ret (mirrors_of_holds hframe))
    hleaves fun hinner => absurd hinner hne) (hwords.touches (by simp) htouch hapart)⟩
  · rw [hcpu]
    exact isrHandler_user _ (by decide)
  · rw [callRegs, hfirst.eax, hfirst.ebx, hfirst.ecx, hfirst.edx, hfirst.eip, hcalling.eax, hcalling.eip]

/-- All that a program reaches with its software interrupts is `syscall_handler`, by vector 31, and the handler of
protection faults. -/
theorem program_interrupts {s : Cpu} {tss : Word} {v : ℕ} (hgated : Gated idt isr irq s.mem) (huser : level s.cs = 3)
    (hv : v < 256) : ∃ d, softwareInt idt tss v s = some (13, d) ∧
      isrHandler (registersAt (stubEntry 13 d).mem ((stubEntry 13 d).esp + 4)) =
        if v = 31 then .syscall else .gpFault := by
  obtain ⟨d, hd, hstub⟩ := softwareInt_user tss hgated huser hv
  refine ⟨d, hd, ?_⟩
  rw [hstub]
  exact isrHandler_user _ hv

/-- The same call made in the kernel finds no handler: the code behind it goes on as it was. -/
theorem kernel_call_ignored (hstart : SwitchStart g s₀) (hrun : Steps (switchStep g) (SwitchAllowed g) s₀ sys)
    (hkernel : level sys.cpu.cs = 0) (hgated : Gated idt isr irq sys.cpu.mem)
    (hint : softwareInt idt g.tss 31 sys.cpu = some (w, delivered))
    (hS : sys.stack (current g sys.cpu.mem) = some S) (hroom : span (stubEntry w delivered).esp 60 ⊆ S)
    (hentry : switchStep g (.work (stubEntry w delivered)) sys = some s₁)
    (hmid : HandlerSteps g (current g sys.cpu.mem) (trapBytes sys.cpu s₁.cpu.esp) s₁ s₂)
    (hesp : s₂.cpu.esp = s₁.cpu.esp) (hss : s₂.cpu.ss = s₁.cpu.ss) (hcs : level s₂.cpu.cs = 0) :
    isrHandler (registersAt s₁.cpu.mem (s₁.cpu.esp + 4)) = .nothing ∧
      GoesOn { sys.cpu with eip := sys.cpu.eip + 2 } (stubExit w s₂.cpu) := by
  obtain ⟨d, hd, hstub⟩ := softwareInt_kernel g.tss hgated hkernel
  rw [hd, Option.some.injEq, Prod.mk.injEq] at hint
  obtain ⟨rfl, rfl⟩ := hint
  have hfits : FrameFits 31 := rfl
  rw [hstub] at hroom hentry
  -- the instruction is behind the code when its interrupt is taken
  have hskip : SwitchAllowed g sys (.work { sys.cpu with eip := sys.cpu.eip + 2 }) := ⟨Touches.refl _ _ _, rfl⟩
  have hrun' := hrun.tail ⟨_, hskip, rfl⟩
  have hcpu : s₁.cpu =
      trapEntry g.tss (BitVec.ofNat 32 (isr 31 % 2 ^ 32)) 31 0 { sys.cpu with eip := sys.cpu.eip + 2 } := by
    rw [switchStep, Option.some.injEq] at hentry
    rw [← hentry]
  refine ⟨?_, ?_⟩
  · obtain ⟨useless, e, -, hframe⟩ := (trapEntry_enters g.tss (BitVec.ofNat 32 (isr 31 % 2 ^ 32)) hfits 0
      { sys.cpu with eip := sys.cpu.eip + 2 }).frame
    rw [hcpu, isrHandler, (mirrors_of_holds hframe).intNo]
    rfl
  · have hsize : trapSize { sys.cpu with eip := sys.cpu.eip + 2 } = 60 := if_pos hkernel
    exact trap_goesOn hstart hrun' hfits hS (by rwa [hsize]) hentry hmid hesp hss hcs

end Roundtrip

namespace TwoThreads
open X86Osdev.Proc.TwoThreads

/-- The table of gates, the first thread as the current one, and its kernel stack in the task state segment. -/
def callMemory : Memory :=
  write (write (isrInstall 0x40000 id id fun _ => 0) globals.currentThread first) (globals.tss + 4) 0x10F00

def program : Cpu :=
  { bootCpu with
    esp := 0x50000, cs := 0x1B, ss := 0x23, ds := 0x23, es := 0x23, fs := 0x23, gs := 0x23, mem := callMemory }

def calling : SwitchSys := { boot with cpu := systemCall 1 0x700 program }

attribute [local irreducible] trapEntry systemCall stubEntry stubExit answer

theorem calling_called : Calling 1 0x700 program calling.cpu := systemCall_calling 1 0x700 program

theorem current_calling : current globals calling.cpu.mem = first := by
  rw [current, calling_called.mem]
  refine (read_write_apart (by decide) (by decide)).trans ?_
  exact (read_write_apart (by decide) (by decide)).trans (read_write_self _ _ _)

theorem kernelStack_calling : read calling.cpu.mem (globals.tss + 4) = 0x10F00 := by
  rw [calling_called.mem]
  exact (read_write_apart (by decide) (by decide)).trans (read_write_self _ _ _)

theorem gated_callMemory : Gated 0x40000 id id callMemory ∧ Gated 0x40000 id id calling.cpu.mem := by
  have hend : 0x40000 + 8 * 256 ≤ 2 ^ 32 := by decide
  have hout (a : Word) (ha : (0x40000 + 8 * 256 ≤ a.toNat ∨ a.toNat + 4 ≤ 0x40000) ∧ a.toNat + 4 ≤ 2 ^ 32) :
      ∀ x ∈ span a 4, 0x40000 ≤ x → 0x40000 + 8 * 256 ≤ x := by
    rintro x ⟨hlt, hx⟩ hle
    by_contra hc
    bv_omega
  have hzero : Gated 0x40000 id id (isrInstall 0x40000 id id fun _ => 0) :=
    gated_isrInstall hend fun _ _ _ => rfl
  have hcurrent := hzero.kept (touches_write _ globals.currentThread first) hend (hout _ (by decide))
  have htss := hcurrent.kept (touches_write _ (globals.tss + 4) 0x10F00) hend (hout _ (by decide))
  refine ⟨htss, ?_⟩
  rw [calling_called.mem]
  exact htss.kept (touches_write _ (program.esp - 4) program.ebp) hend (hout _ (by decide))

theorem start_calling : SwitchStart globals calling where
  layout := start.layout
  running := by
    rw [current_calling]
    simp [calling, boot]
  alone _ := rfl

def busy (s : Cpu) : Cpu :=
  { s with eax := 1, ecx := 2, edx := 3, ebx := 4, ebp := 5, esi := 6, edi := 7, mem := write s.mem (s.esp - 4) 8 }

theorem busy_steps {sys : SwitchSys} {d : Cpu} {S F : Set ℕ} (hi : SwitchInv globals sys)
    (hS : sys.stack (current globals sys.cpu.mem) = some S) (htouch : Touches (2 ^ 32) S sys.cpu.mem d.mem)
    (hcr3 : d.cr3 = sys.cpu.cr3) (hroom : span (d.esp - 4) 4 ⊆ S) (hF : Disjoint (span (d.esp - 4) 4) F) :
    HandlerSteps globals (current globals sys.cpu.mem) F { sys with cpu := d } { sys with cpu := busy d } := by
  have hallowed : SwitchAllowed globals sys (.work d) := hi.onStack_allowed hS htouch hcr3
  have hcur : current globals d.mem = current globals sys.cpu.mem := SwitchInv.current_kept hallowed.1
  have hstore : Touches (2 ^ 32) (span (d.esp - 4) 4) d.mem (busy d).mem := touches_write _ _ _
  have hstep : SwitchAllowed globals { sys with cpu := d } (.work (busy d)) :=
    (hi.work hallowed.1).onStack_allowed (by rwa [hcur]) (hstore.mono hroom) rfl
  exact .single ⟨.work (busy d), ⟨hstep, fun _ => hstore.mono (Set.subset_compl_iff_disjoint_right.mpr hF)⟩, rfl⟩

/-- The kernel answers 7. -/
theorem call_returned : ∃ w delivered, softwareInt 0x40000 globals.tss 31 calling.cpu = some (w, delivered) ∧
    CallReturns 1 (some 7) program (systemCallReturn (stubExit w { busy (stubEntry w delivered) with
      mem := answer ((stubEntry w delivered).esp + 4) (some 7) (busy (stubEntry w delivered)).mem })) := by
  have hlevel : level calling.cpu.cs = 3 := (congrArg level calling_called.cs).trans rfl
  have hne : level calling.cpu.cs ≠ 0 := by rw [hlevel]; decide
  obtain ⟨d, hd, hstub⟩ := softwareInt_user globals.tss gated_callMemory.2 hlevel (show 31 < 256 by decide)
  have hfits : FrameFits 13 := rfl
  have henters := trapEntry_enters globals.tss (BitVec.ofNat 32 (id 13 % 2 ^ 32)) hfits
    (BitVec.ofNat 32 (8 * 31 + 2)) calling.cpu
  rw [← hstub] at henters
  have hesp : (stubEntry 13 d).esp = 0x10EBC := by
    rw [(henters.outer hne).1, kernelStack_calling]
    rfl
  have hstack : calling.stack (current globals calling.cpu.mem) = some firstStack := by
    rw [current_calling]
    simp [calling, boot]
  have hroom : span (stubEntry 13 d).esp 68 ⊆ firstStack := by
    rw [hesp]
    exact span_subset (by decide)
  have htouch := henters.touches
  rw [if_neg hne] at htouch
  have hbelow : span ((stubEntry 13 d).esp - 4) 4 ⊆ firstStack := by
    rw [hesp]
    exact span_subset (by decide)
  have hapart : Disjoint (span ((stubEntry 13 d).esp - 4) 4) (trapBytes calling.cpu (stubEntry 13 d).esp) := by
    rw [trapBytes, trapSize, if_neg hne, hesp]
    exact span_disjoint (by decide) (by decide)
  have hmid := busy_steps start_calling.inv hstack (htouch.mono hroom) henters.cr3 hbelow hapart
  have hwords : Holds (busy (stubEntry 13 d)).mem (program.esp - 4) [program.ebp, read program.mem program.esp] := by
    have hstore : Touches (2 ^ 32) firstStack calling.cpu.mem (busy (stubEntry 13 d)).mem :=
      (htouch.mono hroom).trans ((touches_write _ _ _).mono hbelow)
    refine Holds.touches (m := calling.cpu.mem) ?_ (by simp) hstore (span_disjoint (by decide) (by decide))
    rw [calling_called.mem]
    exact ⟨read_write_self _ _ _, read_write_apart (by decide) (by decide), trivial⟩
  have hcs : level (busy (stubEntry 13 d)).cs = 0 := (congrArg level henters.code).trans level_kernelCs
  exact ⟨13, d, hd, (system_call_returns start_calling .refl rfl rfl gated_callMemory.2 hd hstack hroom rfl hmid rfl
    hcs hwords (span_disjoint (by decide) (by decide))).2.2⟩

/-- Every `int v` of the program; vector 32 is that of the timer. -/
theorem program_interrupted : ∃ d, softwareInt 0x40000 globals.tss 32 calling.cpu = some (13, d) ∧
    isrHandler (registersAt (stubEntry 13 d).mem ((stubEntry 13 d).esp + 4)) = .gpFault :=
  program_interrupts gated_callMemory.2 ((congrArg level calling_called.cs).trans rfl) (by decide)

def kernelCalling : SwitchSys := { boot with cpu := { bootCpu with mem := callMemory } }

theorem current_kernelCalling : current globals kernelCalling.cpu.mem = first :=
  (read_write_apart (by decide) (by decide)).trans (read_write_self _ _ _)

theorem start_kernelCalling : SwitchStart globals kernelCalling where
  layout := start.layout
  running := by
    rw [current_kernelCalling]
    simp [kernelCalling, boot]
  alone _ := rfl

/-- `isr_handler` only uses the registers. -/
theorem kernel_call_returned : ∃ d, softwareInt 0x40000 globals.tss 31 kernelCalling.cpu = some (31, d) ∧
    GoesOn { kernelCalling.cpu with eip := kernelCalling.cpu.eip + 2 } (stubExit 31 (busy (stubEntry 31 d))) := by
  have hlevel : level kernelCalling.cpu.cs = 0 := rfl
  obtain ⟨d, hd, hstub⟩ := softwareInt_kernel globals.tss (s := kernelCalling.cpu) gated_callMemory.1 hlevel
  have hfits : FrameFits 31 := rfl
  have henters := trapEntry_enters globals.tss (BitVec.ofNat 32 (id 31 % 2 ^ 32)) hfits 0
    { kernelCalling.cpu with eip := kernelCalling.cpu.eip + 2 }
  rw [← hstub] at henters
  have hesp : (stubEntry 31 d).esp = 0x107C4 := (henters.inner hlevel).1
  have hstack : kernelCalling.stack (current globals kernelCalling.cpu.mem) = some firstStack := by
    rw [current_kernelCalling]
    simp [kernelCalling, boot]
  have hroom : span (stubEntry 31 d).esp 60 ⊆ firstStack := by
    rw [hesp]
    exact span_subset (by decide)
  have htouch : Touches (2 ^ 32) (span (stubEntry 31 d).esp 60) kernelCalling.cpu.mem (stubEntry 31 d).mem :=
    henters.touches
  have hbelow : span ((stubEntry 31 d).esp - 4) 4 ⊆ firstStack := by
    rw [hesp]
    exact span_subset (by decide)
  have hapart : Disjoint (span ((stubEntry 31 d).esp - 4) 4) (trapBytes kernelCalling.cpu (stubEntry 31 d).esp) := by
    rw [trapBytes, trapSize, if_pos hlevel, hesp]
    exact span_disjoint (by decide) (by decide)
  have hmid := busy_steps start_kernelCalling.inv hstack (htouch.mono hroom) henters.cr3 hbelow hapart
  have hcs : level (busy (stubEntry 31 d)).cs = 0 := (congrArg level henters.code).trans level_kernelCs
  exact ⟨d, hd, (kernel_call_ignored start_kernelCalling .refl hlevel gated_callMemory.1 hd hstack hroom rfl hmid rfl
    rfl hcs).2⟩

end TwoThreads

end X86Osdev.Cpu
