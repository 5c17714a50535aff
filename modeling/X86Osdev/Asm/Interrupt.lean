import X86Osdev.Asm.Functions

/-! The entry and the return of cpu/interrupt.asm, and the `registers_t` that the handlers get. -/

namespace X86Osdev.Asm
open StackMachine StackMachine.Cpu ByteMemory

/-- The vectors for which the processor itself pushes an error code. -/
def pushesError (v : ℕ) : Bool := v ∈ [8, 10, 11, 12, 13, 14, 17, 21, 29, 30]

/-- What `isr0` to `isr31` and `irq0` to `irq15` push; vector `32 + i` is `irq i`. -/
def stubPushes (v : ℕ) : List Word :=
  if 32 ≤ v then [BitVec.ofNat 32 (v - 32), BitVec.ofNat 32 v]
  else if v ∈ [8, 10, 11, 12, 13, 14] then [BitVec.ofNat 32 v]
  else [0, BitVec.ofNat 32 v]

/-- `mov ax, ds`. -/
def withSelector (w : Word) (sel : Selector) : Word := (w &&& 0xFFFF0000#32) ||| sel.setWidth 32

def kernelSegments (s : Cpu) : Cpu := { s with ds := kernelDs, es := kernelDs, fs := kernelDs, gs := kernelDs }

/-- `isr_common_stub` and `irq_common_stub` up to the call of the handler. -/
def commonEntry (s : Cpu) : Cpu :=
  let s := s.pusha
  let s := { s with eax := withSelector s.eax s.ds }
  let s := s.push s.eax
  let s := { s with eax := withSelector s.eax kernelDs }
  let s := kernelSegments s
  let s := s.push s.esp
  { s with eflags := s.eflags &&& ~~~(0x400#32) }

/-- An interrupt from the state `s` to the call of the handler; `err` is the processor's error code. -/
def trapEntry (tss entry : Word) (v : ℕ) (err : Word) (s : Cpu) : Cpu :=
  let s := s.deliver tss kernelCs entry (if pushesError v then [err] else [])
  commonEntry (s.pushAll (stubPushes v))

/-- The end of the two stubs: `popa`, the two words of the stub dropped, `or dword [esp + 8], 0x200`, `iret`. -/
def commonExit (s : Cpu) : Cpu :=
  let s := s.popa
  let s := { s with esp := s.esp + 8 }
  let s := { s with mem := write s.mem (s.esp + 8) (read s.mem (s.esp + 8) ||| interruptFlag) }
  s.iret

def setSegments (s : Cpu) (sel : Selector) : Cpu := { s with ds := sel, es := sel, fs := sel, gs := sel }

/-- `isr_common_stub` from the return of `isr_handler` on. -/
def isrExit (s : Cpu) : Cpu :=
  let s := { s with eax := s.top, esp := s.esp + 4 }
  let s := { s with eax := s.top, esp := s.esp + 4 }
  commonExit (setSegments s (wordSelector s.eax))

/-- `irq_common_stub` from the return of `irq_handler` on. -/
def irqExit (s : Cpu) : Cpu :=
  let s := { s with ebx := s.top, esp := s.esp + 4 }
  let s := { s with ebx := s.top, esp := s.esp + 4 }
  commonExit (setSegments s (wordSelector s.ebx))

def stubExit (v : ℕ) (s : Cpu) : Cpu := if 32 ≤ v then irqExit s else isrExit s

/-- `registers_t`. -/
structure Registers where
  ds : Word
  edi : Word
  esi : Word
  ebp : Word
  useless : Word
  ebx : Word
  edx : Word
  ecx : Word
  eax : Word
  intNo : Word
  errCode : Word
  eip : Word
  cs : Word
  eflags : Word
  esp : Word
  ss : Word

def registersAt (m : Memory) (r : Word) : Registers where
  ds := read m r
  edi := read m (r + 4)
  esi := read m (r + 8)
  ebp := read m (r + 12)
  useless := read m (r + 16)
  ebx := read m (r + 20)
  edx := read m (r + 24)
  ecx := read m (r + 28)
  eax := read m (r + 32)
  intNo := read m (r + 36)
  errCode := read m (r + 40)
  eip := read m (r + 44)
  cs := read m (r + 48)
  eflags := read m (r + 52)
  esp := read m (r + 56)
  ss := read m (r + 60)

section Entry
variable {s : Cpu} {tss entry err : Word} {v : ℕ}

def FrameFits (v : ℕ) : Prop := (stubPushes v).length + (if pushesError v then 1 else 0) = 2

/-- Every vector of the tables but four, for which the processor's error code and the stub's 0 come together. -/
theorem frameFits_iff (h : v < 48) : FrameFits v ↔ v ∉ [17, 21, 29, 30] := by
  unfold FrameFits
  revert v
  decide

/-- The `registers_t` of the interrupted state `s`. -/
structure Mirrors (v : ℕ) (s : Cpu) (r : Registers) : Prop where
  eax : r.eax = s.eax
  ecx : r.ecx = s.ecx
  edx : r.edx = s.edx
  ebx : r.ebx = s.ebx
  ebp : r.ebp = s.ebp
  esi : r.esi = s.esi
  edi : r.edi = s.edi
  eip : r.eip = s.eip
  cs : wordSelector r.cs = s.cs
  ds : wordSelector r.ds = s.ds
  eflags : r.eflags = s.eflags
  intNo : r.intNo = BitVec.ofNat 32 v
  outer : level s.cs ≠ 0 → r.esp = s.esp ∧ wordSelector r.ss = s.ss

def trapRegisters (s : Cpu) (useless e n : Word) : List Word :=
  [withSelector s.eax s.ds, s.edi, s.esi, s.ebp, useless, s.ebx, s.edx, s.ecx, s.eax, n, e, s.eip, selectorWord s.cs,
    s.eflags] ++ if level s.cs = 0 then [] else [s.esp, selectorWord s.ss]

def trapCodes (v : ℕ) (err : Word) : List Word := (if pushesError v then [err] else []) ++ stubPushes v

structure Enters (tss : Word) (v : ℕ) (err : Word) (s s' : Cpu) : Prop where
  argument : s'.top = s'.esp + 4
  frame : ∃ useless e, trapCodes v err = [e, BitVec.ofNat 32 v] ∧
    Holds s'.mem (s'.esp + 4) (trapRegisters s useless e (BitVec.ofNat 32 v))
  inner : level s.cs = 0 → s'.esp = s.esp - 60 ∧ s'.ss = s.ss
  outer : level s.cs ≠ 0 → s'.esp = read s.mem (tss + 4) - 68 ∧ s'.ss = wordSelector (read s.mem (tss + 8))
  code : s'.cs = kernelCs
  cr3 : s'.cr3 = s.cr3
  touches : Touches (2 ^ 32) (span s'.esp (if level s.cs = 0 then 60 else 68)) s.mem s'.mem

def commonWords (p : Cpu) : List Word :=
  [p.eax, p.ecx, p.edx, p.ebx, p.esp, p.ebp, p.esi, p.edi, withSelector p.eax p.ds, p.esp - 36]

theorem commonEntry_pushes (p : Cpu) : (commonEntry p).mem = (p.pushAll (commonWords p)).mem ∧
    (commonEntry p).esp = (p.pushAll (commonWords p)).esp ∧ (commonEntry p).cs = p.cs ∧ (commonEntry p).ss = p.ss ∧
      (commonEntry p).cr3 = p.cr3 := by
  have hwords : commonWords p = [p.eax, p.ecx, p.edx, p.ebx, p.esp, p.ebp, p.esi, p.edi] ++
      [withSelector p.eax p.ds, p.esp - 36] := rfl
  have hesp : p.pusha.esp - 4 = p.esp - 36 := by
    rw [pusha, pushAll_esp]
    simp
    bv_omega
  rw [hwords, pushAll_append, ← pusha, pushAll_cons, pushAll_cons, pushAll_nil]
  simp only [commonEntry, kernelSegments, push, hesp]
  refine ⟨?_, trivial, ?_, ?_, ?_⟩ <;> simp [pusha]

/-- The stack that an interrupt from `s` is taken on. -/
def trapBase (tss : Word) (s : Cpu) : Cpu :=
  if level s.cs = 0 then s
  else { s with esp := read s.mem (tss + 4), ss := wordSelector (read s.mem (tss + 8)) }

def trapHead (s : Cpu) : List Word :=
  (if level s.cs = 0 then [] else [selectorWord s.ss, s.esp]) ++ [s.eflags, selectorWord s.cs, s.eip]

def trapPrologue (tss entry : Word) (v : ℕ) (err : Word) (s : Cpu) : Cpu :=
  (s.deliver tss kernelCs entry (if pushesError v then [err] else [])).pushAll (stubPushes v)

theorem level_kernelCs : level kernelCs = 0 := rfl

theorem trapPrologue_pushes (tss entry : Word) (v : ℕ) (err : Word) (s : Cpu) :
    (trapPrologue tss entry v err s).esp = ((trapBase tss s).pushAll (trapHead s ++ trapCodes v err)).esp ∧
    (trapPrologue tss entry v err s).mem = ((trapBase tss s).pushAll (trapHead s ++ trapCodes v err)).mem := by
  unfold trapPrologue trapCodes
  rw [← List.append_assoc, pushAll_append _ (trapHead s ++ _)]
  unfold deliver trapBase trapHead
  rw [level_kernelCs]
  by_cases hinner : level s.cs = 0
  · simp only [hinner, if_true, List.nil_append]
    apply pushAll_congr <;> rfl
  · simp only [hinner, if_false, List.append_assoc, pushAll_append _ [selectorWord s.ss, s.esp]]
    apply pushAll_congr <;> rfl

theorem trapPrologue_registers (tss entry : Word) (v : ℕ) (err : Word) (s : Cpu) :
    let p := trapPrologue tss entry v err s
    p.eax = s.eax ∧ p.ecx = s.ecx ∧ p.edx = s.edx ∧ p.ebx = s.ebx ∧ p.ebp = s.ebp ∧ p.esi = s.esi ∧ p.edi = s.edi ∧
      p.ds = s.ds ∧ p.cr3 = s.cr3 ∧ p.cs = kernelCs ∧ p.ss = (trapBase tss s).ss := by
  unfold trapPrologue deliver trapBase
  rw [level_kernelCs]
  split <;> simp

theorem stubPushes_cases (v : ℕ) :
    (∃ e, stubPushes v = [e, BitVec.ofNat 32 v]) ∨ stubPushes v = [BitVec.ofNat 32 v] := by
  unfold stubPushes
  split
  · exact .inl ⟨_, rfl⟩
  · split
    · exact .inr rfl
    · exact .inl ⟨_, rfl⟩

theorem trapCodes_of_fits (h : FrameFits v) (err : Word) : ∃ e, trapCodes v err = [e, BitVec.ofNat 32 v] := by
  unfold FrameFits at h
  unfold trapCodes
  obtain ⟨e, he⟩ | he := stubPushes_cases v
  · cases hp : pushesError v with
    | false => exact ⟨e, by simp [he]⟩
    | true => simp [he, hp] at h
  · cases hp : pushesError v with
    | false => simp [he, hp] at h
    | true => exact ⟨err, by simp [he]⟩

theorem trapEntry_frame (tss entry : Word) (h : FrameFits v) (err : Word) (s : Cpu) :
    ∃ e, trapCodes v err = [e, BitVec.ofNat 32 v] ∧ let a := (trapEntry tss entry v err s).esp
      Holds (trapEntry tss entry v err s).mem a ((a + 4) :: trapRegisters s (a + 40) e (BitVec.ofNat 32 v)) ∧
        a = (trapBase tss s).esp - (if level s.cs = 0 then 60 else 68) ∧
        Touches (2 ^ 32) (span a (if level s.cs = 0 then 60 else 68)) s.mem (trapEntry tss entry v err s).mem := by
  obtain ⟨e, he⟩ := trapCodes_of_fits h err
  obtain ⟨hesp, hmem⟩ := trapPrologue_pushes tss entry v err s
  obtain ⟨heax, hecx, hedx, hebx, hebp, hesi, hedi, hds, -⟩ := trapPrologue_registers tss entry v err s
  have hentry : trapEntry tss entry v err s = commonEntry (trapPrologue tss entry v err s) := rfl
  rw [hentry]
  generalize trapPrologue tss entry v err s = p at *
  obtain ⟨hm, ha, -⟩ := commonEntry_pushes p
  obtain ⟨hesp', hmem'⟩ := pushAll_congr hesp hmem (commonWords p)
  rw [← pushAll_append, he] at hesp' hmem'
  have hbase : (trapBase tss s).mem = s.mem := by
    unfold trapBase
    split <;> rfl
  have hempty : Holds (trapBase tss s).mem (trapBase tss s).esp [] := trivial
  have hbelow : (commonEntry p).esp = p.esp - 40 := ha.trans (pushAll_esp _ _)
  have hself : p.esp = (commonEntry p).esp + 40 := by bv_omega
  have hslot : p.esp - 36 = (commonEntry p).esp + 4 := by bv_omega
  have hcount : 4 * (trapHead s ++ [e, BitVec.ofNat 32 v] ++ commonWords p).length =
      if level s.cs = 0 then 60 else 68 := by
    by_cases hinner : level s.cs = 0 <;> simp [trapHead, commonWords, hinner]
  have hreverse : (trapHead s ++ [e, BitVec.ofNat 32 v] ++ commonWords p).reverse =
      ((commonEntry p).esp + 4) :: trapRegisters s ((commonEntry p).esp + 40) e (BitVec.ofNat 32 v) := by
    have hcommon : commonWords p = [s.eax, s.ecx, s.edx, s.ebx, (commonEntry p).esp + 40, s.ebp, s.esi, s.edi,
        withSelector s.eax s.ds, (commonEntry p).esp + 4] := by
      rw [commonWords, heax, hecx, hedx, hebx, hebp, hesi, hedi, hds, hslot, hself]
    rw [hcommon]
    by_cases hinner : level s.cs = 0 <;> simp [trapHead, trapRegisters, hinner]
  have hbound : 4 * (trapHead s ++ [e, BitVec.ofNat 32 v] ++ commonWords p).length ≤ 2 ^ 32 := by
    rw [hcount]
    split <;> decide
  have hholds := holds_pushAll (trapHead s ++ [e, BitVec.ofNat 32 v] ++ commonWords p) hempty (by
    rwa [List.length_nil, Nat.zero_add])
  have htouch := touches_pushAll (trapBase tss s) _ hbound
  have hat := pushAll_esp (trapBase tss s) (trapHead s ++ [e, BitVec.ofNat 32 v] ++ commonWords p)
  rw [hreverse, List.append_nil, ← hesp', ← hmem', ← hm, ← ha] at hholds
  rw [← hesp', ← ha, hcount] at hat
  rw [hcount, ← hmem', ← hm, hbase, ← hat] at htouch
  refine ⟨e, he, hholds, ?_, htouch⟩
  rw [hat]
  split <;> rfl

theorem wordSelector_withSelector (w : Word) (sel : Selector) : wordSelector (withSelector w sel) = sel := by
  have hlow : ∀ i : Fin 16, (0xFFFF0000#32).getLsbD i = false := by decide
  unfold wordSelector withSelector
  apply BitVec.eq_of_getLsbD_eq
  intro i hi
  have hbit := hlow ⟨i, hi⟩
  have hwide : i < 32 := by omega
  simp only [BitVec.getLsbD_setWidth, BitVec.getLsbD_or, BitVec.getLsbD_and, hbit, hi, hwide]
  simp

theorem mirrors_of_holds {m : Memory} {r useless e : Word}
    (h : Holds m r (trapRegisters s useless e (BitVec.ofNat 32 v))) : Mirrors v s (registersAt m r) := by
  by_cases hinner : level s.cs = 0
  · simp only [trapRegisters, hinner, if_true, List.append_nil, Holds, BitVec.add_assoc, BitVec.ofNat_eq_ofNat,
      BitVec.reduceAdd] at h
    obtain ⟨hds, hedi, hesi, hebp, -, hebx, hedx, hecx, heax, hno, -, heip, hcode, hflags, -⟩ := h
    constructor <;>
      simp [registersAt, hds, hedi, hesi, hebp, hebx, hedx, hecx, heax, hno, heip, hcode, hflags, hinner,
        wordSelector_withSelector]
  · simp only [trapRegisters, hinner, if_false, List.cons_append, List.nil_append, Holds, BitVec.add_assoc,
      BitVec.ofNat_eq_ofNat, BitVec.reduceAdd] at h
    obtain ⟨hds, hedi, hesi, hebp, -, hebx, hedx, hecx, heax, hno, -, heip, hcode, hflags, hout, hstack, -⟩ := h
    constructor <;>
      simp [registersAt, hds, hedi, hesi, hebp, hebx, hedx, hecx, heax, hno, heip, hcode, hflags, hout, hstack,
        wordSelector_withSelector]

/-- What every vector of the tables (but the four that do not fit) gives the handlers. -/
theorem trapEntry_enters (tss entry : Word) (h : FrameFits v) (err : Word) (s : Cpu) :
    Enters tss v err s (trapEntry tss entry v err s) := by
  obtain ⟨e, hcodes, hframe, hesp, htouch⟩ := trapEntry_frame tss entry h err s
  obtain ⟨-, -, -, -, -, -, -, -, hcr3, hcs, hss⟩ := trapPrologue_registers tss entry v err s
  obtain ⟨-, -, hcs', hss', hcr3'⟩ := commonEntry_pushes (trapPrologue tss entry v err s)
  refine ⟨hframe.1, ⟨_, e, hcodes, hframe.2⟩, fun hinner => ?_, fun houter => ?_, hcs'.trans hcs, hcr3'.trans hcr3,
      htouch⟩
  · have hbase : trapBase tss s = s := if_pos hinner
    rw [hbase] at hesp hss
    exact ⟨by rw [hesp, if_pos hinner], hss'.trans hss⟩
  · rw [trapBase, if_neg houter] at hesp hss
    exact ⟨by rw [hesp, if_neg houter], hss'.trans hss⟩

end Entry

section Return
variable {s : Cpu}

structure Leaves (r : Registers) (a : Word) (ss : Selector) (m : Memory) (s' : Cpu) : Prop where
  eax : s'.eax = r.eax
  ecx : s'.ecx = r.ecx
  edx : s'.edx = r.edx
  ebx : s'.ebx = r.ebx
  ebp : s'.ebp = r.ebp
  esi : s'.esi = r.esi
  edi : s'.edi = r.edi
  eip : s'.eip = r.eip
  cs : s'.cs = wordSelector r.cs
  eflags : s'.eflags = r.eflags ||| interruptFlag
  segments : s'.ds = wordSelector r.ds ∧ s'.es = wordSelector r.ds ∧ s'.fs = wordSelector r.ds ∧
    s'.gs = wordSelector r.ds
  inner : level (wordSelector r.cs) = 0 → s'.esp = a + 60 ∧ s'.ss = ss
  outer : level (wordSelector r.cs) ≠ 0 → s'.esp = r.esp ∧ s'.ss = wordSelector r.ss
  touches : Touches (2 ^ 32) (span (a + 56) 4) m s'.mem

theorem commonExit_leaves {a : Word} {sel : Selector} (hcs : level s.cs = 0) (hesp : s.esp = a + 8)
    (hsel : sel = wordSelector (read s.mem (a + 4))) :
    Leaves (registersAt s.mem (a + 4)) a s.ss s.mem (commonExit (setSegments s sel)) := by
  have happart (k v : Word) (h : 4 ≤ (k - 56).toNat) (h' : 4 ≤ (56 - k).toNat) :
      read (write s.mem (a + 56) v) (a + k) = read s.mem (a + k) := by
    apply read_write_apart <;> bv_omega
  have heip := fun v => happart 48 v (by decide) (by decide)
  have hcode := fun v => happart 52 v (by decide) (by decide)
  have hstack := fun v => happart 60 v (by decide) (by decide)
  have hss := fun v => happart 64 v (by decide) (by decide)
  have hflags := fun v => read_write_self s.mem (a + 56) v
  simp only [BitVec.ofNat_eq_ofNat] at heip hcode hstack hss hflags hesp hsel
  by_cases hlevel : level (wordSelector (read s.mem (a + 52#32))) = 0
  · constructor <;>
      simp [-Nat.reducePow, commonExit, setSegments, popa, iret, top, registersAt, hesp, hsel, hcs,
        BitVec.add_assoc, heip, hcode, hflags, hlevel, touches_write]
  · constructor <;>
      simp [-Nat.reducePow, commonExit, setSegments, popa, iret, top, registersAt, hesp, hsel, hcs,
        BitVec.add_assoc, heip, hcode, hstack, hss, hflags, hlevel, touches_write]

theorem isrExit_eq (s : Cpu) : isrExit s = commonExit (setSegments
    { s with eax := read s.mem (s.esp + 4), esp := s.esp + 4 + 4 } (wordSelector (read s.mem (s.esp + 4)))) := by
  simp only [isrExit, top]

theorem irqExit_eq (s : Cpu) : irqExit s = commonExit (setSegments
    { s with ebx := read s.mem (s.esp + 4), esp := s.esp + 4 + 4 } (wordSelector (read s.mem (s.esp + 4)))) := by
  simp only [irqExit, top]

theorem isrExit_leaves (hcs : level s.cs = 0) :
    Leaves (registersAt s.mem (s.esp + 4)) s.esp s.ss s.mem (isrExit s) := by
  have hesp : s.esp + 4 + 4 = s.esp + 8 := by bv_omega
  have hleaves := commonExit_leaves (s := { s with eax := read s.mem (s.esp + 4), esp := s.esp + 4 + 4 }) hcs hesp rfl
  rwa [← isrExit_eq] at hleaves

theorem irqExit_leaves (hcs : level s.cs = 0) :
    Leaves (registersAt s.mem (s.esp + 4)) s.esp s.ss s.mem (irqExit s) := by
  have hesp : s.esp + 4 + 4 = s.esp + 8 := by bv_omega
  have hleaves := commonExit_leaves (s := { s with ebx := read s.mem (s.esp + 4), esp := s.esp + 4 + 4 }) hcs hesp rfl
  rwa [← irqExit_eq] at hleaves

theorem stubExit_leaves (v : ℕ) (hcs : level s.cs = 0) :
    Leaves (registersAt s.mem (s.esp + 4)) s.esp s.ss s.mem (stubExit v s) := by
  unfold stubExit
  split
  · exact irqExit_leaves hcs
  · exact isrExit_leaves hcs

end Return
end X86Osdev.Asm
