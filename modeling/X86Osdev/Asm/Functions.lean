import X86Osdev.Library.StackMachine
import X86Osdev.Proc.UserThread

/-! The context switch of asm/functions.asm and the first frames that proc/thread.c writes for it. -/

namespace X86Osdev.Asm
open StackMachine StackMachine.Cpu ByteMemory X86Osdev.Proc

/-! ## Offsets in the thread control block, as asm/functions.asm names them -/

def threadEsp : Word := 0
def threadTss : Word := 4
def pageDir : Word := 8
def retVal : Word := 12
def noRet : Word := 0xFFFFFFFF

/-- `KERNEL_CS` of asm/functions.asm; lib/constants.h has another one. -/
def asmKernelCs : Word := 0x10

def kernelCs : Selector := 8
def kernelDs : Selector := 16

structure Globals where
  currentThread : Word
  tss : Word

variable (g : Globals)

/-- The first half of `_switch_to_thread`, up to the store of `esp` in the control block. -/
def saveState (s : Cpu) : Cpu :=
  let s := { s with edx := read s.mem s.esp }
  let s := { s with ecx := read s.mem (s.esp + 4) }
  let s := s.push (storedFlags s.eflags)
  let s := s.push (selectorWord s.cs)
  let s := s.push s.edx
  let s := s.push s.ebx
  let s := s.push s.esi
  let s := s.push s.edi
  let s := s.push s.ebp
  let s := s.push (selectorWord s.ds)
  let s := { s with edi := read s.mem g.currentThread }
  { s with mem := write s.mem (s.edi + threadEsp) s.esp }

/-- From the load of the next thread's control block to the label `run_thread`. -/
def loadState (s : Cpu) : Cpu :=
  let s := { s with esi := s.ecx }
  let s := { s with mem := write s.mem g.currentThread s.esi }
  let s := { s with esp := read s.mem (s.esi + threadEsp) }
  let s := { s with eax := read s.mem (s.esi + pageDir) }
  let s := { s with ebx := read s.mem (s.esi + threadTss) }
  let s := { s with mem := write s.mem (g.tss + 4) s.ebx }
  let s := { s with mem := write s.mem g.tss asmKernelCs }
  let s := { s with ecx := s.cr3 }
  let s := if s.eax = s.ecx then s else { s with cr3 := s.eax }
  if read s.mem (s.esi + retVal) = noRet then s
  else
    let s := { s with eax := read s.mem (s.esi + retVal) }
    { s with mem := write s.mem (s.esi + retVal) noRet }

def runThread (s : Cpu) : Cpu :=
  let s := { s with ebx := s.top, esp := s.esp + 4 }
  let s := { s with
    ds := wordSelector s.ebx, es := wordSelector s.ebx, gs := wordSelector s.ebx, fs := wordSelector s.ebx }
  let s := { s with ebp := s.top, esp := s.esp + 4 }
  let s := { s with edi := s.top, esp := s.esp + 4 }
  let s := { s with esi := s.top, esp := s.esp + 4 }
  let s := { s with ebx := s.top, esp := s.esp + 4 }
  s.iret

/-- `_switch_to_thread`, from its first instruction on. -/
def switchToThread (s : Cpu) : Cpu := runThread (loadState g (saveState g s))

def setKernelEsp (m : Memory) (kesp entryPoint : Word) : Memory :=
  let m := write m (kesp + 28) 0x200
  let m := write m (kesp + 24) (selectorWord kernelCs)
  let m := write m (kesp + 20) entryPoint
  let m := write m (kesp + 16) 0
  let m := write m (kesp + 12) 0
  let m := write m (kesp + 8) 0
  let m := write m (kesp + 4) 0
  write m kesp (selectorWord kernelDs)

structure Context where
  ds : Selector
  ebp : Word
  edi : Word
  esi : Word
  ebx : Word
  eip : Word
  cs : Selector
  eflags : Word
  esp : Word
  ss : Selector

namespace Context

def words (c : Context) : List Word :=
  [selectorWord c.ds, c.ebp, c.edi, c.esi, c.ebx, c.eip, selectorWord c.cs, c.eflags] ++
    if level c.cs = 0 then [] else [c.esp, selectorWord c.ss]

/-- The frame of `c` lies at `a`. In the kernel's own level the thread goes on with the stack above the frame. -/
structure FrameAt (m : Memory) (a : Word) (c : Context) : Prop where
  words : Holds m a c.words
  inner : level c.cs = 0 → c.esp = a + 32 ∧ c.ss = kernelDs

/-- The processor goes on as `c` says. -/
structure Resumed (c : Context) (s : Cpu) : Prop where
  ds : s.ds = c.ds ∧ s.es = c.ds ∧ s.fs = c.ds ∧ s.gs = c.ds
  ebp : s.ebp = c.ebp
  edi : s.edi = c.edi
  esi : s.esi = c.esi
  ebx : s.ebx = c.ebx
  eip : s.eip = c.eip
  cs : s.cs = c.cs
  eflags : s.eflags = c.eflags
  esp : s.esp = c.esp
  ss : s.ss = c.ss

theorem length_words (c : Context) : c.words.length ≤ 10 := by
  unfold words
  split <;> simp

end Context

/-- The context of the caller of `_switch_to_thread`: it goes on at the return address, which is left on the stack. -/
def callContext (s : Cpu) : Context :=
  { ds := s.ds, ebp := s.ebp, edi := s.edi, esi := s.esi, ebx := s.ebx, eip := s.top, cs := s.cs,
    eflags := storedFlags s.eflags, esp := s.esp, ss := s.ss }

def kernelContext (kesp entryPoint : Word) : Context :=
  { ds := kernelDs, ebp := 0, edi := 0, esi := 0, ebx := 0, eip := entryPoint, cs := kernelCs, eflags := 0x200,
    esp := kesp + 32, ss := kernelDs }

section Save
variable {g} {s : Cpu}

def current (g : Globals) (m : Memory) : Word := read m g.currentThread

def saved (s : Cpu) : List Word :=
  [storedFlags s.eflags, selectorWord s.cs, s.top, s.ebx, s.esi, s.edi, s.ebp, selectorWord s.ds]

def argued (s : Cpu) : Cpu := { s with edx := s.top, ecx := read s.mem (s.esp + 4) }

theorem saveState_eq (g : Globals) (s : Cpu) : saveState g s =
    let p := (argued s).pushAll (saved s)
    { p with edi := current g p.mem, mem := write p.mem (current g p.mem) p.esp } := by
  simp only [saveState, threadEsp, current, saved, argued, pushAll_cons, pushAll_nil, top, push_cs, push_edx, push_ebx,
    push_esi, push_edi, push_ebp, push_ds, BitVec.ofNat_eq_ofNat, BitVec.add_zero]

theorem callContext_words (hcs : level s.cs = 0) : (callContext s).words = (saved s).reverse := by
  simp [Context.words, callContext, saved, hcs]

structure Saved (g : Globals) (s s' : Cpu) : Prop where
  ecx : s'.ecx = read s.mem (s.esp + 4)
  cr3 : s'.cr3 = s.cr3
  cs : s'.cs = s.cs
  ss : s'.ss = s.ss
  block : read s'.mem (current g s.mem) = s.esp - 32
  frame : (callContext s).FrameAt s'.mem (s.esp - 32)
  touches : Touches (2 ^ 32) (span (s.esp - 32) 32 ∪ span (current g s.mem) 4) s.mem s'.mem

theorem saveState_saved (hcs : level s.cs = 0) (hss : s.ss = kernelDs)
    (hglobal : Disjoint (span (s.esp - 32) 32) (span g.currentThread 4))
    (hblock : Disjoint (span (s.esp - 32) 32) (span (current g s.mem) 4)) : Saved g s (saveState g s) := by
  have hecx := pushAll_ecx (argued s) (saved s)
  have hcr3 := pushAll_cr3 (argued s) (saved s)
  have hcode := pushAll_cs (argued s) (saved s)
  have hstack := pushAll_ss (argued s) (saved s)
  have htouch := touches_pushAll (argued s) (saved s) (by simp [saved])
  have hnone : Holds (argued s).mem (argued s).esp [] := trivial
  have hholds := holds_pushAll (saved s) hnone (by simp [saved])
  have hesp := pushAll_esp (argued s) (saved s)
  rw [saveState_eq]
  generalize (argued s).pushAll (saved s) = p at hecx hcr3 hcode hstack htouch hholds hesp ⊢
  replace hesp : p.esp = s.esp - 32 := hesp
  replace htouch : Touches (2 ^ 32) (span (s.esp - 32) 32) s.mem p.mem := htouch
  have hcur : current g p.mem = current g s.mem := read_touches htouch hglobal
  have hstore := touches_write p.mem (current g s.mem) p.esp
  rw [List.append_nil, ← callContext_words hcs, hesp] at hholds
  have hlen : 4 * (callContext s).words.length = 32 := by simp [callContext_words hcs, saved]
  refine ⟨hecx, hcr3, hcode, hstack, ?_, ⟨?_, fun _ => ⟨?_, hss⟩⟩, ?_⟩
  · simp only [hcur, hesp]
    exact read_write_self _ _ _
  · simp only [hcur]
    refine hholds.touches (by omega) hstore ?_
    rw [hlen]
    exact hblock.symm
  · simp [callContext]
  · simp only [hcur]
    exact (htouch.mono Set.subset_union_left).trans (hstore.mono Set.subset_union_right)

end Save

section Load
variable {g} {s : Cpu} {t : Word}

def globalsSet (g : Globals) (m : Memory) (next : Word) : Memory :=
  let m := write m g.currentThread next
  let m := write m (g.tss + 4) (read m (next + threadTss))
  write m g.tss asmKernelCs

structure Loaded (g : Globals) (t : Word) (s s' : Cpu) : Prop where
  cs : s'.cs = s.cs
  ss : s'.ss = s.ss
  esp : s'.esp = read s.mem t
  cr3 : s'.cr3 = read s.mem (t + pageDir)
  eax : s'.eax = if read s.mem (t + retVal) = noRet then read s.mem (t + pageDir)
    else read s.mem (t + retVal)
  current : current g s'.mem = t
  esp0 : read s'.mem (g.tss + 4) = read s.mem (t + threadTss)
  ret : read s'.mem (t + retVal) = noRet
  touches : Touches (2 ^ 32) (span g.currentThread 4 ∪ span g.tss 8 ∪ span t 16) s.mem s'.mem
  block : ∀ k : Word, k.toNat + 4 ≤ 12 → read s'.mem (t + k) = read s.mem (t + k)

/-- The globals stand apart from each other and from a control block at `t`. -/
structure Globals.Apart (g : Globals) (t : Word) : Prop where
  globals : Disjoint (span g.currentThread 4) (span g.tss 8)
  current : Disjoint (span g.currentThread 4) (span t 16)
  tss : Disjoint (span g.tss 8) (span t 16)

theorem globalsSet_touches (g : Globals) (m : Memory) (next : Word) :
    Touches (2 ^ 32) (span g.currentThread 4 ∪ span g.tss 8) m (globalsSet g m next) := by
  have hesp0 : span (g.tss + 4) 4 ⊆ span g.tss 8 := span_add_subset (by decide)
  have hlow : span g.tss 4 ⊆ span g.tss 8 := span_mono (by decide)
  have hone := (touches_write m g.currentThread next).mono (Set.subset_union_left (t := span g.tss 8))
  have htwo := touches_write_of_subset (v := read (write m g.currentThread next) (next + threadTss)) hone
    (hesp0.trans Set.subset_union_right)
  exact touches_write_of_subset htwo (hlow.trans Set.subset_union_right)

theorem Globals.Apart.read_block (h : g.Apart t) {m m' : Memory}
    (hm : Touches (2 ^ 32) (span g.currentThread 4 ∪ span g.tss 8) m m') {k : Word} (hk : k.toNat + 4 ≤ 16) :
    read m' (t + k) = read m (t + k) := by
  refine read_touches hm ?_
  refine Disjoint.mono_right (span_add_subset hk) ?_
  exact Set.disjoint_union_left.mpr ⟨h.current, h.tss⟩

theorem globalsSet_current (h : g.Apart t) (m : Memory) : current g (globalsSet g m t) = t := by
  have hlow := read_touches (touches_write (write (write m g.currentThread t) (g.tss + 4)
    (read (write m g.currentThread t) (t + threadTss))) g.tss asmKernelCs)
    (h.globals.symm.mono_left (span_mono (by decide)))
  have hhigh := read_touches (touches_write (write m g.currentThread t) (g.tss + 4)
    (read (write m g.currentThread t) (t + threadTss)))
    (h.globals.symm.mono_left (span_add_subset (by decide)))
  exact hlow.trans (hhigh.trans (read_write_self _ _ _))

theorem globalsSet_esp0 (h : g.Apart t) (m : Memory) :
    read (globalsSet g m t) (g.tss + 4) = read m (t + threadTss) := by
  have hlow : read (globalsSet g m t) (g.tss + 4) = read (write m g.currentThread t) (t + threadTss) := by
    refine (read_write_apart ?_ ?_).trans (read_write_self _ _ _) <;> bv_omega
  refine hlow.trans (read_touches (touches_write _ _ _) ?_)
  exact h.current.mono_right (span_add_subset (by decide))

theorem loadState_eq (g : Globals) (s : Cpu) : loadState g s =
    let m := globalsSet g s.mem s.ecx
    let s' := { s with
      esi := s.ecx
      esp := read (write s.mem g.currentThread s.ecx) s.ecx
      ebx := read (write s.mem g.currentThread s.ecx) (s.ecx + threadTss)
      ecx := s.cr3
      cr3 := read (write s.mem g.currentThread s.ecx) (s.ecx + pageDir) }
    if read m (s.ecx + retVal) = noRet then
      { s' with eax := read (write s.mem g.currentThread s.ecx) (s.ecx + pageDir), mem := m }
    else { s' with eax := read m (s.ecx + retVal), mem := write m (s.ecx + retVal) noRet } := by
  simp only [loadState, globalsSet, threadEsp, BitVec.ofNat_eq_ofNat, BitVec.add_zero]
  split_ifs with hdir <;> simp_all

theorem loadState_loaded (h : g.Apart t) (ht : s.ecx = t) : Loaded g t s (loadState g s) := by
  subst ht
  have hset := globalsSet_touches g s.mem s.ecx
  have hfirst : Touches (2 ^ 32) (span g.currentThread 4 ∪ span g.tss 8) s.mem (write s.mem g.currentThread s.ecx) :=
    (touches_write _ _ _).mono Set.subset_union_left
  have hesp := h.read_block hfirst (k := 0) (by decide)
  have hpage := h.read_block hfirst (k := pageDir) (by decide)
  have hret := h.read_block hset (k := retVal) (by decide)
  have hsub : span (s.ecx + retVal) 4 ⊆ span s.ecx 16 := span_add_subset (by decide)
  rw [BitVec.ofNat_eq_ofNat, BitVec.add_zero] at hesp
  rw [loadState_eq]
  simp only [hret, hesp, hpage]
  split
  · next hnone =>
    refine ⟨rfl, rfl, rfl, rfl, (if_pos hnone).symm, globalsSet_current h _, globalsSet_esp0 h _, hret.trans hnone,
        ?_, ?_⟩
    · exact hset.mono Set.subset_union_left
    · exact fun k hk => h.read_block hset (by omega)
  · next hsome =>
    have hclear := touches_write (globalsSet g s.mem s.ecx) (s.ecx + retVal) noRet
    refine ⟨rfl, rfl, rfl, rfl, (if_neg hsome).symm, ?_, ?_, read_write_self _ _ _, ?_, fun k hk => ?_⟩
    · have hkeep := read_touches hclear (h.current.symm.mono_left hsub)
      exact hkeep.trans (globalsSet_current h _)
    · have htss : span (g.tss + 4) 4 ⊆ span g.tss 8 := span_add_subset (by decide)
      have hkeep := read_touches hclear ((h.tss.symm.mono_left hsub).mono_right htss)
      exact hkeep.trans (globalsSet_esp0 h _)
    · exact (hset.mono Set.subset_union_left).trans (hclear.mono (hsub.trans Set.subset_union_right))
    · have hkeep : read (write (globalsSet g s.mem s.ecx) (s.ecx + retVal) noRet) (s.ecx + k) =
          read (globalsSet g s.mem s.ecx) (s.ecx + k) := by
        apply read_write_apart <;> unfold retVal <;> bv_omega
      exact hkeep.trans (h.read_block hset (by omega))

end Load

section Resume
variable {g} {s : Cpu} {c : Context} {a : Word}

theorem runThread_resumed (hframe : c.FrameAt s.mem s.esp) (hcs : level s.cs = 0) (hss : s.ss = kernelDs) :
    c.Resumed (runThread s) := by
  obtain ⟨hwords, hinner⟩ := hframe
  unfold Context.words at hwords
  by_cases hlevel : level c.cs = 0
  · obtain ⟨hesp, hstack⟩ := hinner hlevel
    simp only [hlevel, if_true, List.append_nil, Holds, BitVec.add_assoc, BitVec.ofNat_eq_ofNat,
      BitVec.reduceAdd] at hwords
    obtain ⟨hds, hebp, hedi, hesi, hebx, heip, hcode, hflags, -⟩ := hwords
    constructor <;>
      simp [runThread, iret, top, BitVec.add_assoc, hds, hebp, hedi, hesi, hebx, heip, hcode, hflags, hlevel, hcs, hesp,
        hstack, hss]
  · simp only [hlevel, if_false, List.cons_append, List.nil_append, Holds, BitVec.add_assoc, BitVec.ofNat_eq_ofNat,
      BitVec.reduceAdd] at hwords
    obtain ⟨hds, hebp, hedi, hesi, hebx, heip, hcode, hflags, hesp, hstack, -⟩ := hwords
    constructor <;>
      simp [runThread, iret, top, BitVec.add_assoc, hds, hebp, hedi, hesi, hebx, heip, hcode, hflags, hlevel, hcs, hesp,
        hstack]

theorem runThread_mem (s : Cpu) :
    (runThread s).mem = s.mem ∧ (runThread s).cr3 = s.cr3 ∧ (runThread s).eax = s.eax := by
  unfold runThread iret
  dsimp only
  split <;> exact ⟨rfl, rfl, rfl⟩

end Resume

def userContext (entryPoint userStack : Word) : Context :=
  { ds := BitVec.ofNat 16 userDs, ebp := 0, edi := 0, esi := 0, ebx := 0, eip := entryPoint,
    cs := BitVec.ofNat 16 userCs, eflags := 0x200, esp := userStack, ss := BitVec.ofNat 16 userDs }

section Frames
variable {m : Memory} {kesp uesp entryPoint userStack : Word}

theorem kernelContext_words (kesp entryPoint : Word) : (kernelContext kesp entryPoint).words =
    [selectorWord kernelDs, 0, 0, 0, 0, entryPoint, selectorWord kernelCs, 0x200] := by
  simp [Context.words, kernelContext, level, kernelCs]

theorem userContext_words (entryPoint userStack : Word) : (userContext entryPoint userStack).words =
    [BitVec.ofNat 32 userDs, 0, 0, 0, 0, entryPoint, BitVec.ofNat 32 userCs, 0x200, userStack,
      BitVec.ofNat 32 userDs] := by
  simp [Context.words, userContext, level, userCs, userDs, selectorWord]

theorem setKernelEsp_frame (m : Memory) (kesp entryPoint : Word) :
    (kernelContext kesp entryPoint).FrameAt (setKernelEsp m kesp entryPoint) kesp := by
  have hempty : Holds m (kesp + 32) [] := trivial
  have hstep (k : Word) : kesp + (k + 4) = kesp + k + 4 := by bv_omega
  have hflags := hempty.write (v := 0x200) (hstep 28) (by decide)
  have hcs := hflags.write (v := selectorWord kernelCs) (hstep 24) (by decide)
  have heip := hcs.write (v := entryPoint) (hstep 20) (by simp)
  have hebp := heip.write (v := 0) (hstep 16) (by simp)
  have hesi := hebp.write (v := 0) (hstep 12) (by simp)
  have hedi := hesi.write (v := 0) (hstep 8) (by simp)
  have hebx := hedi.write (v := 0) (hstep 4) (by simp)
  have hds := hebx.write (v := selectorWord kernelDs) rfl (by simp)
  refine ⟨?_, fun _ => ⟨rfl, rfl⟩⟩
  rw [kernelContext_words]
  exact hds

theorem setKernelEsp_touches (m : Memory) (kesp entryPoint : Word) :
    Touches (2 ^ 32) (span kesp 32) m (setKernelEsp m kesp entryPoint) := by
  have hsub (k : Word) (hk : k.toNat + 4 ≤ 32) : span (kesp + k) 4 ⊆ span kesp 32 := span_add_subset hk
  have hflags := (touches_write m (kesp + 28) 0x200).mono (hsub 28 (by decide))
  have hcs := touches_write_of_subset (v := selectorWord kernelCs) hflags (hsub 24 (by decide))
  have heip := touches_write_of_subset (v := entryPoint) hcs (hsub 20 (by decide))
  have hebp := touches_write_of_subset (v := 0) heip (hsub 16 (by decide))
  have hesi := touches_write_of_subset (v := 0) hebp (hsub 12 (by decide))
  have hedi := touches_write_of_subset (v := 0) hesi (hsub 8 (by decide))
  have hebx := touches_write_of_subset (v := 0) hedi (hsub 4 (by decide))
  exact touches_write_of_subset hebx (span_mono (by decide))

theorem store32_eq_write (m : Memory) (a : Word) {k v : ℕ} (hv : v < 2 ^ 32) :
    Lib.store32 m (Mem.u32 (a.toNat + k)) v = write m (a + BitVec.ofNat 32 k) (BitVec.ofNat 32 v) := by
  have ha : (a + BitVec.ofNat 32 k).toNat = Mem.u32 (a.toNat + k) := by
    unfold Mem.u32
    simp
  have hval : (BitVec.ofNat 32 v).toNat = v := by
    rw [BitVec.toNat_ofNat, Nat.mod_eq_of_lt hv]
  rw [write, ha, hval, Lib.store32]

theorem setUserEsp_frame_at (m : Memory) (uesp entryPoint userStack : Word) :
    (userContext entryPoint userStack).FrameAt (setUserEsp uesp.toNat entryPoint.toNat userStack.toNat m) uesp := by
  have hempty : Holds m (uesp + 40) [] := trivial
  have hstep (k : Word) : uesp + (k + 4) = uesp + k + 4 := by bv_omega
  have hword (w : Word) : BitVec.ofNat 32 w.toNat = w := by simp
  have hlast (m : Memory) (v : ℕ) (hv : v < 2 ^ 32) :
      Lib.store32 m uesp.toNat v = write m uesp (BitVec.ofNat 32 v) := by
    have h := store32_eq_write (k := 0) m uesp hv
    have hmod : Mem.u32 (uesp.toNat + 0) = uesp.toNat := Nat.mod_eq_of_lt uesp.isLt
    rw [hmod] at h
    simpa using h
  have hss := hempty.write (v := BitVec.ofNat 32 userDs) (hstep 36) (by simp)
  have hesp := hss.write (v := userStack) (hstep 32) (by simp)
  have hflags := hesp.write (v := 0x200) (hstep 28) (by simp)
  have hcs := hflags.write (v := BitVec.ofNat 32 userCs) (hstep 24) (by simp)
  have heip := hcs.write (v := entryPoint) (hstep 20) (by simp)
  have hebp := heip.write (v := 0) (hstep 16) (by simp)
  have hesi := hebp.write (v := 0) (hstep 12) (by simp)
  have hedi := hesi.write (v := 0) (hstep 8) (by simp)
  have hebx := hedi.write (v := 0) (hstep 4) (by simp)
  have hds := hebx.write (v := BitVec.ofNat 32 userDs) rfl (by simp)
  refine ⟨?_, fun hlevel => absurd hlevel (by simp [userContext, level, userCs])⟩
  rw [userContext_words]
  simp only [setUserEsp, store32_eq_write _ _ entryPoint.isLt, store32_eq_write _ _ userStack.isLt,
    store32_eq_write _ _ (show userDs < 2 ^ 32 by decide), store32_eq_write _ _ (show userCs < 2 ^ 32 by decide),
    store32_eq_write _ _ (show 0x200 < 2 ^ 32 by decide), store32_eq_write _ _ (show 0 < 2 ^ 32 by decide),
    hlast _ _ (show userDs < 2 ^ 32 by decide), hword]
  exact hds

end Frames
end X86Osdev.Asm
