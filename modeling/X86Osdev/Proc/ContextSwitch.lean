import X86Osdev.Asm.Functions
import X86Osdev.Library.Runs

/-! Runs of threads on one processor: each thread finds its registers, its stack and its address space again. -/

namespace X86Osdev.Proc
open StackMachine StackMachine.Cpu ByteMemory Runs X86Osdev.Asm

/-- The processor with memory as the kernel sees it, the memory that is a thread's own stack (none where no thread
is) and, of each thread that is not running, the context it stopped in. -/
structure SwitchSys where
  cpu : Cpu
  stack : Word → Option (Set ℕ)
  parked : Word → Option Context

/-- The stacks, the control blocks and the globals of the context switch do not overlap. -/
structure Layout (g : Globals) (stack : Word → Option (Set ℕ)) : Prop where
  globals : ∀ t S, stack t = some S → g.Apart t
  blocks : ∀ t S u S', stack t = some S → stack u = some S' → t ≠ u → Disjoint (span t 16) (span u 16)
  apart : ∀ t S u S', stack t = some S → stack u = some S' → t ≠ u → Disjoint S S'
  stackBlock : ∀ t S u S', stack t = some S → stack u = some S' → Disjoint S (span u 16)
  stackGlobals : ∀ t S, stack t = some S → Disjoint S (span g.currentThread 4 ∪ span g.tss 8)

/-- The bytes that nothing but the context switch changes: its globals, the first words of the control blocks (all
but `ret_value`), and the stack of a thread that is not running. -/
def Kept (g : Globals) (s : SwitchSys) : Set ℕ :=
  span g.currentThread 4 ∪ span g.tss 8 ∪ {x | ∃ t S, s.stack t = some S ∧ x ∈ span (t + 4) 8} ∪
    {x | ∃ t c S, s.parked t = some c ∧ s.stack t = some S ∧ (x ∈ S ∨ x ∈ span t 4)}

inductive SwitchEvent where
  /-- The running thread, or an interrupt handler on its stack, goes on. -/
  | work (after : Cpu)
  /-- It ends `create_kernel_thread` or `create_user_thread`: a control block at `t` and a first frame on `S`. -/
  | create (t : Word) (S : Set ℕ) (c : Context) (after : Cpu)
  /-- The memory of a thread that is not running is given back. -/
  | reap (t : Word)
  /-- It calls `_switch_to_thread`. -/
  | switch

/-- The argument of the call of `_switch_to_thread`. -/
def argument (s : Cpu) : Word := read s.mem (s.esp + 4)

def parkedAtCall (g : Globals) (s : SwitchSys) : Word → Option Context :=
  Function.update s.parked (current g s.cpu.mem) (some (callContext s.cpu))

def switchStep (g : Globals) : SwitchEvent → SwitchSys → Option SwitchSys
  | .work after, s => some { s with cpu := after }
  | .create t S c after, s => some
      { cpu := after, stack := Function.update s.stack t (some S), parked := Function.update s.parked t (some c) }
  | .reap t, s => some
      { s with stack := Function.update s.stack t none, parked := Function.update s.parked t none }
  | .switch, s => some
      { s with cpu := switchToThread g s.cpu, parked := Function.update (parkedAtCall g s) (argument s.cpu) none }

/-- What a step has to respect. The code of a thread may write anywhere but to `Kept`; a new thread's memory is no
other thread's; the caller of `_switch_to_thread` runs in kernel mode on its own stack and names a thread. -/
def SwitchAllowed (g : Globals) (s : SwitchSys) : SwitchEvent → Prop
  | .work after => Touches (2 ^ 32) (Kept g s)ᶜ s.cpu.mem after.mem ∧ after.cr3 = s.cpu.cr3
  | .create t S c after => Touches (2 ^ 32) (Kept g s)ᶜ s.cpu.mem after.mem ∧ after.cr3 = s.cpu.cr3 ∧
      s.stack t = none ∧ Layout g (Function.update s.stack t (some S)) ∧
      c.FrameAt after.mem (read after.mem t) ∧ span (read after.mem t) (4 * c.words.length) ⊆ S
  | .reap t => t ≠ current g s.cpu.mem
  | .switch => level s.cpu.cs = 0 ∧ s.cpu.ss = kernelDs ∧ (parkedAtCall g s (argument s.cpu)).isSome ∧
      ∃ S, s.stack (current g s.cpu.mem) = some S ∧ span (s.cpu.esp - 32) 32 ⊆ S

/-- A state in which one thread runs, from its `current_thread` (NULL at the first tick) on. -/
structure SwitchStart (g : Globals) (s : SwitchSys) : Prop where
  layout : Layout g s.stack
  running : (s.stack (current g s.cpu.mem)).isSome
  alone : ∀ t, s.parked t = none

structure SwitchInv (g : Globals) (s : SwitchSys) : Prop where
  layout : Layout g s.stack
  running : (s.stack (current g s.cpu.mem)).isSome
  awake : s.parked (current g s.cpu.mem) = none
  frames : ∀ t c, s.parked t = some c → ∃ S, s.stack t = some S ∧ c.FrameAt s.cpu.mem (read s.cpu.mem t) ∧
    span (read s.cpu.mem t) (4 * c.words.length) ⊆ S

theorem SwitchStart.inv {g : Globals} {s : SwitchSys} (h : SwitchStart g s) : SwitchInv g s where
  layout := h.layout
  running := h.running
  awake := h.alone _
  frames t c hc := by simp [h.alone t] at hc

section Steps
variable {g : Globals} {s s' : SwitchSys} {s₁ s₂ : Cpu} {t : Word} {S : Set ℕ} {c : Context}

theorem disjoint_of_subset {A B : Set ℕ} (h : A ⊆ B) : Disjoint (Bᶜ) A := Set.disjoint_compl_left_iff_subset.mpr h

theorem Context.length_le (c : Context) : 4 * c.words.length ≤ 2 ^ 32 := by
  have h := c.length_words
  omega

theorem current_subset_kept : span g.currentThread 4 ⊆ Kept g s := fun _ hx => .inl (.inl (.inl hx))

theorem stack_subset_kept (hc : s.parked t = some c) (hS : s.stack t = some S) : S ⊆ Kept g s :=
  fun _ hx => .inr ⟨t, c, S, hc, hS, .inl hx⟩

theorem block_subset_kept (hc : s.parked t = some c) (hS : s.stack t = some S) : span t 4 ⊆ Kept g s :=
  fun _ hx => .inr ⟨t, c, S, hc, hS, .inr hx⟩

theorem SwitchInv.frame_kept (h : SwitchInv g s) {m : Memory} (hm : Touches (2 ^ 32) (Kept g s)ᶜ s.cpu.mem m)
    (hc : s.parked t = some c) : ∃ S, s.stack t = some S ∧ c.FrameAt m (read m t) ∧
      span (read m t) (4 * c.words.length) ⊆ S := by
  obtain ⟨S, hS, hframe, hsub⟩ := h.frames t c hc
  have hesp : read m t = read s.cpu.mem t := read_touches hm (disjoint_of_subset (block_subset_kept hc hS))
  have hkept := disjoint_of_subset (hsub.trans (stack_subset_kept (g := g) hc hS))
  rw [hesp]
  exact ⟨S, hS, ⟨hframe.words.touches (Context.length_le c) hm hkept, hframe.inner⟩, hsub⟩

theorem SwitchInv.current_kept {m : Memory} (hm : Touches (2 ^ 32) (Kept g s)ᶜ s.cpu.mem m) :
    current g m = current g s.cpu.mem := read_touches hm (disjoint_of_subset current_subset_kept)

theorem SwitchInv.work (h : SwitchInv g s) {after : Cpu} (hm : Touches (2 ^ 32) (Kept g s)ᶜ s.cpu.mem after.mem) :
    SwitchInv g { s with cpu := after } := by
  have hcur : current g after.mem = current g s.cpu.mem := SwitchInv.current_kept hm
  refine ⟨h.layout, ?_, ?_, fun t c hc => h.frame_kept hm hc⟩
  · simpa only [hcur] using h.running
  · simpa only [hcur] using h.awake

theorem SwitchInv.create (h : SwitchInv g s) {after : Cpu} (hm : Touches (2 ^ 32) (Kept g s)ᶜ s.cpu.mem after.mem)
    (hnew : s.stack t = none) (hlayout : Layout g (Function.update s.stack t (some S)))
    (hframe : c.FrameAt after.mem (read after.mem t)) (hsub : span (read after.mem t) (4 * c.words.length) ⊆ S) :
    SwitchInv g { cpu := after, stack := Function.update s.stack t (some S)
                  parked := Function.update s.parked t (some c) } := by
  have hcur : current g after.mem = current g s.cpu.mem := SwitchInv.current_kept hm
  have hne : current g s.cpu.mem ≠ t := by
    rintro rfl
    have hrun := h.running
    simp [hnew] at hrun
  refine ⟨hlayout, ?_, ?_, fun u d hd => ?_⟩
  · simpa [hcur, Function.update_of_ne hne] using h.running
  · simpa [hcur, Function.update_of_ne hne] using h.awake
  · by_cases hut : u = t
    · subst hut
      obtain rfl : c = d := by simpa using hd
      exact ⟨S, by simp, hframe, hsub⟩
    · simp only [Function.update_of_ne hut] at hd
      obtain ⟨S', hS', hrest⟩ := h.frame_kept hm hd
      exact ⟨S', by simpa [Function.update_of_ne hut] using hS', hrest⟩

theorem Layout.mono {stack stack' : Word → Option (Set ℕ)} (h : Layout g stack)
    (hsub : ∀ t S, stack' t = some S → stack t = some S) : Layout g stack' where
  globals t S hS := h.globals t S (hsub t S hS)
  blocks t S u S' hS hS' := h.blocks t S u S' (hsub t S hS) (hsub u S' hS')
  apart t S u S' hS hS' := h.apart t S u S' (hsub t S hS) (hsub u S' hS')
  stackBlock t S u S' hS hS' := h.stackBlock t S u S' (hsub t S hS) (hsub u S' hS')
  stackGlobals t S hS := h.stackGlobals t S (hsub t S hS)

theorem SwitchInv.reap (h : SwitchInv g s) (hne : t ≠ current g s.cpu.mem) :
    SwitchInv g { s with stack := Function.update s.stack t none, parked := Function.update s.parked t none } := by
  have hlive : ∀ u S, Function.update s.stack t none u = some S → s.stack u = some S := by
    intro u S hu
    by_cases hut : u = t
    · simp [hut] at hu
    · rwa [Function.update_of_ne hut] at hu
  refine ⟨h.layout.mono hlive, ?_, ?_, fun u d hd => ?_⟩
  · simpa [Function.update_of_ne hne.symm] using h.running
  · simpa [Function.update_of_ne hne.symm] using h.awake
  · by_cases hut : u = t
    · simp [hut] at hd
    · simp only [Function.update_of_ne hut] at hd ⊢
      exact h.frames u d hd

theorem SwitchInv.frames_saved (h : SwitchInv g s) (hcs : level s.cpu.cs = 0) (hsave : Saved g s.cpu s₁)
    (hS : s.stack (current g s.cpu.mem) = some S) (hsub : span (s.cpu.esp - 32) 32 ⊆ S)
    (hc : parkedAtCall g s t = some c) : ∃ S', s.stack t = some S' ∧
      c.FrameAt s₁.mem (read s₁.mem t) ∧
      span (read s₁.mem t) (4 * c.words.length) ⊆ S' := by
  by_cases ht : t = current g s.cpu.mem
  · subst ht
    obtain rfl : callContext s.cpu = c := by simpa [parkedAtCall] using hc
    rw [hsave.block]
    refine ⟨S, hS, hsave.frame, ?_⟩
    simpa [callContext_words hcs, saved] using hsub
  · rw [parkedAtCall, Function.update_of_ne ht] at hc
    obtain ⟨S', hS', hframe, hsub'⟩ := h.frames t c hc
    have hstack : Disjoint (span (s.cpu.esp - 32) 32 ∪ span (current g s.cpu.mem) 4) S' := by
      refine Set.disjoint_union_left.mpr ⟨?_, ?_⟩
      · exact (h.layout.apart _ _ _ _ hS hS' (Ne.symm ht)).mono_left hsub
      · exact ((h.layout.stackBlock _ _ _ _ hS' hS).mono_right (span_mono (by decide))).symm
    have hblock : Disjoint (span (s.cpu.esp - 32) 32 ∪ span (current g s.cpu.mem) 4) (span t 4) := by
      refine Set.disjoint_union_left.mpr ⟨?_, ?_⟩
      · exact (h.layout.stackBlock _ _ _ _ hS hS').mono hsub (span_mono (by decide))
      · exact (h.layout.blocks _ _ _ _ hS hS' (Ne.symm ht)).mono (span_mono (by decide)) (span_mono (by decide))
    have hesp : read s₁.mem t = read s.cpu.mem t := read_touches hsave.touches hblock
    rw [hesp]
    refine ⟨S', hS', ⟨?_, hframe.inner⟩, hsub'⟩
    exact hframe.words.touches (Context.length_le c) hsave.touches (hstack.mono_right hsub')

/-- What a call of `_switch_to_thread` comes to: the named thread goes on as its context says, in its own address
space and with its own kernel stack for the next entry from user mode. -/
structure Switched (g : Globals) (s : SwitchSys) (c : Context) (after : Cpu) : Prop where
  resumed : c.Resumed after
  current : current g after.mem = argument s.cpu
  cr3 : after.cr3 = read after.mem (argument s.cpu + pageDir)
  esp0 : read after.mem (g.tss + 4) = read after.mem (argument s.cpu + threadTss)
  eax : after.eax = if read s.cpu.mem (argument s.cpu + retVal) = noRet then after.cr3
    else read s.cpu.mem (argument s.cpu + retVal)
  ret : read after.mem (argument s.cpu + retVal) = noRet
  touches : Touches (2 ^ 32) (span (s.cpu.esp - 32) 32 ∪ span (Asm.current g s.cpu.mem) 4 ∪
    (span g.currentThread 4 ∪ span g.tss 8 ∪ span (argument s.cpu) 16)) s.cpu.mem after.mem

theorem SwitchInv.block_saved (h : SwitchInv g s) (hsave : Saved g s.cpu s₁)
    (hS : s.stack (current g s.cpu.mem) = some S) (hsub : span (s.cpu.esp - 32) 32 ⊆ S)
    {S' : Set ℕ} (hS' : s.stack t = some S') {k : Word} (hk : 4 ≤ k.toNat) (hk' : k.toNat + 4 ≤ 16) :
    read s₁.mem (t + k) = read s.cpu.mem (t + k) := by
  refine read_touches hsave.touches (Set.disjoint_union_left.mpr ⟨?_, ?_⟩)
  · exact (h.layout.stackBlock _ _ _ _ hS hS').mono hsub (span_add_subset hk')
  · by_cases ht : t = current g s.cpu.mem
    · subst ht
      apply span_disjoint <;> bv_omega
    · exact (h.layout.blocks _ _ _ _ hS hS' (Ne.symm ht)).mono (span_mono (by decide)) (span_add_subset hk')

theorem SwitchInv.halves (h : SwitchInv g s) (hcs : level s.cpu.cs = 0) (hss : s.cpu.ss = kernelDs)
    (hS : s.stack (current g s.cpu.mem) = some S) (hsub : span (s.cpu.esp - 32) 32 ⊆ S)
    (hc : parkedAtCall g s (argument s.cpu) = some c) (hsave : Saved g s.cpu s₁)
    (hload : Loaded g (argument s.cpu) s₁ s₂) : Switched g s c (runThread s₂) ∧ SwitchInv g { s with
      cpu := runThread s₂
      parked := Function.update (parkedAtCall g s) (argument s.cpu) none } := by
  have hframes := fun t c => h.frames_saved (t := t) (c := c) hcs hsave hS hsub
  obtain ⟨S', hS', hframe, hsub'⟩ := hframes _ c hc
  obtain ⟨hmem, hcr3, heax⟩ := runThread_mem s₂
  -- What the second half reads of the control block, the first half has not written.
  have hpage := h.block_saved hsave hS hsub hS' (k := pageDir) (by decide) (by decide)
  have hret := h.block_saved hsave hS hsub hS' (k := retVal) (by decide) (by decide)
  have hkeep (u : Word) (A : Set ℕ) (hA : s.stack u = some A) :
      Disjoint (span g.currentThread 4 ∪ span g.tss 8 ∪ span (argument s.cpu) 16) A :=
    Set.disjoint_union_left.mpr ⟨(h.layout.stackGlobals _ _ hA).symm, (h.layout.stackBlock _ _ _ _ hA hS').symm⟩
  have hframe₂ : c.FrameAt s₂.mem s₂.esp := by
    rw [hload.esp]
    exact ⟨hframe.words.touches (Context.length_le c) hload.touches ((hkeep _ _ hS').mono_right hsub'), hframe.inner⟩
  have hblock : s₂.cr3 = read s₂.mem (argument s.cpu + pageDir) := by
    rw [hload.cr3, hload.block pageDir (by decide)]
  have hnext : current g s₂.mem = argument s.cpu := hload.current
  refine ⟨⟨runThread_resumed hframe₂ ?_ ?_, ?_, ?_, ?_, ?_, ?_, ?_⟩, h.layout, ?_, ?_, fun u d hd => ?_⟩
  · rw [hload.cs, hsave.cs, hcs]
  · rw [hload.ss, hsave.ss, hss]
  · rw [hmem, hnext]
  · rw [hcr3, hmem, hblock]
  · rw [hmem, hload.esp0, hload.block threadTss (by decide)]
  · rw [heax, hcr3, hload.eax, hload.cr3, hret]
  · rw [hmem, hload.ret]
  · rw [hmem]
    exact (hsave.touches.mono Set.subset_union_left).trans (hload.touches.mono Set.subset_union_right)
  · simp [hmem, hnext, hS']
  · simp [hmem, hnext]
  -- The frames of the threads that stay parked.
  · by_cases hu : u = argument s.cpu
    · simp [hu] at hd
    · simp only [Function.update_of_ne hu] at hd
      obtain ⟨A, hA, hframeA, hsubA⟩ := hframes u d hd
      have hesp : read s₂.mem u = read s₁.mem u := by
        refine read_touches hload.touches (Set.disjoint_union_left.mpr ⟨?_, ?_⟩)
        · have happart := h.layout.globals u A hA
          have hboth := Set.disjoint_union_left.mpr ⟨happart.current, happart.tss⟩
          exact hboth.mono_right (span_mono (by decide))
        · exact (h.layout.blocks _ _ _ _ hS' hA (Ne.symm hu)).mono_right (span_mono (by decide))
      simp only [hmem, hesp]
      refine ⟨A, hA, ⟨?_, hframeA.inner⟩, hsubA⟩
      exact hframeA.words.touches (Context.length_le d) hload.touches ((hkeep _ _ hA).mono_right hsubA)

theorem SwitchInv.switch (h : SwitchInv g s) (hok : SwitchAllowed g s .switch)
    (hc : parkedAtCall g s (argument s.cpu) = some c) :
    Switched g s c (switchToThread g s.cpu) ∧ SwitchInv g { s with
      cpu := switchToThread g s.cpu
      parked := Function.update (parkedAtCall g s) (argument s.cpu) none } := by
  obtain ⟨hcs, hss, -, S, hS, hsub⟩ := hok
  have hsave : Saved g s.cpu (saveState g s.cpu) := by
    refine saveState_saved hcs hss ?_ ?_
    · exact (h.layout.stackGlobals _ _ hS).mono hsub Set.subset_union_left
    · exact (h.layout.stackBlock _ _ _ _ hS hS).mono hsub (span_mono (by decide))
  have hload : Loaded g (argument s.cpu) (saveState g s.cpu) (loadState g (saveState g s.cpu)) := by
    obtain ⟨S', hS', -⟩ := h.frames_saved hcs hsave hS hsub hc
    exact loadState_loaded (h.layout.globals _ _ hS') hsave.ecx
  exact h.halves hcs hss hS hsub hc hsave hload

theorem switchInv_step {ev : SwitchEvent} (h : SwitchInv g s) (hok : SwitchAllowed g s ev)
    (hstep : switchStep g ev s = some s') : SwitchInv g s' := by
  cases ev with
  | work after =>
    cases hstep
    exact h.work hok.1
  | create t S c after =>
    obtain ⟨hm, -, hnew, hlayout, hframe, hsub⟩ := hok
    cases hstep
    exact h.create hm hnew hlayout hframe hsub
  | reap t =>
    cases hstep
    exact h.reap hok
  | switch =>
    obtain ⟨c, hc⟩ := Option.isSome_iff_exists.mp hok.2.2.1
    rw [switchStep, Option.some.injEq] at hstep
    subst hstep
    exact (h.switch hok hc).2

theorem SwitchStart.run (h : SwitchStart g s) (hrun : Steps (switchStep g) (SwitchAllowed g) s s') : SwitchInv g s' :=
  hrun.invariant (fun _ _ _ hi hok hs => switchInv_step hi hok hs) h.inv

attribute [local irreducible] switchToThread

/-- The step neither resumes the thread at `t` nor gives its memory back. -/
def LeavesWaiting (t : Word) (s : SwitchSys) : SwitchEvent → Prop
  | .reap u => u ≠ t
  | .switch => argument s.cpu ≠ t
  | _ => True

structure Waits (t : Word) (c : Context) (S : Set ℕ) (m : Memory) (s : SwitchSys) : Prop where
  parked : s.parked t = some c
  stack : s.stack t = some S
  mem : ∀ x ∈ S, x < 2 ^ 32 → s.cpu.mem x = m x

theorem Waits.kept {m : Memory} (h : Waits t c S m s) {m' : Memory}
    (hm : Touches (2 ^ 32) (Kept g s)ᶜ s.cpu.mem m') : ∀ x ∈ S, x < 2 ^ 32 → m' x = m x := by
  intro x hx hlt
  have hsame := hm x hlt fun hout => hout (stack_subset_kept h.parked h.stack hx)
  exact hsame.trans (h.mem x hx hlt)

theorem SwitchInv.switch_kept (h : SwitchInv g s) (hok : SwitchAllowed g s .switch) (hS : s.stack t = some S)
    {x : ℕ} (hx : x ∈ S) (hlt : x < 2 ^ 32) (hout : x ∉ span (s.cpu.esp - 32) 32) :
    (switchToThread g s.cpu).mem x = s.cpu.mem x := by
  obtain ⟨d, hd⟩ := Option.isSome_iff_exists.mp hok.2.2.1
  have hswitched := (h.switch hok hd).1
  obtain ⟨-, -, -, S', hS', -⟩ := hok
  have hnext : ∃ A, s.stack (argument s.cpu) = some A := by
    by_cases he : argument s.cpu = current g s.cpu.mem
    · exact ⟨S', he ▸ hS'⟩
    · rw [parkedAtCall, Function.update_of_ne he] at hd
      obtain ⟨A, hA, -⟩ := h.frames _ _ hd
      exact ⟨A, hA⟩
  obtain ⟨A, hA⟩ := hnext
  have hblock := (h.layout.stackBlock _ _ _ _ hS hS').mono_right (span_mono (show 4 ≤ 16 by decide))
  have hglobals := h.layout.stackGlobals _ _ hS
  have harg := h.layout.stackBlock _ _ _ _ hS hA
  refine hswitched.touches x hlt ?_
  simp only [Set.mem_union, not_or]
  refine ⟨⟨hout, fun hin => ?_⟩, ⟨fun hin => ?_, fun hin => ?_⟩, fun hin => ?_⟩
  · exact Set.disjoint_left.mp hblock hx hin
  · exact Set.disjoint_left.mp hglobals hx (.inl hin)
  · exact Set.disjoint_left.mp hglobals hx (.inr hin)
  · exact Set.disjoint_left.mp harg hx hin

theorem SwitchInv.frame_apart (h : SwitchInv g s) (hok : SwitchAllowed g s .switch) (hS : s.stack t = some S)
    (hcur : t ≠ current g s.cpu.mem) {x : ℕ} (hx : x ∈ S) : x ∉ span (s.cpu.esp - 32) 32 := by
  obtain ⟨-, -, -, S', hS', hsub⟩ := hok
  have hown := (h.layout.apart _ _ _ _ hS' hS (Ne.symm hcur)).mono_left hsub
  exact fun hin => Set.disjoint_left.mp hown hin hx

theorem SwitchInv.parked_ne_current (h : SwitchInv g s) (hc : s.parked t = some c) : t ≠ current g s.cpu.mem := by
  rintro rfl
  have hawake := h.awake
  rw [hc] at hawake
  cases hawake

theorem Waits.step {m : Memory} {ev : SwitchEvent} (h : Waits t c S m s) (hi : SwitchInv g s)
    (hok : SwitchAllowed g s ev) (hspare : LeavesWaiting t s ev)
    (hstep : switchStep g ev s = some s') : Waits t c S m s' := by
  cases ev with
  | work after =>
    cases hstep
    exact ⟨h.parked, h.stack, h.kept hok.1⟩
  | create u S' d after =>
    have hut : t ≠ u := by
      rintro rfl
      have hnone := hok.2.2.1
      rw [h.stack] at hnone
      cases hnone
    cases hstep
    refine ⟨?_, ?_, h.kept hok.1⟩
    · simpa [Function.update_of_ne hut] using h.parked
    · simpa [Function.update_of_ne hut] using h.stack
  | reap u =>
    have hut : t ≠ u := Ne.symm hspare
    cases hstep
    refine ⟨?_, ?_, h.mem⟩
    · simpa [Function.update_of_ne hut] using h.parked
    · simpa [Function.update_of_ne hut] using h.stack
  | switch =>
    have hcur := hi.parked_ne_current h.parked
    have hkept := fun (x : ℕ) (hx : x ∈ S) (hlt : x < 2 ^ 32) =>
      hi.switch_kept hok h.stack hx hlt (hi.frame_apart hok h.stack hcur hx)
    rw [switchStep, Option.some.injEq] at hstep
    subst hstep
    refine ⟨?_, h.stack, fun x hx hlt => (hkept x hx hlt).trans (h.mem x hx hlt)⟩
    simpa [parkedAtCall, Function.update_of_ne (Ne.symm hspare), Function.update_of_ne hcur] using h.parked

abbrev StepsSparing (g : Globals) (t : Word) : SwitchSys → SwitchSys → Prop :=
  Steps (switchStep g) fun s ev => SwitchAllowed g s ev ∧ LeavesWaiting t s ev

theorem Waits.run {m : Memory} (h : Waits t c S m s) (hi : SwitchInv g s) (hrun : StepsSparing g t s s') :
    Waits t c S m s' ∧ SwitchInv g s' := by
  refine hrun.invariant (I := fun s => Waits t c S m s ∧ SwitchInv g s) ?_ ⟨h, hi⟩
  rintro s ev s' ⟨hw, hi⟩ ⟨hok, hspare⟩ hstep
  exact ⟨hw.step hi hok hspare hstep, switchInv_step hi hok hstep⟩

theorem Waits.resumed {m : Memory} (h : Waits t c S m s) (hi : SwitchInv g s) (hok : SwitchAllowed g s .switch)
    (ht : argument s.cpu = t) : Switched g s c (switchToThread g s.cpu) ∧
      ∀ x ∈ S, x < 2 ^ 32 → (switchToThread g s.cpu).mem x = m x := by
  have hcur := hi.parked_ne_current h.parked
  have hc : parkedAtCall g s (argument s.cpu) = some c := by
    rw [ht, parkedAtCall, Function.update_of_ne hcur, h.parked]
  refine ⟨(hi.switch hok hc).1, fun x hx hlt => ?_⟩
  have hout := hi.frame_apart hok h.stack hcur hx
  exact (hi.switch_kept hok h.stack hx hlt hout).trans (h.mem x hx hlt)

theorem waits_of_switch
    (haway : argument s.cpu ≠ current g s.cpu.mem) (hS : s.stack (current g s.cpu.mem) = some S)
    (hout : switchStep g .switch s = some s') :
    Waits (current g s.cpu.mem) (callContext s.cpu) S s'.cpu.mem s' := by
  rw [switchStep, Option.some.injEq] at hout
  subst hout
  refine ⟨?_, hS, fun _ _ _ => rfl⟩
  simp [parkedAtCall, Function.update_of_ne (Ne.symm haway)]

/-- Every thread that calls `_switch_to_thread` in a run, however many other threads run, come and go before it is
chosen again, goes on at its return address with its registers, its stack and its address space. -/
theorem resumes_where_it_called {s₀ s₁ s₂ s₃ : SwitchSys} (hstart : SwitchStart g s₀)
    (hrun : Steps (switchStep g) (SwitchAllowed g) s₀ s) (hcall : SwitchAllowed g s .switch)
    (haway : argument s.cpu ≠ current g s.cpu.mem) (hS : s.stack (current g s.cpu.mem) = some S)
    (hout : switchStep g .switch s = some s₁) (hmid : StepsSparing g (current g s.cpu.mem) s₁ s₂)
    (hcall₂ : SwitchAllowed g s₂ .switch) (hback : argument s₂.cpu = current g s.cpu.mem)
    (hin : switchStep g .switch s₂ = some s₃) :
    Switched g s₂ (callContext s.cpu) s₃.cpu ∧
      ∀ x ∈ S, x < 2 ^ 32 → x ∉ span (s.cpu.esp - 32) 32 → s₃.cpu.mem x = s.cpu.mem x := by
  have hi := hstart.run hrun
  have hi₁ := switchInv_step hi hcall hout
  have hwaits := waits_of_switch haway hS hout
  obtain ⟨hwaits₂, hi₂⟩ := hwaits.run hi₁ hmid
  obtain ⟨hswitched, hmem⟩ := hwaits₂.resumed hi₂ hcall₂ hback
  rw [switchStep, Option.some.injEq] at hin hout
  subst hin hout
  exact ⟨hswitched, fun x hx hlt hframe => (hmem x hx hlt).trans (hi.switch_kept hcall hS hx hlt hframe)⟩

/-- A thread's first turn begins in the context that its creator wrote. -/
theorem starts_where_it_was_created {s₀ s₁ s₂ s₃ : SwitchSys} {after : Cpu} (hstart : SwitchStart g s₀)
    (hrun : Steps (switchStep g) (SwitchAllowed g) s₀ s) (hcreate : SwitchAllowed g s (.create t S c after))
    (hmake : switchStep g (.create t S c after) s = some s₁) (hmid : StepsSparing g t s₁ s₂)
    (hcall : SwitchAllowed g s₂ .switch) (hto : argument s₂.cpu = t) (hin : switchStep g .switch s₂ = some s₃) :
    Switched g s₂ c s₃.cpu ∧ ∀ x ∈ S, x < 2 ^ 32 → s₃.cpu.mem x = after.mem x := by
  have hi₁ := switchInv_step (hstart.run hrun) hcreate hmake
  rw [switchStep, Option.some.injEq] at hmake
  have hwaits : Waits t c S after.mem s₁ := by
    subst hmake
    exact ⟨by simp, by simp, fun _ _ _ => rfl⟩
  obtain ⟨hwaits₂, hi₂⟩ := hwaits.run hi₁ hmid
  obtain ⟨hswitched, hmem⟩ := hwaits₂.resumed hi₂ hcall hto
  rw [switchStep, Option.some.injEq] at hin
  subst hin
  exact ⟨hswitched, hmem⟩

/-- The first turn of a thread with the frame of `set_user_esp`: user mode, at its entry point, on its own stack. -/
theorem user_thread_starts {s₀ s₁ s₂ s₃ : SwitchSys} {after : Cpu} {m : Memory} {uesp entryPoint userStack : Word}
    (hstart : SwitchStart g s₀) (hrun : Steps (switchStep g) (SwitchAllowed g) s₀ s)
    (hkept : Touches (2 ^ 32) (Kept g s)ᶜ s.cpu.mem after.mem) (hcr3 : after.cr3 = s.cpu.cr3)
    (hnew : s.stack t = none) (hlayout : Layout g (Function.update s.stack t (some S)))
    (hmem : after.mem = setUserEsp uesp.toNat entryPoint.toNat userStack.toNat m) (hblock : read after.mem t = uesp)
    (hroom : span uesp 40 ⊆ S)
    (hmake : switchStep g (.create t S (userContext entryPoint userStack) after) s = some s₁)
    (hmid : StepsSparing g t s₁ s₂) (hcall : SwitchAllowed g s₂ .switch) (hto : argument s₂.cpu = t)
    (hin : switchStep g .switch s₂ = some s₃) :
    level s₃.cpu.cs = 3 ∧ s₃.cpu.eip = entryPoint ∧ s₃.cpu.esp = userStack := by
  have hframe : (userContext entryPoint userStack).FrameAt after.mem (read after.mem t) := by
    rw [hblock, hmem]
    exact setUserEsp_frame_at m uesp entryPoint userStack
  have hsub : span (read after.mem t) (4 * (userContext entryPoint userStack).words.length) ⊆ S := by
    rw [hblock, userContext_words]
    exact hroom
  have hresumed := (starts_where_it_was_created hstart hrun ⟨hkept, hcr3, hnew, hlayout, hframe, hsub⟩ hmake hmid
    hcall hto hin).1.resumed
  exact ⟨(congrArg level hresumed.cs).trans (by simp [userContext, level, userCs]), hresumed.eip, hresumed.esp⟩

end Steps

namespace TwoThreads

def globals : Globals := { currentThread := 0x1000, tss := 0x2000 }

def first : Word := 0x3000
def second : Word := 0x4000
def firstStack : Set ℕ := span 0x10000 4096
def secondStack : Set ℕ := span 0x20000 4096

def bootMemory : Memory :=
  write (write (write (fun _ => 0) globals.currentThread first) 0x10804 second) 0x21004 first

def bootCpu : Cpu :=
  { eax := 0, ecx := 0, edx := 0, ebx := 1, esp := 0x10800, ebp := 2, esi := 3, edi := 4, eip := 5, eflags := 0,
    cr3 := 0, cs := kernelCs, ss := kernelDs, ds := kernelDs, es := kernelDs, fs := kernelDs, gs := kernelDs,
    mem := bootMemory }

def boot : SwitchSys :=
  { cpu := bootCpu, stack := Function.update (fun _ => none) first (some firstStack), parked := fun _ => none }

def secondContext : Context := kernelContext 0x20FE0 0x5000

/-- `create_kernel_thread` as far as the context switch reads what it writes. -/
def created : Cpu := { bootCpu with mem := setKernelEsp (write bootMemory second 0x20FE0) 0x20FE0 0x5000 }

def both : SwitchSys :=
  { cpu := created, stack := Function.update boot.stack second (some secondStack),
    parked := Function.update boot.parked second (some secondContext) }

theorem stack_cases {t : Word} {S : Set ℕ} (h : both.stack t = some S) :
    t = first ∧ S = firstStack ∨ t = second ∧ S = secondStack := by
  simp only [both, boot, Function.update_apply] at h
  split at h
  · next ht => exact .inr ⟨ht, (Option.some.inj h).symm⟩
  · split at h
    · next ht => exact .inl ⟨ht, (Option.some.inj h).symm⟩
    · cases h

theorem globals_apart {t : Word} (h : t = first ∨ t = second) : globals.Apart t := by
  rcases h with rfl | rfl <;>
    exact ⟨span_disjoint (by decide) (by decide), span_disjoint (by decide) (by decide),
      span_disjoint (by decide) (by decide)⟩

theorem layout : Layout globals both.stack where
  globals t S h := globals_apart ((stack_cases h).imp And.left And.left)
  blocks t S u S' h h' hne := by
    obtain ⟨rfl, rfl⟩ | ⟨rfl, rfl⟩ := stack_cases h <;> obtain ⟨rfl, rfl⟩ | ⟨rfl, rfl⟩ := stack_cases h'
    · exact absurd rfl hne
    · exact span_disjoint (by decide) (by decide)
    · exact span_disjoint (by decide) (by decide)
    · exact absurd rfl hne
  apart t S u S' h h' hne := by
    obtain ⟨rfl, rfl⟩ | ⟨rfl, rfl⟩ := stack_cases h <;> obtain ⟨rfl, rfl⟩ | ⟨rfl, rfl⟩ := stack_cases h'
    · exact absurd rfl hne
    · exact span_disjoint (by decide) (by decide)
    · exact span_disjoint (by decide) (by decide)
    · exact absurd rfl hne
  stackBlock t S u S' h h' := by
    obtain ⟨rfl, rfl⟩ | ⟨rfl, rfl⟩ := stack_cases h <;> obtain ⟨rfl, rfl⟩ | ⟨rfl, rfl⟩ := stack_cases h' <;>
      exact span_disjoint (by decide) (by decide)
  stackGlobals t S h := by
    obtain ⟨rfl, rfl⟩ | ⟨rfl, rfl⟩ := stack_cases h <;>
      exact Set.disjoint_union_right.mpr ⟨span_disjoint (by decide) (by decide), span_disjoint (by decide) (by decide)⟩

theorem read_boot : read bootMemory globals.currentThread = first ∧ read bootMemory 0x10804 = second ∧
    read bootMemory 0x21004 = first := by
  refine ⟨?_, ?_, read_write_self _ _ _⟩
  · refine (read_write_apart (by decide) (by decide)).trans ((read_write_apart (by decide) (by decide)).trans ?_)
    exact read_write_self _ _ _
  · exact (read_write_apart (by decide) (by decide)).trans (read_write_self _ _ _)

theorem created_touches : Touches (2 ^ 32) (span second 4 ∪ span 0x20FE0 32) bootMemory created.mem :=
  ((touches_write _ _ _).mono Set.subset_union_left).trans
    ((setKernelEsp_touches _ _ _).mono Set.subset_union_right)

theorem read_created (a : Word) (h : Disjoint (span second 4) (span a 4)) (h' : Disjoint (span 0x20FE0 32) (span a 4)) :
    read created.mem a = read bootMemory a :=
  read_touches created_touches (Set.disjoint_union_left.mpr ⟨h, h'⟩)

theorem current_created : current globals created.mem = first :=
  (read_created _ (span_disjoint (by decide) (by decide)) (span_disjoint (by decide) (by decide))).trans read_boot.1

theorem argument_created : argument created = second :=
  (read_created _ (span_disjoint (by decide) (by decide)) (span_disjoint (by decide) (by decide))).trans read_boot.2.1

theorem start : SwitchStart globals boot where
  layout := layout.mono fun t S hS => by
    have ht : t ≠ second := by
      rintro rfl
      simp [boot, first, second] at hS
    simpa [both, Function.update_of_ne ht] using hS
  running := by
    change (boot.stack (read bootMemory globals.currentThread)).isSome
    rw [read_boot.1]
    simp [boot]
  alone _ := rfl

theorem create_allowed : SwitchAllowed globals boot (.create second secondStack secondContext created) := by
  have hesp : read created.mem second = 0x20FE0 := by
    refine (read_touches (setKernelEsp_touches _ _ _) (span_disjoint (by decide) (by decide))).trans ?_
    exact read_write_self _ _ _
  refine ⟨created_touches.mono ?_, rfl, by simp [boot, first, second], layout, ?_, ?_⟩
  · refine Set.subset_compl_iff_disjoint_right.mpr (Set.disjoint_union_left.mpr ?_)
    have hkept (A : Set ℕ) (hct : Disjoint A (span globals.currentThread 4)) (htss : Disjoint A (span globals.tss 8))
        (hblock : Disjoint A (span (first + 4) 8)) : Disjoint A (Kept globals boot) := by
      refine Set.disjoint_union_right.mpr ⟨?_, ?_⟩
      · refine Set.disjoint_union_right.mpr ⟨Set.disjoint_union_right.mpr ⟨hct, htss⟩, ?_⟩
        refine Set.disjoint_left.mpr ?_
        rintro x hx ⟨t, S, hS, hin⟩
        obtain rfl : t = first := by
          by_contra ht
          simp [boot, Function.update_of_ne ht] at hS
        exact Set.disjoint_left.mp hblock hx hin
      · refine Set.disjoint_left.mpr ?_
        rintro x - ⟨t, c, S, hc, -⟩
        cases hc
    exact ⟨hkept _ (span_disjoint (by decide) (by decide)) (span_disjoint (by decide) (by decide))
      (span_disjoint (by decide) (by decide)), hkept _ (span_disjoint (by decide) (by decide))
      (span_disjoint (by decide) (by decide)) (span_disjoint (by decide) (by decide))⟩
  · rw [hesp]
    exact setKernelEsp_frame _ _ _
  · rw [hesp, secondContext, kernelContext_words]
    exact span_subset (by decide)

theorem create_step : switchStep globals (.create second secondStack secondContext created) boot = some both := rfl

theorem run_both : Steps (switchStep globals) (SwitchAllowed globals) boot both :=
  .single ⟨_, create_allowed, create_step⟩

structure FirstCalls (c : Cpu) : Prop where
  inv : SwitchInv globals { both with cpu := c }
  current : current globals c.mem = first
  argument : argument c = second
  back : read c.mem 0x21004 = first
  level : level c.cs = 0
  ss : c.ss = kernelDs
  room : span (c.esp - 32) 32 ⊆ firstStack

def inSecond (c : Cpu) : SwitchSys :=
  { both with
    cpu := switchToThread globals c
    parked := Function.update (parkedAtCall globals { both with cpu := c }) (argument c) none }

section FirstCalls
variable {c : Cpu}

attribute [local irreducible] switchToThread

theorem FirstCalls.stack (h : FirstCalls c) : both.stack (Asm.current globals c.mem) = some firstStack := by
  rw [h.current]
  simp [both, boot, first, second]

theorem FirstCalls.parked (h : FirstCalls c) :
    parkedAtCall globals { both with cpu := c } (Proc.argument c) = some secondContext := by
  rw [h.argument]
  change Function.update both.parked (Asm.current globals c.mem) _ second = _
  rw [h.current]
  simp [both, first, second]

theorem FirstCalls.allowed (h : FirstCalls c) : SwitchAllowed globals { both with cpu := c } .switch :=
  ⟨h.level, h.ss, Option.isSome_iff_exists.mpr ⟨_, h.parked⟩, firstStack, h.stack, h.room⟩

theorem FirstCalls.switched (h : FirstCalls c) :
    Switched globals { both with cpu := c } secondContext (inSecond c).cpu := (h.inv.switch h.allowed h.parked).1

theorem FirstCalls.current_second (h : FirstCalls c) : Asm.current globals (inSecond c).cpu.mem = second :=
  h.switched.current.trans h.argument

theorem FirstCalls.argument_second (h : FirstCalls c) : Proc.argument (inSecond c).cpu = first := by
  have hesp : (inSecond c).cpu.esp = 0x21000 := h.switched.resumed.esp
  have htouch := h.switched.touches
  dsimp only at htouch
  rw [h.current, h.argument] at htouch
  have hroom := h.room
  have hsame : read (inSecond c).cpu.mem 0x21004 = read c.mem 0x21004 := by
    refine read_touches htouch ?_
    simp only [Set.disjoint_union_left]
    have hapart : Disjoint firstStack (span 0x21004 4) := span_disjoint (by decide) (by decide)
    exact ⟨⟨hapart.mono_left hroom, span_disjoint (by decide) (by decide)⟩,
      ⟨span_disjoint (by decide) (by decide), span_disjoint (by decide) (by decide)⟩,
      span_disjoint (by decide) (by decide)⟩
  rw [Proc.argument, hesp]
  exact hsame.trans h.back

theorem FirstCalls.parked_second (h : FirstCalls c) :
    parkedAtCall globals (inSecond c) (Proc.argument (inSecond c).cpu) = some (callContext c) := by
  rw [h.argument_second, parkedAtCall, h.current_second]
  change Function.update (Function.update (parkedAtCall globals { both with cpu := c }) (Proc.argument c) none)
    second _ first = _
  rw [h.argument, parkedAtCall]
  dsimp only
  rw [h.current]
  simp [first, second]

theorem FirstCalls.allowed_second (h : FirstCalls c) : SwitchAllowed globals (inSecond c) .switch := by
  have hresumed := h.switched.resumed
  refine ⟨?_, hresumed.ss, Option.isSome_iff_exists.mpr ⟨_, h.parked_second⟩, secondStack, ?_, ?_⟩
  · rw [hresumed.cs]
    rfl
  · rw [h.current_second]
    simp [inSecond, both]
  · rw [hresumed.esp]
    exact span_subset (by decide)

end FirstCalls

theorem firstCalls_created : FirstCalls created where
  inv := start.run run_both
  current := current_created
  argument := argument_created
  back := (read_created _ (span_disjoint (by decide) (by decide)) (span_disjoint (by decide) (by decide))).trans
    read_boot.2.2
  level := rfl
  ss := rfl
  room := span_subset (by decide)

def turned : SwitchSys :=
  { both with
    cpu := switchToThread globals both.cpu
    parked := Function.update (parkedAtCall globals both) (argument both.cpu) none }

theorem switch_step : switchStep globals .switch both = some turned := rfl

/-- The second thread's turn begins at its entry point. -/
theorem first_turn : Switched globals both secondContext turned.cpu ∧
    ∀ x ∈ secondStack, x < 2 ^ 32 → turned.cpu.mem x = created.mem x :=
  starts_where_it_was_created start .refl create_allowed create_step .refl firstCalls_created.allowed
    argument_created switch_step

def returned : SwitchSys :=
  { turned with
    cpu := switchToThread globals turned.cpu
    parked := Function.update (parkedAtCall globals turned) (argument turned.cpu) none }

theorem switch_back : switchStep globals .switch turned = some returned := rfl

/-- The first thread is back where it called, its stack as it was. -/
theorem second_turn : Switched globals turned (callContext both.cpu) returned.cpu ∧
    ∀ x ∈ firstStack, x < 2 ^ 32 → x ∉ span (both.cpu.esp - 32) 32 → returned.cpu.mem x = both.cpu.mem x := by
  refine resumes_where_it_called start run_both firstCalls_created.allowed ?_ firstCalls_created.stack switch_step
    .refl firstCalls_created.allowed_second ?_ switch_back
  · change argument created ≠ current globals created.mem
    rw [argument_created, current_created]
    decide
  · exact firstCalls_created.argument_second.trans current_created.symm

end TwoThreads
end X86Osdev.Proc
